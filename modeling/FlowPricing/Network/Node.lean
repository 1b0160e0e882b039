/-
Vertices of a flow network. A vertex is identified by seven attributes
and by nothing else: two vertices with the same attributes are the same
vertex.

The written form joins the attributes with bars. Rank and time slice,
which are negative in ordinary use, spell a negative value `neg<abs>`;
the other attributes spell it with a minus sign.
-/
import FlowPricing.Text.Numeral
import FlowPricing.Text.Pieces

namespace FlowPricing

/-- A vertex of a flow network. -/
structure Node where
  careerGroup : Int32
  career : Int32
  rank : Int32
  timeSlice : Int32
  status : Int32
  inTraining : Bool
  /-- The network field: arcs are routed to their network by the network
  field of the node they leave. -/
  network : Int32
deriving DecidableEq, Repr, Inhabited

namespace Node

-- ============================================================ terminals

/-- The rank of every source. -/
def sourceRank : Int32 := -2

/-- The rank of every sink. -/
def sinkRank : Int32 := 35

/-- What sources and sinks have in common; the rank tells them apart, and
the network field is free. -/
def isTerminal (n : Node) : Bool :=
  n.careerGroup == 0 && n.career == 0 && n.timeSlice == -1 && n.status == 0
    && !n.inTraining

/-- Whether paths start here. -/
def isSource (n : Node) : Bool := n.isTerminal && n.rank == sourceRank

/-- Whether paths end here. -/
def isSink (n : Node) : Bool := n.isTerminal && n.rank == sinkRank

-- ============================================================ order

/-- The attributes as numbers, the flag as zero or one. Nodes are ordered
lexicographically by them. -/
def columns (n : Node) : List Int :=
  [n.careerGroup.toInt, n.career.toInt, n.rank.toInt, n.timeSlice.toInt,
    n.status.toInt, if n.inTraining then 1 else 0, n.network.toInt]

/-- The columns tell nodes apart. -/
theorem columns_injective {a b : Node} (h : a.columns = b.columns) : a = b := by
  obtain ⟨a₁, a₂, a₃, a₄, a₅, a₆, a₇⟩ := a
  obtain ⟨b₁, b₂, b₃, b₄, b₅, b₆, b₇⟩ := b
  simp only [columns, List.cons.injEq, Int32.toInt_inj, and_true] at h
  obtain ⟨rfl, rfl, rfl, rfl, rfl, h₆, rfl⟩ := h
  have : a₆ = b₆ := by revert h₆; cases a₆ <;> cases b₆ <;> simp
  rw [this]

-- ============================================================ text

/-- An attribute that spells a negative value with `neg`. -/
def signedField (x : Int32) : List Char :=
  if x < 0 then 'n' :: 'e' :: 'g' :: Numeral.ofNat x.toInt.natAbs
  else Numeral.ofNat x.toInt.natAbs

/-- An attribute that spells a negative value with a minus sign. -/
def plainField (x : Int32) : List Char := Numeral.ofInt x.toInt

/-- The training flag. -/
def flagField (b : Bool) : List Char :=
  if b then "true".toList else "false".toList

/-- The seven written attributes. -/
def fields (n : Node) : List (List Char) :=
  [plainField n.careerGroup, plainField n.career, signedField n.rank,
    signedField n.timeSlice, plainField n.status, flagField n.inTraining,
    plainField n.network]

/-- The written node. -/
def chars (n : Node) : List Char := Pieces.join '|' n.fields

/-- The written node, as a string. -/
def text (n : Node) : String := String.ofList n.chars

end Node

end FlowPricing
