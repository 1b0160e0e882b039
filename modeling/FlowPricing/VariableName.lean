/-
Master variable names and the arcs they stand for. A name takes part in
pricing if it starts with `y(`; such a name has to be a written arc, up
to leading zeros:

    y(block,block)       block = seven fields between bars

where the first, second, fifth and seventh field are natural numbers,
the third and fourth natural numbers or `neg` and a natural number, and
the sixth a flag. Every other name is not an error but simply no arc.
-/
import FlowPricing.Network.Arc

namespace FlowPricing

/-- What is wrong with a name that starts like a pricing variable. -/
inductive NameFlaw where
  | unclosed
  | nodeCount
  | fieldCount (found : Nat) (block : String)
  | notNatural (field : String)
  | tooLarge (field : String)
  | notSigned (field : String)
  | notFlag (field : String)
deriving DecidableEq, Repr

/-- The flaw in words. -/
def NameFlaw.reason : NameFlaw → String
  | unclosed => "missing closing ')'"
  | nodeCount => "expected exactly two ','-separated nodes"
  | fieldCount found block =>
      s!"expected 7 '|'-separated fields, found {found} in '{block}'"
  | notNatural field =>
      s!"invalid index '{field}' (expecting a natural number)"
  | tooLarge field =>
      s!"invalid index '{field}': number too large to fit in target type"
  | notSigned field =>
      s!"invalid index '{field}' (expecting a natural number or negX)"
  | notFlag field =>
      s!"invalid index '{field}' (expecting true or false)"

/-- A flawed pricing variable name. -/
structure NameError where
  name : String
  flaw : NameFlaw
deriving DecidableEq, Repr

/-- The whole name and what is wrong with it. -/
def NameError.message (e : NameError) : String :=
  s!"Malformed pricing variable '{e.name}': {e.flaw.reason}"

namespace VariableName

/-- The largest attribute. -/
def maxField : Nat := 2147483647

-- ============================================================ fields

/-- A natural number that fits an attribute. -/
def natural (cs : List Char) : Except NameFlaw Int32 :=
  match Numeral.read? cs with
  | none => .error (.notNatural (String.ofList cs))
  | some n =>
      if n ≤ maxField then .ok (Int32.ofNat n)
      else .error (.tooLarge (String.ofList cs))

/-- A natural number, or `neg` and one. -/
def signed (cs : List Char) : Except NameFlaw Int32 :=
  let flaw := NameFlaw.notSigned (String.ofList cs)
  match cs with
  | 'n' :: 'e' :: 'g' :: digits =>
      match natural digits with
      | .ok x => .ok (-x)
      | .error _ => .error flaw
  | _ =>
      match natural cs with
      | .ok x => .ok x
      | .error _ => .error flaw

/-- A flag. -/
def flag (cs : List Char) : Except NameFlaw Bool :=
  if cs = "true".toList then .ok true
  else if cs = "false".toList then .ok false
  else .error (.notFlag (String.ofList cs))

-- ============================================================ nodes and arcs

/-- A block of seven fields, read from the first to the last. -/
def node (block : List Char) : Except NameFlaw Node :=
  match Pieces.split '|' block with
  | [f₁, f₂, f₃, f₄, f₅, f₆, f₇] => do
      let careerGroup ← natural f₁
      let career ← natural f₂
      let rank ← signed f₃
      let timeSlice ← signed f₄
      let status ← natural f₅
      let inTraining ← flag f₆
      let network ← natural f₇
      return {
        careerGroup, career, rank, timeSlice, status, inTraining, network }
  | fs => .error (.fieldCount fs.length (String.ofList block))

/-- What follows the opening `y(` of a name. -/
def body (cs : List Char) : Except NameFlaw Arc :=
  if cs.getLast? = some ')' then
    match Pieces.split ',' cs.dropLast with
    | [s, t] => do
        let source ← node s
        let target ← node t
        return { source, target }
    | _ => .error .nodeCount
  else .error .unclosed

/-- Whether a name takes part in pricing at all. -/
def isPricing (name : String) : Bool :=
  match name.toList with
  | 'y' :: '(' :: _ => true
  | _ => false

/-- The arc a name stands for; `none` for a name that takes no part in
pricing. -/
def arc? (name : String) : Except NameError (Option Arc) :=
  match name.toList with
  | 'y' :: '(' :: rest =>
      match body rest with
      | .ok a => .ok (some a)
      | .error flaw => .error ⟨name, flaw⟩
  | _ => .ok none

end VariableName

end FlowPricing
