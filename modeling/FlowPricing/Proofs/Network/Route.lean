/-
Walks along arcs, and what they weigh. The total of a walk is summed from
its first arc to its last, starting at zero; where arcs go forward in an
order of the vertices, so do walks.
-/
import FlowPricing.Network.Basic
import FlowPricing.Proofs.Table
import FlowPricing.Proofs.Network.Topology
import FlowPricing.Proofs.Weight.Addition

namespace FlowPricing

-- =============================================================== walks

/-- The arcs lead, one after another, from `u` to `v`. -/
def Walk (u v : Node) : List Arc → Prop
  | [] => u = v
  | a :: as => a.source = u ∧ Walk a.target v as

/-- A walk in two parts passes through some vertex between them. -/
theorem walk_append {u w : Node} {as bs : List Arc} :
    Walk u w (as ++ bs) ↔ ∃ v, Walk u v as ∧ Walk v w bs := by
  induction as generalizing u with
  | nil =>
      constructor
      · intro h
        exact ⟨u, rfl, h⟩
      · intro h
        obtain ⟨v, rfl, h⟩ := h
        exact h
  | cons a as ih =>
      rw [List.cons_append]
      constructor
      · intro h
        obtain ⟨ha, h⟩ := h
        obtain ⟨v, has, hbs⟩ := ih.1 h
        exact ⟨v, ⟨ha, has⟩, hbs⟩
      · intro h
        obtain ⟨v, ⟨ha, has⟩, hbs⟩ := h
        exact ⟨ha, ih.2 ⟨v, has, hbs⟩⟩

/-- One more arc at the end of a walk. -/
theorem Walk.concat {u : Node} {as : List Arc} {a : Arc}
    (h : Walk u a.source as) :
    Walk u a.target (as ++ [a]) :=
  walk_append.2 ⟨a.source, h, rfl, rfl⟩

-- ============================================================== totals

/-- The weight of an arc; of an arc without a weight, zero. -/
def weightOf (weights : Table Arc Float) (a : Arc) : Float :=
  (weights.get? a).getD 0.0

/-- What the arcs weigh, added to `base` one after another. -/
def totalFrom (weights : Table Arc Float) (base : Float) (arcs : List Arc) :
    Float :=
  arcs.foldl (fun s a => s + weightOf weights a) base

/-- What the arcs weigh, from the first to the last. -/
def total (weights : Table Arc Float) (arcs : List Arc) : Float :=
  totalFrom weights 0.0 arcs

variable {weights : Table Arc Float}

theorem total_concat (as : List Arc) (a : Arc) :
    total weights (as ++ [a]) = total weights as + weightOf weights a := by
  unfold total totalFrom
  rw [List.foldl_append]
  rfl

/-- A finite total has begun with a finite weight. -/
theorem isFinite_of_totalFrom {base : Float} {as : List Arc}
    (h : (totalFrom weights base as).isFinite = true) :
    base.isFinite = true := by
  induction as generalizing base with
  | nil => exact h
  | cons a as ih => exact (Weight.isFinite_of_add (ih h)).1

/-- A finite total is finite all the way. -/
theorem isFinite_total_of_append {as : List Arc} (bs : List Arc)
    (h : (total weights (as ++ bs)).isFinite = true) :
    (total weights as).isFinite = true := by
  unfold total totalFrom at h ⊢
  rw [List.foldl_append] at h
  exact isFinite_of_totalFrom h

-- ============================================================== routes

namespace Network

/-- A walk inside a network from its source to its sink. -/
structure IsRoute (n : Network) (arcs : List Arc) : Prop where
  inside : ∀ a ∈ arcs, a ∈ n.topology.arcs
  leads : Walk n.topology.source n.topology.sink arcs

/-- What the arcs weigh in a network. -/
def total (n : Network) (arcs : List Arc) : Float :=
  FlowPricing.total n.weights arcs

end Network

end FlowPricing
