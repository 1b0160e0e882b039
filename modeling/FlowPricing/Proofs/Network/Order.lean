/-
The depth-first search finishes every vertex exactly once
(`search_perm`), so its candidate is an order of the vertices, and what
the check lets through is a topological one (`topological?_spec`).
-/
import FlowPricing.Network.Order
import Mathlib.Data.List.Perm.Basic

namespace FlowPricing.Order

variable {arcs : List Arc}

-- ========================================================== the search

/-- No vertex is finished twice. -/
theorem search_nodup (fresh stack finished : List Node) (h : finished.Nodup) :
    (search arcs fresh stack finished).Nodup := by
  fun_induction search arcs fresh stack finished with
  | case1 fresh finished => exact h
  | case2 fresh finished u rest hu fresh' next ih => exact ih h
  | case3 fresh finished u rest hu hf ih => exact ih h
  | case4 fresh finished u rest hu hf ih => exact ih (List.nodup_cons.2 ⟨hf, h⟩)

/-- Whatever waits on the stack is finished in the end. -/
theorem mem_search_of_mem {x : Node} (fresh stack finished : List Node)
    (h : x ∈ finished ∨ x ∈ stack) : x ∈ search arcs fresh stack finished := by
  fun_induction search arcs fresh stack finished with
  | case1 fresh finished => exact h.resolve_right List.not_mem_nil
  | case2 fresh finished u rest hu fresh' next ih =>
      exact ih (h.imp_right (List.mem_append_right next))
  | case3 fresh finished u rest hu hf ih =>
      apply ih
      rcases h with h | h
      · exact .inl h
      · rcases List.mem_cons.1 h with rfl | h
        · exact .inl hf
        · exact .inr h
  | case4 fresh finished u rest hu hf ih =>
      apply ih
      rcases h with h | h
      · exact .inl (List.mem_cons_of_mem u h)
      · rcases List.mem_cons.1 h with rfl | h
        · exact .inl List.mem_cons_self
        · exact .inr h

/-- Only vertices get onto the stack. -/
theorem mem_of_mem_search {x : Node} (fresh stack finished : List Node)
    (h : x ∈ search arcs fresh stack finished) :
    x ∈ finished ∨ x ∈ stack ∨ x ∈ fresh := by
  fun_induction search arcs fresh stack finished with
  | case1 fresh finished => exact .inl h
  | case2 fresh finished u rest hu fresh' next ih =>
      rcases ih h with h | h | h
      · exact .inl h
      · rcases List.mem_append.1 h with h | h
        · have hx : x ∈ fresh' := by simpa using (List.mem_filter.1 h).2
          exact .inr (.inr (List.mem_of_mem_erase hx))
        · exact .inr (.inl h)
      · exact .inr (.inr (List.mem_of_mem_erase h))
  | case3 fresh finished u rest hu hf ih =>
      exact (ih h).imp_right (Or.imp_left (List.mem_cons_of_mem u))
  | case4 fresh finished u rest hu hf ih =>
      rcases ih h with h | h | h
      · rcases List.mem_cons.1 h with rfl | h
        · exact .inr (.inl List.mem_cons_self)
        · exact .inl h
      · exact .inr (.inl (List.mem_cons_of_mem u h))
      · exact .inr (.inr h)

/-- The search arranges the vertices. -/
theorem search_perm {vertices : List Node} (h : vertices.Nodup) :
    (search arcs vertices vertices []).Perm vertices := by
  rw [List.perm_ext_iff_of_nodup (search_nodup _ _ _ List.nodup_nil) h]
  intro x
  constructor
  · intro hx
    rcases mem_of_mem_search _ _ _ hx with hx | hx | hx
    · exact absurd hx List.not_mem_nil
    · exact hx
    · exact hx
  · exact fun hx => mem_search_of_mem _ _ _ (.inr hx)

-- =========================================================== the check

/-- Every arc leads from an earlier vertex to a later one. -/
def Forward (arcs : List Arc) (order : List Node) : Prop :=
  ∀ a ∈ arcs, order.idxOf a.source < order.idxOf a.target

theorem allForward_iff (order : List Node) :
    allForward arcs order = true ↔ Forward arcs order := by
  unfold allForward Forward
  rw [List.all_eq_true]
  exact forall₂_congr fun a _ => decide_eq_true_iff

/-- The tail of an arc that goes forward is in the order. -/
theorem Forward.source_mem {order : List Node}
    (h : Forward arcs order) {a : Arc} (ha : a ∈ arcs) : a.source ∈ order :=
  List.idxOf_lt_length_iff.1 (Nat.lt_of_lt_of_le (h a ha) List.idxOf_le_length)

/-- What a topological order is worth. -/
theorem topological?_spec {vertices order : List Node} (hv : vertices.Nodup)
    (h : topological? vertices arcs = some order) :
    order.Perm vertices ∧ Forward arcs order := by
  unfold topological? at h
  simp only at h
  split at h
  · next hf =>
      obtain rfl := Option.some.inj h
      exact ⟨search_perm hv, (allForward_iff _).1 hf⟩
  · exact nomatch h

end FlowPricing.Order
