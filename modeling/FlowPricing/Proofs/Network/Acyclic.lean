/-
The depth-first search finds a topological order of every graph that has one,
and those are the graphs without cycles (`topological?_isSome_iff`).

A vertex is underway from its discovery until it is finished. It has to be
shown that all its successors are finished before it. They were finished
already, or were put on the stack above it, or were underway themselves when
it was discovered; the last would close a cycle, since whatever is on the
stack above a vertex that is underway can be reached from it.

A vertex may be on the stack several times. Only its uppermost entry counts
(`above`): a vertex is discovered there, and nothing that was discovered is put
on the stack again.
-/
import FlowPricing.Proofs.Network.Order
import Mathlib.Logic.Relation

namespace FlowPricing.Order

open Relation (TransGen)

variable {arcs : List Arc} {vertices fresh stack rest finished : List Node}
  {u x y : Node}

-- ============================================================== cycles

/-- Some arc leads from the one vertex to the other. -/
def Joined (arcs : List Arc) (u v : Node) : Prop := ⟨u, v⟩ ∈ arcs

/-- Following arcs never leads back to where one started. -/
def Acyclic (arcs : List Arc) : Prop := ∀ v, ¬TransGen (Joined arcs) v v

/-- The successors of a vertex are those an arc joins it to. -/
theorem mem_successors : y ∈ successors arcs x ↔ Joined arcs x y := by
  unfold successors Joined
  simp only [List.mem_map, List.mem_filter, decide_eq_true_eq]
  constructor
  · intro h
    obtain ⟨a, ⟨ha, rfl⟩, rfl⟩ := h
    exact ha
  · exact fun h => ⟨⟨x, y⟩, ⟨h, rfl⟩, rfl⟩

/-- Where all arcs go forward there is no way back. -/
theorem acyclic_of_forward {order : List Node} (h : Forward arcs order) :
    Acyclic arcs := by
  have hlater : ∀ u v, TransGen (Joined arcs) u v →
      order.idxOf u < order.idxOf v := by
    intro u v hreach
    induction hreach with
    | single hstep => exact h _ hstep
    | tail _ hstep ih => exact Nat.lt_trans ih (h _ hstep)
  exact fun v hcycle => Nat.lt_irrefl _ (hlater v v hcycle)

-- =========================================================== the stack

/-- What lies on the stack above the uppermost entry of `x`. -/
def above (x : Node) (stack : List Node) : List Node := stack.takeWhile (· ≠ x)

theorem above_self (x : Node) (rest : List Node) :
    above x (x :: rest) = [] := by
  simp [above]

theorem above_cons (h : x ≠ u) : above x (u :: rest) = u :: above x rest := by
  simp [above, Ne.symm h]

theorem mem_above_cons (h : x ≠ u) : u ∈ above x (u :: rest) := by
  rw [above_cons h]
  exact List.mem_cons_self

theorem above_append {next : List Node} (h : x ∉ next) :
    above x (next ++ stack) = next ++ above x stack := by
  unfold above
  apply List.takeWhile_append_of_pos
  intro y hy
  have hne : y ≠ x := fun heq => h (heq ▸ hy)
  simpa using hne

-- ======================================================= the invariant

/-- Discovered, but not finished. -/
structure Underway (vertices fresh finished : List Node) (x : Node) : Prop where
  vertex : x ∈ vertices
  discovered : x ∉ fresh
  unfinished : x ∉ finished

/-- How far the search of a graph has come. -/
structure Searching (vertices : List Node) (arcs : List Arc)
    (fresh stack finished : List Node) : Prop where
  fresh_nodup : fresh.Nodup
  known : ∀ x ∈ stack, x ∈ vertices
  waiting : ∀ x, Underway vertices fresh finished x → x ∈ stack
  reaches : ∀ x, Underway vertices fresh finished x →
    ∀ y ∈ above x stack, TransGen (Joined arcs) x y
  covers : ∀ x, Underway vertices fresh finished x →
    ∀ y, Joined arcs x y → y ∈ finished ∨ y ∈ above x stack
  done : ∀ x ∈ finished, ∀ y, Joined arcs x y → [x, y].Sublist finished

/-- At the start nothing has been found. -/
theorem searching_start (h : vertices.Nodup) :
    Searching vertices arcs vertices vertices [] where
  fresh_nodup := h
  known := fun _ hx => hx
  waiting := fun _ hx => absurd hx.vertex hx.discovered
  reaches := fun _ hx => absurd hx.vertex hx.discovered
  covers := fun _ hx => absurd hx.vertex hx.discovered
  done := fun _ hx => absurd hx List.not_mem_nil

namespace Searching

/-- A vertex that is underway is not below its own successors. -/
theorem not_joined (h : Searching vertices arcs fresh (u :: rest) finished)
    (hacyclic : Acyclic arcs) (hy : Underway vertices fresh finished y) :
    ¬Joined arcs u y := by
  intro hstep
  by_cases hne : y = u
  · subst hne
    exact hacyclic y (.single hstep)
  · have hu := h.reaches y hy u (mem_above_cons hne)
    exact hacyclic y (hu.tail hstep)

/-- A vertex is discovered: its undiscovered successors go on top of it. -/
theorem discover (h : Searching vertices arcs fresh (u :: rest) finished)
    (hacyclic : Acyclic arcs) (hends : ∀ x y, Joined arcs x y → y ∈ vertices)
    (hu : u ∈ fresh) :
    Searching vertices arcs (fresh.erase u)
      ((successors arcs u).filter (· ∈ fresh.erase u) ++ u :: rest)
        finished := by
  have hmem : ∀ y, y ∈ (successors arcs u).filter (· ∈ fresh.erase u)
      ↔ Joined arcs u y ∧ y ∈ fresh.erase u := by
    intro y
    rw [List.mem_filter, mem_successors, decide_eq_true_iff]
  have herase : u ∉ fresh.erase u := h.fresh_nodup.not_mem_erase
  -- what is underway after the discovery is `u`, or was underway before
  have hbefore : ∀ x, Underway vertices (fresh.erase u) finished x → x ≠ u →
      Underway vertices fresh finished x := by
    intro x hx hne
    refine ⟨hx.vertex, ?_, hx.unfinished⟩
    exact fun hfresh => hx.discovered ((List.mem_erase_of_ne hne).2 hfresh)
  have habove : ∀ x, Underway vertices (fresh.erase u) finished x →
      above x ((successors arcs u).filter (· ∈ fresh.erase u) ++ u :: rest)
        = (successors arcs u).filter (· ∈ fresh.erase u)
          ++ above x (u :: rest) := by
    intro x hx
    exact above_append fun hnext => hx.discovered ((hmem x).1 hnext).2
  refine ⟨h.fresh_nodup.erase u, ?_, ?_, ?_, ?_, h.done⟩
  · intro x hx
    rcases List.mem_append.1 hx with hx | hx
    · exact hends u x ((hmem x).1 hx).1
    · exact h.known x hx
  · intro x hx
    apply List.mem_append_right
    by_cases hne : x = u
    · rw [hne]
      exact List.mem_cons_self
    · exact h.waiting x (hbefore x hx hne)
  · intro x hx y hy
    rw [habove x hx] at hy
    by_cases hne : x = u
    · subst hne
      rw [above_self, List.append_nil] at hy
      exact .single ((hmem y).1 hy).1
    · have hold := h.reaches x (hbefore x hx hne)
      rcases List.mem_append.1 hy with hy | hy
      · exact (hold u (mem_above_cons hne)).tail ((hmem y).1 hy).1
      · exact hold y hy
  · intro x hx y hstep
    rw [habove x hx]
    by_cases hne : x = u
    · subst hne
      by_cases hy : y ∈ fresh.erase x
      · exact .inr (List.mem_append_left _ ((hmem y).2 ⟨hstep, hy⟩))
      · left
        by_contra hnot
        have hyx : y ≠ x := by
          intro heq
          subst heq
          exact hacyclic y (.single hstep)
        exact h.not_joined hacyclic (hbefore y ⟨hends x y hstep, hy, hnot⟩ hyx)
          hstep
    · exact (h.covers x (hbefore x hx hne) y hstep).imp_right
        (List.mem_append_right _)

/-- A vertex leaves the stack and stays finished, or is finished now. -/
theorem leave {finished' : List Node}
    (h : Searching vertices arcs fresh (u :: rest) finished)
    (hsub : finished ⊆ finished') (hu : u ∈ finished')
    (hdone : ∀ x ∈ finished', ∀ y, Joined arcs x y → [x, y].Sublist finished') :
    Searching vertices arcs fresh rest finished' := by
  have hbefore : ∀ x, Underway vertices fresh finished' x →
      x ≠ u ∧ Underway vertices fresh finished x := by
    intro x hx
    refine ⟨?_, hx.vertex, hx.discovered, fun hf => hx.unfinished (hsub hf)⟩
    intro heq
    exact hx.unfinished (heq ▸ hu)
  refine ⟨h.fresh_nodup, fun x hx => h.known x (List.mem_cons_of_mem u hx), ?_,
    ?_, ?_, hdone⟩
  · intro x hx
    obtain ⟨hne, hold⟩ := hbefore x hx
    exact (List.mem_cons.1 (h.waiting x hold)).resolve_left hne
  · intro x hx y hy
    obtain ⟨hne, hold⟩ := hbefore x hx
    apply h.reaches x hold
    rw [above_cons hne]
    exact List.mem_cons_of_mem u hy
  · intro x hx y hstep
    obtain ⟨hne, hold⟩ := hbefore x hx
    have hcovered := h.covers x hold y hstep
    rw [above_cons hne, List.mem_cons] at hcovered
    rcases hcovered with hy | hy | hy
    · exact .inl (hsub hy)
    · exact .inl (hy ▸ hu)
    · exact .inr hy

/-- A vertex on top of the stack is finished after all its successors. -/
theorem finish (h : Searching vertices arcs fresh (u :: rest) finished)
    (hu : Underway vertices fresh finished u) :
    Searching vertices arcs fresh rest (u :: finished) := by
  refine h.leave (List.subset_cons_self u finished) List.mem_cons_self ?_
  intro x hx y hstep
  rcases List.mem_cons.1 hx with rfl | hx
  · have hy := h.covers x hu y hstep
    rw [above_self] at hy
    exact (List.singleton_sublist.2
      (hy.resolve_right List.not_mem_nil)).cons_cons x
  · exact (h.done x hx y hstep).cons u

/-- In the end every vertex stands before its successors. -/
theorem run (h : Searching vertices arcs fresh stack finished)
    (hacyclic : Acyclic arcs) (hends : ∀ x y, Joined arcs x y → y ∈ vertices) :
    ∀ x ∈ search arcs fresh stack finished, ∀ y, Joined arcs x y →
      [x, y].Sublist (search arcs fresh stack finished) := by
  fun_induction search arcs fresh stack finished with
  | case1 fresh finished => exact h.done
  | case2 fresh finished u rest hu fresh' next ih =>
      exact ih (h.discover hacyclic hends hu)
  | case3 fresh finished u rest hu hf ih =>
      exact ih (h.leave (List.Subset.refl finished) hf h.done)
  | case4 fresh finished u rest hu hf ih =>
      exact ih (h.finish ⟨h.known u List.mem_cons_self, hu, hf⟩)

end Searching

-- ===================================================== acyclic graphs

/-- In a list without doubles, what comes first has the lesser index. -/
theorem idxOf_lt_of_sublist {l : List Node} (hl : l.Nodup)
    (h : [x, y].Sublist l) :
    l.idxOf x < l.idxOf y := by
  induction l with
  | nil => cases h
  | cons z l ih =>
      have hz := (List.nodup_cons.1 hl).1
      cases h with
      | cons _ h =>
          have hx : z ≠ x := fun heq => hz (heq ▸ h.subset List.mem_cons_self)
          have hy : z ≠ y := fun heq => hz (heq ▸ h.subset (by simp))
          rw [List.idxOf_cons_ne _ hx, List.idxOf_cons_ne _ hy]
          exact Nat.succ_lt_succ (ih (List.nodup_cons.1 hl).2 h)
      | cons_cons _ h =>
          have hy : x ≠ y := fun heq => hz (heq ▸ List.singleton_sublist.1 h)
          rw [List.idxOf_cons_self, List.idxOf_cons_ne _ hy]
          exact Nat.succ_pos _

/-- The search orders every acyclic graph. -/
theorem forward_of_acyclic (hv : vertices.Nodup)
    (hends : ∀ a ∈ arcs, a.source ∈ vertices ∧ a.target ∈ vertices)
    (hacyclic : Acyclic arcs) :
    Forward arcs (search arcs vertices vertices []) := by
  have hperm : (search arcs vertices vertices []).Perm vertices :=
    search_perm hv
  have hstart : Searching vertices arcs vertices vertices [] :=
    searching_start hv
  have hrun := hstart.run hacyclic fun x y h => (hends ⟨x, y⟩ h).2
  intro a ha
  apply idxOf_lt_of_sublist (hperm.nodup_iff.2 hv)
  exact hrun a.source (hperm.mem_iff.2 (hends a ha).1) a.target ha

/-- There is a topological order exactly if there is no cycle. -/
theorem topological?_isSome_iff (hv : vertices.Nodup)
    (hends : ∀ a ∈ arcs, a.source ∈ vertices ∧ a.target ∈ vertices) :
    (topological? vertices arcs).isSome = true ↔ Acyclic arcs := by
  unfold topological?
  constructor
  · intro h
    by_cases hforward : allForward arcs (search arcs vertices vertices [])
      = true
    · exact acyclic_of_forward ((allForward_iff _).1 hforward)
    · rw [if_neg hforward] at h
      cases h
  · intro hacyclic
    rw [if_pos ((allForward_iff _).2 (forward_of_acyclic hv hends hacyclic))]
    rfl

end FlowPricing.Order
