/-
The vertices of an acyclic graph in an order in which every edge goes forward,
found by depth-first searches with an explicit stack. A graph with a cycle
anywhere has no order.

A vertex on top of the stack is discovered when it is met for the first time. It
stays there, and its undiscovered successors are put on the stack one after
another, the newest edge first. Met again, it leaves the stack; the first time
that happens it is finished. A successor may be put on the stack many times
before it is discovered.

The searches start from the vertices in turn, as far as they have not been
discovered by then, and the order is that of finishing, last first. Nothing of
this looks at the order that comes out: that its edges go forward is a fact
about the search.
-/
import FlowPricing.Network.Graph.Basic

namespace FlowPricing.Graph

/-- Puts the undiscovered ones of some vertices on the stack, one after
another. -/
def push (fresh next stack : List Nat) : List Nat :=
  next.foldl (fun stack v => if v ∈ fresh then v :: stack else stack) stack

/-- What is put on the stack comes to lie the other way round. -/
theorem push_eq (fresh next stack : List Nat) :
    push fresh next stack = (next.reverse.filter (· ∈ fresh)) ++ stack := by
  induction next generalizing stack with
  | nil => rfl
  | cons v next ih =>
      unfold push at ih ⊢
      rw [List.foldl_cons, ih, List.reverse_cons, List.filter_append]
      by_cases hv : v ∈ fresh <;> simp [hv]

theorem length_successors_le (g : Graph) (u : Nat) :
    (g.successors u).length ≤ g.edgeCount := by
  unfold successors outgoing edgeCount
  simp only [List.length_map, List.length_reverse]
  exact (List.length_filter_le ..).trans_eq List.length_zipIdx

theorem length_push_le (g : Graph) (u : Nat) (fresh stack : List Nat) :
    (push fresh (g.successors u) stack).length
      ≤ g.edgeCount + stack.length := by
  rw [push_eq, List.length_append]
  apply Nat.add_le_add_right
  refine (List.length_filter_le ..).trans ?_
  rw [List.length_reverse]
  exact length_successors_le g u

/-- Works off the stack: `fresh` are the vertices not yet discovered,
`finished` the finished ones, last first. A discovery costs one fresh vertex
and puts at most as many entries on the stack as there are edges; every other
step takes an entry off the stack. -/
def explore (g : Graph) (fresh stack finished : List Nat) :
    List Nat × List Nat :=
  match stack with
  | [] => (fresh, finished)
  | u :: rest =>
      if u ∈ fresh then
        let fresh' := fresh.erase u
        explore g fresh' (push fresh' (g.successors u) (u :: rest)) finished
      else if u ∈ finished then explore g fresh rest finished
      else explore g fresh rest (u :: finished)
termination_by fresh.length * (g.edgeCount + 1) + stack.length
decreasing_by
  · have hpush := length_push_le g u (fresh.erase u) (u :: rest)
    obtain ⟨n, hn⟩ : ∃ n, fresh.length = n + 1 :=
      ⟨fresh.length - 1, by have := List.length_pos_of_mem ‹u ∈ fresh›; omega⟩
    simp only [List.length_erase_of_mem ‹u ∈ fresh›, hn, List.length_cons,
      Nat.add_sub_cancel, Nat.succ_mul] at hpush ⊢
    omega
  · simp only [List.length_cons]; omega
  · simp only [List.length_cons]; omega

/-- Searches from a vertex that was not discovered before. -/
def visit (g : Graph) (s : List Nat × List Nat) (v : Nat) :
    List Nat × List Nat :=
  if v ∈ s.1 then g.explore s.1 [v] s.2 else s

/-- The vertices as the searches from all of them finish them, last first. -/
def finishOrder (g : Graph) : List Nat :=
  ((List.range g.vertexCount).foldl g.visit (List.range g.vertexCount, [])).2

/-- The topological order of an acyclic graph. -/
def toposort? (g : Graph) : Option (List Nat) :=
  if Acyclic g.edges then some g.finishOrder else none

end FlowPricing.Graph
