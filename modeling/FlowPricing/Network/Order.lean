/-
The topological order of a directed graph, found by a depth-first search
with an explicit stack. The search is deterministic, and which of several
orders it finds matters: it decides which of several equally short paths
a query returns.

A vertex met for the first time stays on the stack and its undiscovered
successors go on top of it, the one over the oldest arc uppermost; met
again, it leaves the stack and is finished. The order is that of
finishing, last first. All vertices wait on the stack from the start, in
the order of their entry.

The search finds a candidate for every graph. It is a topological order
exactly if every arc goes forward in it, which no order of a cyclic graph
does, so the candidate is checked against the arcs.
-/
import FlowPricing.Network.Arc

namespace FlowPricing.Order

/-- The vertices an arc leads to from `u`, over the oldest arc first. -/
def successors (arcs : List Arc) (u : Node) : List Node :=
  (arcs.filter (·.source = u)).map Arc.target

/-- No vertex has more successors than there are arcs. -/
theorem length_successors_le (arcs : List Arc) (u : Node) :
    (successors arcs u).length ≤ arcs.length := by
  rw [successors, List.length_map]
  exact List.length_filter_le ..

/-- The search: `fresh` are the vertices not yet discovered, `finished`
the finished ones, last first. A discovery costs one fresh vertex and puts
at most as many entries on the stack as there are arcs; every other step
takes an entry off the stack. -/
def search (arcs : List Arc) (fresh stack finished : List Node) : List Node :=
  match stack with
  | [] => finished
  | u :: rest =>
      if u ∈ fresh then
        let fresh' := fresh.erase u
        let next := (successors arcs u).filter (· ∈ fresh')
        search arcs fresh' (next ++ u :: rest) finished
      else if u ∈ finished then search arcs fresh rest finished
      else search arcs fresh rest (u :: finished)
termination_by fresh.length * (arcs.length + 1) + stack.length
decreasing_by
  · have hnext : ((successors arcs u).filter (· ∈ fresh.erase u)).length
        ≤ arcs.length :=
      Nat.le_trans (List.length_filter_le ..) (length_successors_le ..)
    obtain ⟨n, hn⟩ : ∃ n, fresh.length = n + 1 :=
      ⟨fresh.length - 1, by have := List.length_pos_of_mem ‹u ∈ fresh›; omega⟩
    simp only [List.length_erase_of_mem ‹u ∈ fresh›, hn, List.length_append,
      List.length_cons, Nat.add_sub_cancel, Nat.succ_mul]
    omega
  · simp only [List.length_cons]; omega
  · simp only [List.length_cons]; omega

/-- Whether every arc leads from an earlier vertex to a later one. -/
def allForward (arcs : List Arc) (order : List Node) : Bool :=
  arcs.all fun a => order.idxOf a.source < order.idxOf a.target

/-- The topological order of a graph; `none` if it has a cycle. -/
def topological? (vertices : List Node) (arcs : List Arc) :
    Option (List Node) :=
  let order := search arcs vertices vertices []
  if allForward arcs order then some order else none

end FlowPricing.Order
