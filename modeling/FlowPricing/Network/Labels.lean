/-
Distances from one vertex over the arcs of an acyclic network.

Every vertex reached so far carries a label: the least length found and
the arc it was found over. The vertices are expanded in topological
order, so a label is final when its vertex is expanded, whatever the
signs of the weights. Only a strictly smaller length replaces a label:
of several equally short ways the first one found is kept.
-/
import FlowPricing.Table
import FlowPricing.Network.Path

namespace FlowPricing

/-- What is known of a reached vertex. -/
structure Label where
  distance : Float
  /-- The arc over which the vertex was reached; none at the start. -/
  via : Option Arc
deriving DecidableEq, Repr, Inhabited

/-- The labels of the vertices reached so far. -/
abbrev Labels := Table Node Label

namespace Labels

/-- The least length known for a vertex; infinity if it was not reached. -/
def distance (labels : Labels) (v : Node) : Float :=
  match labels.get? v with
  | some l => l.distance
  | none => Weight.infinity

/-- The arc over which a vertex was reached. -/
def via (labels : Labels) (v : Node) : Option Arc :=
  (labels.get? v).bind Label.via

/-- Only the start is reached, at no cost. -/
def start (v : Node) : Labels := Table.empty.insert v ⟨0.0, none⟩

/-- Follows one weighted arc out of a vertex at distance `base`. -/
def relax (base : Float) (labels : Labels) (e : Arc × Float) : Labels :=
  let candidate := base + e.2
  if candidate < labels.distance e.1.target then
    labels.insert e.1.target ⟨candidate, some e.1⟩
  else labels

/-- The weighted arcs out of a vertex. -/
def outgoing (weights : Table Arc Float) (u : Node) : List (Arc × Float) :=
  weights.entries.filter (·.1.source = u)

/-- Follows all arcs out of a vertex; none if its distance is infinite, of
either sign. -/
def expand (weights : Table Arc Float) (labels : Labels) (u : Node) : Labels :=
  let base := labels.distance u
  if base.isInf then labels
  else (outgoing weights u).foldl (relax base) labels

/-- The final labels for all ways out of `v`. -/
def reach (weights : Table Arc Float) (order : List Node) (v : Node) : Labels :=
  order.foldl (expand weights) (start v)

/-- The arcs from `v` back to `source`, if at most `bound` of them lead
there. -/
def traceBack (labels : Labels) (source : Node) : Nat → Node → Option (List Arc)
  | 0, v => if v = source then some [] else none
  | bound + 1, v =>
      if v = source then some []
      else match labels.via v with
        | some a => (traceBack labels source bound a.source).map (a :: ·)
        | none => none

end Labels

end FlowPricing
