/-
Source-to-sink paths of a network, as a shortest-path query returns
them.
-/
import FlowPricing.Network.Arc
import FlowPricing.Weight

namespace FlowPricing

/-- A path of one network, with its length. The arcs run backwards: the
arc into the sink comes first and the arc out of the source last. -/
structure Path where
  arcs : List Arc
  length : Float
  group : Int32
deriving DecidableEq, Repr, Inhabited

namespace Path

/-- What a query returns where the sink cannot be reached. -/
def unreachable (group : Int32) : Path :=
  ⟨[], Weight.infinity, group⟩

/-- Whether the path leads anywhere. -/
def isReachable (p : Path) : Bool := p.length.isFinite

/-- Whether the path is shorter than zero by more than the tolerance, and
so is worth a column. -/
def isImproving (p : Path) (tolerance : Float) : Bool :=
  p.length < -tolerance

end Path

end FlowPricing
