/-
The master constraints that matter to pricing. Each comes twice: once
with all the arcs it held, to push its price onto their weights, and once
in the entries of every arc, to give columns their coefficients.
-/
import FlowPricing.Network.Arc
import FlowPricing.Master.Handle

namespace FlowPricing

/-- A constraint with the arcs whose variables it held. -/
structure Constraint where
  handle : ConstraintId
  arcs : List (Arc × Float)
deriving DecidableEq, Repr, Inhabited

/-- A constraint in which an arc's variable appeared, and how often. -/
structure IndexEntry where
  handle : ConstraintId
  coefficient : Float
deriving DecidableEq, Repr, Inhabited

end FlowPricing
