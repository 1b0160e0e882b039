/-
Network descriptions as they come in: vertices and edges under external
numbers, and an identifier, usually a file name, from which the number of
the network group is taken.
-/
import FlowPricing.Network.Error

namespace FlowPricing

/-- A vertex under its external number. -/
structure VertexRecord where
  id : Int64
  node : Node
deriving DecidableEq, Repr, Inhabited

/-- An edge between two external numbers. -/
structure EdgeRecord where
  source : Int64
  target : Int64
deriving DecidableEq, Repr, Inhabited

/-- All that a network is built from. -/
structure Description where
  identifier : String
  vertices : List VertexRecord
  edges : List EdgeRecord
deriving DecidableEq, Repr, Inhabited

/-- The digits right after the last underscore of an identifier, or at its
start if it has none. -/
def groupDigits (identifier : String) : List Char :=
  let tail := (identifier.toList.reverse.takeWhile (· ≠ '_')).reverse
  tail.takeWhile Char.isDigit

/-- The network group an identifier such as `graphs/graph_26.xml` names. -/
def groupOfIdentifier (identifier : String) : Except NetworkError Int32 :=
  match Numeral.read? (groupDigits identifier) with
  | some n =>
      if n ≤ 2147483647 then .ok (Int32.ofNat n)
      else .error (.malformedIdentifier identifier)
  | none => .error (.malformedIdentifier identifier)

end FlowPricing
