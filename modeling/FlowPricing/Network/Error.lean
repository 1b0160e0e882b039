/-
What can go wrong with a network: while it is built from a description,
and when it is asked about an arc or a node it does not have.
-/
import FlowPricing.Network.Arc

namespace FlowPricing

/-- A failed construction or query. -/
inductive NetworkError where
  | malformedIdentifier (identifier : String)
  | duplicateVertex (identifier : String) (id : Int64)
  | missingSource (identifier : String)
  | missingSink (identifier : String)
  | duplicateSource (identifier : String) (id : Int64)
  | duplicateSink (identifier : String) (id : Int64)
  | unknownVertex (identifier : String) (id : Int64)
  | duplicateArc (identifier : String) (arc : Arc)
  | cycle (identifier : String)
  | unknownArc (group : Int32) (arc : Arc)
  | unknownNode (group : Int32) (node : Node)
  | brokenPredecessorChain (group : Int32)
deriving DecidableEq, Repr

namespace NetworkError

/-- The number of a group as it is written. -/
def groupText (group : Int32) : String :=
  String.ofList (Numeral.ofInt group.toInt)

/-- The external number of a vertex as it is written. -/
def idText (id : Int64) : String := String.ofList (Numeral.ofInt id.toInt)

/-- The error in words. -/
def message : NetworkError → String
  | malformedIdentifier identifier =>
      s!"Cannot derive a network group from identifier '{identifier}'"
  | duplicateVertex identifier id =>
      s!"Network '{identifier}' declares vertex id {idText id} more than once"
  | missingSource identifier => s!"Network '{identifier}' has no source vertex"
  | missingSink identifier => s!"Network '{identifier}' has no sink vertex"
  | duplicateSource identifier id =>
      s!"Network '{identifier}' contains more than one source vertex "
        ++ s!"(vertex id {idText id})"
  | duplicateSink identifier id =>
      s!"Network '{identifier}' contains more than one sink vertex "
        ++ s!"(vertex id {idText id})"
  | unknownVertex identifier id =>
      s!"Network '{identifier}' has an edge referencing undeclared vertex id "
        ++ idText id
  | duplicateArc identifier arc =>
      s!"Network '{identifier}' contains arc {arc.text} more than once"
  | cycle identifier => s!"Network '{identifier}' is not acyclic"
  | unknownArc group arc =>
      s!"Arc {arc.text} has no edge in network group {groupText group}"
  | unknownNode group node =>
      s!"Node {node.text} is not a vertex of network group {groupText group}"
  | brokenPredecessorChain group =>
      s!"Predecessor chain of network group {groupText group} "
        ++ "does not lead back to the source"

end NetworkError

end FlowPricing
