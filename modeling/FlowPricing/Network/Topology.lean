/-
The unchanging part of a network: its vertices and arcs, the topological
order of the vertices, and its two terminals.

`ofDescription` accepts a description exactly if it is well formed, and
otherwise names the first flaw met when the description is read from
front to back: the identifier, the vertices in order, a missing source,
a missing sink, the edges in order, and last a cycle.
-/
import FlowPricing.Network.Description
import FlowPricing.Network.Order

namespace FlowPricing

/-- The shape of a network. -/
structure Topology where
  group : Int32
  vertices : List Node
  /-- The arcs in the order of their edge records. -/
  arcs : List Arc
  /-- The vertices in topological order. -/
  order : List Node
  source : Node
  sink : Node
deriving DecidableEq, Repr, Inhabited

namespace Topology

/-- Checks the vertex records that are left against the ones before them. -/
def checkVertices (identifier : String) (earlier : List VertexRecord) :
    List VertexRecord → Except NetworkError Unit
  | [] => .ok ()
  | r :: rs =>
      if earlier.any (fun e => e.id == r.id || e.node == r.node) then
        .error (.duplicateVertex identifier r.id)
      else if r.node.isSource && earlier.any (·.node.isSource) then
        .error (.duplicateSource identifier r.id)
      else if r.node.isSink && earlier.any (·.node.isSink) then
        .error (.duplicateSink identifier r.id)
      else checkVertices identifier (r :: earlier) rs

/-- The vertex declared under an external number. -/
def nodeOf (d : Description) (id : Int64) : Except NetworkError Node :=
  match d.vertices.find? (·.id == id) with
  | some r => .ok r.node
  | none => .error (.unknownVertex d.identifier id)

/-- The arc of an edge record. Its source is looked up first. -/
def arcOf (d : Description) (e : EdgeRecord) : Except NetworkError Arc := do
  let source ← nodeOf d e.source
  let target ← nodeOf d e.target
  return { source, target }

/-- The arcs of the edge records that are left, none of them among the
ones before or twice among themselves. -/
def arcsOf (d : Description) (earlier : List Arc) :
    List EdgeRecord → Except NetworkError (List Arc)
  | [] => .ok []
  | e :: es => do
      let a ← arcOf d e
      if a ∈ earlier then
        .error (.duplicateArc d.identifier a)
      else
        let as ← arcsOf d (a :: earlier) es
        return a :: as

/-- The first vertex that matches a terminal pattern. -/
def terminal (d : Description) (pattern : Node → Bool)
    (missing : NetworkError) :
    Except NetworkError Node :=
  match d.vertices.find? (pattern ·.node) with
  | some r => .ok r.node
  | none => .error missing

/-- The topology a description declares. -/
def ofDescription (d : Description) : Except NetworkError Topology := do
  let group ← groupOfIdentifier d.identifier
  checkVertices d.identifier [] d.vertices
  let source ← terminal d Node.isSource (.missingSource d.identifier)
  let sink ← terminal d Node.isSink (.missingSink d.identifier)
  let arcs ← arcsOf d [] d.edges
  let vertices := d.vertices.map VertexRecord.node
  match Order.topological? vertices arcs with
  | some order => return { group, vertices, arcs, order, source, sink }
  | none => .error (.cycle d.identifier)

end Topology

end FlowPricing
