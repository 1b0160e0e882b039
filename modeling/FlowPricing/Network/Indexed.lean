/-
Networks kept by number. The vertices and edges of a description become those
of a graph, in the order of their records; two maps lead back, from the node
of a vertex and from the arc of an edge to its number, and the weights stand
in a list beside the edges. Paths are searched for among the numbers, and only
what is answered speaks of nodes and arcs.

What is declared is read record by record, and everything that was read is
looked up by number from then on. A record is refused if a map already has an
entry for it.
-/
import FlowPricing.Network.Basic
import FlowPricing.Network.Graph.Sorting

namespace FlowPricing

/-- A weighted network whose vertices and edges are numbers. -/
structure IndexedNetwork where
  group : Int32
  graph : Graph
  /-- The vertices in topological order. -/
  order : List Nat
  source : Nat
  sink : Nat
  vertexOfNode : Table Node Nat
  arcToEdge : Table Arc Nat
  /-- The weights of the edges, by number. -/
  weights : List Float
  /-- The shortest path under these weights, if it is known. -/
  cached : Option Path
deriving DecidableEq, Repr, Inhabited

namespace IndexedNetwork

-- ======================================================== descriptions

/-- What was read of the vertex records. -/
structure Vertices where
  graph : Graph
  byId : Table Int64 Nat
  ofNode : Table Node Nat
  source : Option Nat
  sink : Option Nat

/-- What was read of the edge records. -/
structure Edges where
  graph : Graph
  ofArc : Table Arc Nat

/-- Adds a vertex for a record, unless its number or its node is known, or it
is a second source or sink. -/
def readVertex (identifier : String) (vs : Vertices) (r : VertexRecord) :
    Except NetworkError Vertices :=
  let v := vs.graph.vertexCount
  if vs.byId.contains r.id || vs.ofNode.contains r.node then
    .error (.duplicateVertex identifier r.id)
  else if r.node.isSource && vs.source.isSome then
    .error (.duplicateSource identifier r.id)
  else if r.node.isSink && vs.sink.isSome then
    .error (.duplicateSink identifier r.id)
  else .ok {
    graph := vs.graph.addVertex r.node
    byId := vs.byId.insert r.id v
    ofNode := vs.ofNode.insert r.node v
    source := if r.node.isSource then some v else vs.source
    sink := if r.node.isSink then some v else vs.sink }

/-- The vertex declared under an external number. -/
def lookup (identifier : String) (byId : Table Int64 Nat) (id : Int64) :
    Except NetworkError Nat :=
  match byId.get? id with
  | some v => .ok v
  | none => .error (.unknownVertex identifier id)

/-- Adds an edge for a record, unless an edge with the same arc is known. The
source of the record is looked up first. -/
def readEdge (identifier : String) (byId : Table Int64 Nat) (es : Edges)
    (r : EdgeRecord) :
    Except NetworkError Edges := do
  let u ← lookup identifier byId r.source
  let v ← lookup identifier byId r.target
  let a := es.graph.arcAt (u, v)
  if es.ofArc.contains a then
    .error (.duplicateArc identifier a)
  else
    return {
      graph := es.graph.addEdge u v,
      ofArc := es.ofArc.insert a es.graph.edgeCount }

/-- A terminal that has to be there. -/
def required (missing : NetworkError) : Option Nat → Except NetworkError Nat
  | some v => .ok v
  | none => .error missing

/-- The network a description declares, in which every edge weighs nothing. -/
def ofDescription (d : Description) : Except NetworkError IndexedNetwork := do
  let group ← groupOfIdentifier d.identifier
  let vs ← d.vertices.foldlM (readVertex d.identifier)
    ⟨.empty, .empty, .empty, none, none⟩
  let source ← required (.missingSource d.identifier) vs.source
  let sink ← required (.missingSink d.identifier) vs.sink
  let es ← d.edges.foldlM (readEdge d.identifier vs.byId) ⟨vs.graph, .empty⟩
  match es.graph.toposort? with
  | some order => return {
      group, graph := es.graph, order, source, sink, vertexOfNode := vs.ofNode
      arcToEdge := es.ofArc, weights := List.replicate es.graph.edgeCount 0.0,
      cached := none }
  | none => .error (.cycle d.identifier)

-- ============================================================= weights

/-- The edge of an arc. -/
def edgeOf (x : IndexedNetwork) (a : Arc) : Except NetworkError Nat :=
  match x.arcToEdge.get? a with
  | some e => .ok e
  | none => .error (.unknownArc x.group a)

/-- The weight of an edge. Only edges of the graph are ever asked for. -/
def weightAt (x : IndexedNetwork) (e : Nat) : Float := x.weights.getD e 0.0

/-- The weight of an arc. -/
def weight (x : IndexedNetwork) (a : Arc) : Except NetworkError Float := do
  let e ← x.edgeOf a
  return x.weightAt e

/-- Replaces the weight of an arc. -/
def setWeight (x : IndexedNetwork) (a : Arc) (w : Float) :
    Except NetworkError IndexedNetwork := do
  let e ← x.edgeOf a
  return { x with weights := x.weights.set e w, cached := none }

/-- Adds to the weight of an arc. -/
def addWeight (x : IndexedNetwork) (a : Arc) (delta : Float) :
    Except NetworkError IndexedNetwork := do
  let e ← x.edgeOf a
  return { x with weights := x.weights.modify e (· + delta), cached := none }

/-- The edge of an arc, with what is to be added to its weight. -/
def resolve (x : IndexedNetwork) (change : Arc × Float) :
    Except NetworkError (Nat × Float) := do
  let e ← x.edgeOf change.1
  return (e, change.2)

/-- Adds to the weights of several arcs, in the given order. All edges are
looked up first: an unknown arc leaves every weight as it was. -/
def addWeights (x : IndexedNetwork) (changes : List (Arc × Float)) :
    Except NetworkError IndexedNetwork := do
  let edges ← changes.mapM x.resolve
  let weights := edges.foldl (fun ws c => ws.modify c.1 (· + c.2)) x.weights
  return { x with weights, cached := none }

/-- Makes every edge weigh nothing again. -/
def resetWeights (x : IndexedNetwork) : IndexedNetwork :=
  { x with weights := x.weights.map fun _ => 0.0, cached := none }

-- =============================================================== paths

/-- The distances of the vertices, by number, and the edges they were reached
over. -/
structure Marks where
  distances : List Float
  predecessors : List (Option Nat)

namespace Marks

/-- The least length known for a vertex. -/
def distance (m : Marks) (v : Nat) : Float := m.distances.getD v Weight.infinity

/-- The edge over which a vertex was reached. -/
def predecessor (m : Marks) (v : Nat) : Option Nat := m.predecessors.getD v none

/-- Only the start of `count` vertices is reached, at no cost. -/
def start (count v : Nat) : Marks where
  distances := (List.replicate count Weight.infinity).set v 0.0
  predecessors := List.replicate count none

end Marks

/-- Follows an edge to the vertex it leads to, from one at distance `base`. -/
def relax (x : IndexedNetwork) (base : Float) (m : Marks) (e : Nat × Nat) :
    Marks :=
  let candidate := base + x.weightAt e.1
  if candidate < m.distance e.2 then
    { distances := m.distances.set e.2 candidate
      predecessors := m.predecessors.set e.2 (some e.1) }
  else m

/-- Follows all edges out of a vertex; none if its distance is infinite, of
either sign. -/
def expand (x : IndexedNetwork) (m : Marks) (u : Nat) : Marks :=
  let base := m.distance u
  if base.isInf then m else (x.graph.outgoing u).foldl (x.relax base) m

/-- The final marks for all ways out of `v`. -/
def relaxFrom (x : IndexedNetwork) (v : Nat) : Marks :=
  x.order.foldl x.expand (.start x.graph.vertexCount v)

/-- The arcs from `v` back to the source, if at most `bound` edges lead there.
-/
def walkBack (x : IndexedNetwork) (m : Marks) :
    Nat → Nat → Except NetworkError (List Arc)
  | 0, v =>
      if v = x.source then .ok [] else .error (.brokenPredecessorChain x.group)
  | bound + 1, v =>
      if v = x.source then .ok []
      else match m.predecessor v with
        | none => .error (.brokenPredecessorChain x.group)
        | some e => match x.graph.edges[e]? with
          | none => .error (.brokenPredecessorChain x.group)
          | some (u, w) =>
              (x.walkBack m bound u).map (x.graph.arcAt (u, w) :: ·)

/-- The shortest source-to-sink path, computed afresh. -/
def findPath (x : IndexedNetwork) : Except NetworkError Path := do
  let m := x.relaxFrom x.source
  let length := m.distance x.sink
  if length.isInf then return Path.unreachable x.group
  else
    let arcs ← x.walkBack m x.graph.vertexCount x.sink
    return { arcs, length, group := x.group }

/-- The shortest source-to-sink path, and the network that now knows it. -/
def shortestPath (x : IndexedNetwork) :
    Except NetworkError (Path × IndexedNetwork) :=
  match x.cached with
  | some p => .ok (p, x)
  | none => do
      let p ← x.findPath
      return (p, { x with cached := some p })

/-- The distance of every vertex from a node, in the order of the nodes. -/
def distancesFrom (x : IndexedNetwork) (v : Node) :
    Except NetworkError (List (Node × Float)) :=
  match x.vertexOfNode.get? v with
  | some start =>
      let m := x.relaxFrom start
      let distances := (List.range x.graph.vertexCount).map fun u =>
        (x.graph.label u, m.distance u)
      .ok (distances.mergeSort fun p q => p.1.columns.le q.1.columns)
  | none => .error (.unknownNode x.group v)

end IndexedNetwork

end FlowPricing
