/-
A pricing subproblem: a topology, a weight for each of its arcs, and the
shortest source-to-sink path once it has been asked for.

The cached path is only ever there while it is fresh: every change of a
weight drops it, so no query can return a path that the weights have
left behind. A failed change changes nothing.
-/
import FlowPricing.Network.Topology
import FlowPricing.Network.Labels

namespace FlowPricing

/-- A weighted network. -/
structure Network where
  topology : Topology
  /-- The weight of every arc, in the order of the arcs. -/
  weights : Table Arc Float
  /-- The shortest path under these weights, if it is known. -/
  cached : Option Path
deriving DecidableEq, Repr, Inhabited

namespace Network

/-- A network in which every arc weighs nothing. -/
def ofTopology (t : Topology) : Network :=
  { topology := t, weights := Table.fill t.arcs 0.0, cached := none }

/-- The network a description declares. -/
def ofDescription (d : Description) : Except NetworkError Network :=
  (Topology.ofDescription d).map ofTopology

/-- The group the network is known by. -/
def group (n : Network) : Int32 := n.topology.group

/-- Whether an arc belongs to the network. -/
def containsArc (n : Network) (a : Arc) : Bool := n.weights.contains a

-- ============================================================ weights

/-- The weight of an arc. -/
def weight (n : Network) (a : Arc) : Except NetworkError Float :=
  match n.weights.get? a with
  | some w => .ok w
  | none => .error (.unknownArc n.group a)

/-- Changes the weight of an arc. -/
def modifyWeight (n : Network) (a : Arc) (f : Float → Float) :
    Except NetworkError Network :=
  if n.containsArc a then
    .ok { n with weights := n.weights.modify a f, cached := none }
  else .error (.unknownArc n.group a)

/-- Replaces the weight of an arc. -/
def setWeight (n : Network) (a : Arc) (w : Float) :
    Except NetworkError Network :=
  n.modifyWeight a fun _ => w

/-- Adds to the weight of an arc. -/
def addWeight (n : Network) (a : Arc) (delta : Float) :
    Except NetworkError Network :=
  n.modifyWeight a (· + delta)

/-- Adds to the weights of several arcs, in the given order. All arcs are
looked up first: an unknown one leaves every weight as it was. -/
def addWeights (n : Network) (changes : List (Arc × Float)) :
    Except NetworkError Network :=
  match changes.find? fun c => !n.containsArc c.1 with
  | some c => .error (.unknownArc n.group c.1)
  | none =>
      let weights := changes.foldl (fun t c => t.modify c.1 (· + c.2)) n.weights
      .ok { n with weights, cached := none }

/-- Makes every arc weigh nothing again. -/
def resetWeights (n : Network) : Network :=
  { n with weights := n.weights.mapValues fun _ => 0.0, cached := none }

-- ============================================================ paths

/-- The labels of all vertices, as reached from `v`. -/
def labelsFrom (n : Network) (v : Node) : Labels :=
  Labels.reach n.weights n.topology.order v

/-- The shortest source-to-sink path, computed afresh. A length that is
infinite, of either sign, counts as no path. -/
def findPath (n : Network) : Except NetworkError Path :=
  let t := n.topology
  let labels := n.labelsFrom t.source
  let length := labels.distance t.sink
  if length.isInf then .ok (Path.unreachable t.group)
  else match labels.traceBack t.source t.vertices.length t.sink with
    | some arcs => .ok { arcs, length, group := t.group }
    | none => .error (.brokenPredecessorChain t.group)

/-- The shortest source-to-sink path, and the network that now knows it. -/
def shortestPath (n : Network) : Except NetworkError (Path × Network) :=
  match n.cached with
  | some p => .ok (p, n)
  | none => do
      let p ← n.findPath
      return (p, { n with cached := some p })

/-- The distance of every vertex from `v`, in the order of the nodes. -/
def distancesFrom (n : Network) (v : Node) :
    Except NetworkError (List (Node × Float)) :=
  if v ∈ n.topology.vertices then
    let labels := n.labelsFrom v
    let sorted := n.topology.vertices.mergeSort fun a b =>
      a.columns.le b.columns
    .ok (sorted.map fun u => (u, labels.distance u))
  else .error (.unknownNode n.group v)

end Network

end FlowPricing
