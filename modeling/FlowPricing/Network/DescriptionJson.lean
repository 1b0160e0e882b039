/-
The JSON form of network descriptions: what is accepted, and the compact
text that is written. Nodes, vertex records and edge records need all
their fields; a description may leave out its identifier. Unknown members
are passed over.
-/
import FlowPricing.Network.Description
import FlowPricing.Json.Record
import FlowPricing.Json.Writer

namespace FlowPricing

open Json

-- ============================================================ nodes

/-- A node of which some attributes are known. -/
structure Node.Draft where
  careerGroup : Option Int32 := none
  career : Option Int32 := none
  rank : Option Int32 := none
  timeSlice : Option Int32 := none
  status : Option Int32 := none
  inTraining : Option Bool := none
  network : Option Int32 := none

/-- How nodes are read. -/
def Node.schema : Schema Node.Draft Node where
  fields := [
    .of "career_group" (·.careerGroup)
      (fun d x => { d with careerGroup := some x }) int32,
    .of "career" (·.career) (fun d x => { d with career := some x }) int32,
    .of "rank" (·.rank) (fun d x => { d with rank := some x }) int32,
    .of "time_slice" (·.timeSlice)
      (fun d x => { d with timeSlice := some x }) int32,
    .of "status" (·.status) (fun d x => { d with status := some x }) int32,
    .of "in_training" (·.inTraining)
      (fun d x => { d with inTraining := some x }) flag,
    .of "network" (·.network) (fun d x => { d with network := some x }) int32]
  isOpen := true
  empty := {}
  finish d := do
    let careerGroup ← d.careerGroup
    let career ← d.career
    let rank ← d.rank
    let timeSlice ← d.timeSlice
    let status ← d.status
    let inTraining ← d.inTraining
    let network ← d.network
    return { careerGroup, career, rank, timeSlice, status, inTraining, network }

/-- The written node. -/
def Node.json (n : Node) : Bytes := Writer.object [
  ("career_group", Writer.integer n.careerGroup.toInt),
  ("career", Writer.integer n.career.toInt),
  ("rank", Writer.integer n.rank.toInt),
  ("time_slice", Writer.integer n.timeSlice.toInt),
  ("status", Writer.integer n.status.toInt),
  ("in_training", Writer.flag n.inTraining),
  ("network", Writer.integer n.network.toInt)]

-- ============================================================ records

/-- A vertex record of which some fields are known. -/
structure VertexRecord.Draft where
  id : Option Int64 := none
  node : Option Node := none

/-- How vertex records are read. -/
def VertexRecord.schema : Schema VertexRecord.Draft VertexRecord where
  fields := [
    .of "id" (·.id) (fun d x => { d with id := some x }) int64,
    .of "node" (·.node) (fun d x => { d with node := some x }) Node.schema.read]
  isOpen := true
  empty := {}
  finish d := do
    let id ← d.id
    let node ← d.node
    return { id, node }

/-- The written vertex record. -/
def VertexRecord.json (r : VertexRecord) : Bytes := Writer.object [
  ("id", Writer.integer r.id.toInt), ("node", r.node.json)]

/-- An edge record of which some fields are known. -/
structure EdgeRecord.Draft where
  source : Option Int64 := none
  target : Option Int64 := none

/-- How edge records are read. -/
def EdgeRecord.schema : Schema EdgeRecord.Draft EdgeRecord where
  fields := [
    .of "source" (·.source) (fun d x => { d with source := some x }) int64,
    .of "target" (·.target) (fun d x => { d with target := some x }) int64]
  isOpen := true
  empty := {}
  finish d := do
    let source ← d.source
    let target ← d.target
    return { source, target }

/-- The written edge record. -/
def EdgeRecord.json (e : EdgeRecord) : Bytes := Writer.object [
  ("source", Writer.integer e.source.toInt),
  ("target", Writer.integer e.target.toInt)]

-- ============================================================ descriptions

/-- A description of which some fields are known. -/
structure Description.Draft where
  identifier : Option String := none
  vertices : Option (List VertexRecord) := none
  edges : Option (List EdgeRecord) := none

/-- How descriptions are read. -/
def Description.schema : Schema Description.Draft Description where
  fields := [
    .of "identifier" (·.identifier)
      (fun d x => { d with identifier := some x }) string,
    .of "vertices" (·.vertices) (fun d x => { d with vertices := some x })
      (list VertexRecord.schema.read),
    .of "edges" (·.edges) (fun d x => { d with edges := some x })
      (list EdgeRecord.schema.read)]
  isOpen := true
  empty := {}
  finish d := do
    let vertices ← d.vertices
    let edges ← d.edges
    return { identifier := d.identifier.getD "", vertices, edges }

/-- The description a JSON text holds. -/
def Description.ofJson (text : Bytes) : Except Fault Description :=
  document Description.schema.read text

/-- The compact JSON text of a description. -/
def Description.json (d : Description) : Bytes := Writer.object [
  ("identifier", Writer.string d.identifier),
  ("vertices", Writer.array (d.vertices.map VertexRecord.json)),
  ("edges", Writer.array (d.edges.map EdgeRecord.json))]

end FlowPricing
