/-
A description survives its JSON text: what is written for one is read back
as an equal description, whatever its identifier, vertices and edges are. So
a network built from the text is the network built from the description.
-/
import FlowPricing.Network.Basic
import FlowPricing.Network.DescriptionJson
import FlowPricing.Proofs.Json.Number
import FlowPricing.Proofs.Json.Record

namespace FlowPricing

open Json Schema

/-- A node is read back as it was written. -/
theorem Node.reads_json (n : Node) : Reads Node.schema.read n.json n :=
  reads_object
    (.field rfl rfl (reads_int32 n.careerGroup) <|
      .field rfl rfl (reads_int32 n.career) <|
      .field rfl rfl (reads_int32 n.rank) <|
      .field rfl rfl (reads_int32 n.timeSlice) <|
      .field rfl rfl (reads_int32 n.status) <|
      .field rfl rfl (reads_flag n.inTraining) <|
      .field rfl rfl (reads_int32 n.network) <| .done _) rfl

/-- So is a vertex. -/
theorem VertexRecord.reads_json (r : VertexRecord) :
    Reads VertexRecord.schema.read r.json r :=
  reads_object
    (.field rfl rfl (reads_int64 r.id) <| .field rfl rfl r.node.reads_json
      <| .done _) rfl

/-- So is an edge. -/
theorem EdgeRecord.reads_json (e : EdgeRecord) :
    Reads EdgeRecord.schema.read e.json e :=
  reads_object
    (.field rfl rfl (reads_int64 e.source)
      <| .field rfl rfl (reads_int64 e.target) <| .done _) rfl

namespace Description

/-- A whole description is read back as it was written. -/
theorem reads_json (d : Description) : Reads schema.read d.json d :=
  reads_object
    (.field rfl rfl (reads_string d.identifier) <|
      .field rfl rfl (reads_array_map VertexRecord.reads_json d.vertices) <|
      .field rfl rfl (reads_array_map EdgeRecord.reads_json d.edges)
        <| .done _) rfl

/-- The compact text of a description is read back as the description: with
any characters in its identifier, any numbers that fit their fields, and any
lists of vertices and edges. The network, or the reason why there is none, is
then the same. -/
theorem survives_json (d : Description) :
    ofJson d.json = .ok d
      ∧ (ofJson d.json).map Network.ofDescription
        = .ok (Network.ofDescription d) := by
  have hread : ofJson d.json = .ok d := document_eq_ok d.reads_json
  rw [hread]
  exact ⟨rfl, rfl⟩

end Description

end FlowPricing
