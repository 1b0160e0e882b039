/-
What the numbers of a network stand for. A network of numbers is sound
(`IndexedNetwork.Sound`) if its maps lead from the nodes of its vertices and
the arcs of its edges to their numbers and to nothing else, its order is one
of its graph, there is one weight for every edge, and its terminals are the
vertices that match the patterns. Read by its labels, it is a network of nodes
and arcs (`IndexedNetwork.view`).

Building both from a description comes to the same (`matches_ofDescription`):
record by record, what was read by number is what was read by node
(`Vertices.Read`, `Edges.Read`), and a record is refused by both with the same
error or by neither.
-/
import FlowPricing.Network.Indexed
import FlowPricing.Proofs.Network.Graph

namespace FlowPricing

namespace IndexedNetwork

open FlowPricing.Action (Matches)

-- ======================================================== the invariant

/-- A network of numbers as it is built and as its operations keep it. -/
structure Sound (x : IndexedNetwork) : Prop where
  graph : x.graph.WellFormed
  arcs_nodup : x.graph.arcs.Nodup
  order_perm : x.order.Perm (List.range x.graph.vertexCount)
  forward : ∀ e ∈ x.graph.edges, x.order.idxOf e.1 < x.order.idxOf e.2
  vertexOfNode : x.vertexOfNode.Numbers x.graph.labels
  arcToEdge : x.arcToEdge.Numbers x.graph.arcs
  weights : x.weights.length = x.graph.edgeCount
  source_lt : x.source < x.graph.vertexCount
  sink_lt : x.sink < x.graph.vertexCount

/-- The network of nodes and arcs that the numbers stand for. -/
def view (x : IndexedNetwork) : Network where
  topology := {
    group := x.group
    vertices := x.graph.labels
    arcs := x.graph.arcs
    order := x.order.map x.graph.label
    source := x.graph.label x.source
    sink := x.graph.label x.sink }
  weights := ⟨x.graph.arcs.zip x.weights⟩
  cached := x.cached

-- ======================================================= vertex records

/-- What was read of some vertex records. -/
structure Vertices.Read (rs : List VertexRecord) (vs : Vertices) : Prop where
  labels : vs.graph.labels = rs.map VertexRecord.node
  edges : vs.graph.edges = []
  byId : vs.byId.Numbers (rs.map VertexRecord.id)
  ofNode : vs.ofNode.Numbers (rs.map VertexRecord.node)
  source : vs.source = (rs.map VertexRecord.node).findIdx? Node.isSource
  sink : vs.sink = (rs.map VertexRecord.node).findIdx? Node.isSink

variable {identifier : String} {earlier : List VertexRecord} {vs : Vertices}
  {d : Description}

/-- A pattern is found among the nodes if some record has it. -/
theorem isSome_findIdx?_node (pattern : Node → Bool) (rs : List VertexRecord) :
    ((rs.map VertexRecord.node).findIdx? pattern).isSome
      = rs.reverse.any (pattern ·.node) := by
  rw [List.findIdx?_isSome, List.any_map, List.any_reverse]
  rfl

/-- The first match among one more node, where there is no second one. -/
theorem findIdx?_concat {pattern : Node → Bool} {nodes : List Node} {v : Node}
    (h : (pattern v && (nodes.findIdx? pattern).isSome) = false) :
    (nodes ++ [v]).findIdx? pattern
      = if pattern v then some nodes.length else nodes.findIdx? pattern := by
  rw [List.findIdx?_append]
  cases hv : pattern v with
  | false => simp [hv]
  | true =>
      rw [hv, Bool.true_and, Option.isSome_eq_false_iff,
        Option.isNone_iff_eq_none] at h
      simp [h, hv]

/-- There is one vertex for each record. -/
theorem Vertices.Read.vertexCount (h : vs.Read earlier) :
    vs.graph.vertexCount = earlier.length := by
  unfold Graph.vertexCount
  rw [h.labels, List.length_map]

/-- One vertex record. -/
theorem matches_readVertex (identifier : String) (h : vs.Read earlier)
    (r : VertexRecord) (rs : List VertexRecord) :
    ∃ y : Except NetworkError Unit,
      Topology.checkVertices identifier earlier.reverse (r :: rs)
        = (y >>= fun _ =>
          Topology.checkVertices identifier (earlier ++ [r]).reverse rs)
      ∧ Matches (fun vs' _ => Vertices.Read (earlier ++ [r]) vs')
        (readVertex identifier vs r) y := by
  have hrepeats : (vs.byId.contains r.id || vs.ofNode.contains r.node)
      = earlier.reverse.any fun e => e.id == r.id || e.node == r.node := by
    rw [Bool.eq_iff_iff, Bool.or_eq_true, h.byId.contains_iff,
      h.ofNode.contains_iff]
    simp [and_or_left, exists_or]
  have hsource : vs.source.isSome = earlier.reverse.any (·.node.isSource) := by
    rw [h.source]
    exact isSome_findIdx?_node Node.isSource earlier
  have hsink : vs.sink.isSome = earlier.reverse.any (·.node.isSink) := by
    rw [h.sink]
    exact isSome_findIdx?_node Node.isSink earlier
  unfold readVertex
  rw [Topology.checkVertices, ← hrepeats, ← hsource, ← hsink,
    List.reverse_concat]
  simp only
  split
  · exact ⟨.error _, rfl, .error _⟩
  next hnew =>
  split
  · exact ⟨.error _, rfl, .error _⟩
  next hsingle =>
  split
  · exact ⟨.error _, rfl, .error _⟩
  next honly =>
  refine ⟨.ok (), rfl, .ok ?_⟩
  rw [Bool.or_eq_true, not_or, h.byId.contains_iff,
    h.ofNode.contains_iff] at hnew
  have hlength : ∀ {γ : Type} (f : VertexRecord → γ),
      vs.graph.vertexCount = (earlier.map f).length := by
    intro γ f
    rw [h.vertexCount, List.length_map]
  refine ⟨?_, h.edges, ?_, ?_, ?_, ?_⟩
  · simp [Graph.addVertex, h.labels]
  · rw [List.map_append, hlength VertexRecord.id]
    exact h.byId.insert hnew.1
  · rw [List.map_append, hlength VertexRecord.node]
    exact h.ofNode.insert hnew.2
  · rw [List.map_append, h.source, hlength VertexRecord.node]
    rw [h.source] at hsingle
    exact (findIdx?_concat (Bool.not_eq_true _ ▸ hsingle)).symm
  · rw [List.map_append, h.sink, hlength VertexRecord.node]
    rw [h.sink] at honly
    exact (findIdx?_concat (Bool.not_eq_true _ ▸ honly)).symm

/-- All vertex records that are left. -/
theorem matches_readVertices (rs : List VertexRecord) (h : vs.Read earlier) :
    Matches (fun vs' _ => Vertices.Read (earlier ++ rs) vs')
      (rs.foldlM (readVertex identifier) vs)
      (Topology.checkVertices identifier earlier.reverse rs) := by
  induction rs generalizing earlier vs with
  | nil =>
      rw [List.append_nil]
      exact .ok h
  | cons r rs ih =>
      obtain ⟨y, hy, hstep⟩ := matches_readVertex identifier h r rs
      rw [hy, List.foldlM_cons, List.append_cons earlier r rs]
      exact hstep.bind fun vs' _ _ _ hread => ih hread

theorem read_nil : Vertices.Read [] ⟨.empty, .empty, .empty, none, none⟩ :=
  ⟨rfl, rfl, rfl, rfl, rfl, rfl⟩

/-- A terminal by number and by node. -/
theorem matches_required (h : vs.Read d.vertices) (pattern : Node → Bool)
    (missing : NetworkError) :
    Matches (fun v n => v < vs.graph.vertexCount ∧ vs.graph.label v = n)
      (required missing ((d.vertices.map VertexRecord.node).findIdx? pattern))
      (Topology.terminal d pattern missing) := by
  have hfind :=
    @List.find?_eq_bind_findIdx?_getElem? _ (d.vertices.map VertexRecord.node)
      pattern
  rw [List.find?_map, ← h.labels] at hfind
  unfold Topology.terminal required
  rw [← h.labels]
  cases hindex : vs.graph.labels.findIdx? pattern with
  | none =>
      rw [hindex, Option.bind_none, Option.map_eq_none_iff] at hfind
      have hnone : d.vertices.find? (pattern ·.node) = none := hfind
      rw [hnone]
      exact .error _
  | some v =>
      obtain ⟨hv, -⟩ := List.findIdx?_eq_some_iff_getElem.1 hindex
      rw [hindex, Option.bind_some, Graph.getElem?_labels hv,
        Option.map_eq_some_iff] at hfind
      obtain ⟨r, hr, hnode⟩ := hfind
      have hsome : d.vertices.find? (pattern ·.node) = some r := hr
      rw [hsome]
      exact .ok ⟨hv, hnode.symm⟩

/-- A vertex looked up by its external number. -/
theorem matches_lookup (h : vs.Read d.vertices)
    (hd : Description.Distinct d.vertices) (id : Int64) :
    Matches (fun v n => v < vs.graph.vertexCount ∧ vs.graph.label v = n)
      (lookup d.identifier vs.byId id) (Topology.nodeOf d id) := by
  obtain ⟨hok, herror⟩ := Description.nodeOf_exact hd id
  unfold lookup
  cases hget : vs.byId.get? id with
  | none =>
      have hnot : id ∉ d.ids := h.byId.get?_eq_none.1 hget
      rw [(herror _).2 ⟨hnot, rfl⟩]
      exact .error _
  | some v =>
      have hid := (h.byId.get?_eq_some hd.ids).1 hget
      rw [List.getElem?_map, Option.map_eq_some_iff] at hid
      obtain ⟨r, hr, rfl⟩ := hid
      have hnode : vs.graph.labels[v]? = some r.node := by
        rw [h.labels, List.getElem?_map, hr]
        rfl
      rw [(hok r.node).2 (List.mem_of_getElem? hr)]
      exact .ok (Graph.getElem?_labels_eq_some.1 hnode)

-- ========================================================= edge records

/-- What was read of some edge records, once the vertex records were read. -/
structure Edges.Read (labels : List Node) (as : List Arc) (es : Edges) :
    Prop where
  labels : es.graph.labels = labels
  arcs : es.graph.arcs = as
  source_lt : ∀ e ∈ es.graph.edges, e.1 < es.graph.vertexCount
  target_lt : ∀ e ∈ es.graph.edges, e.2 < es.graph.vertexCount
  ofArc : es.ofArc.Numbers as
  arcs_nodup : as.Nodup

/-- An edge between vertices that is new can be added. -/
theorem Edges.Read.addEdge {as : List Arc} {es : Edges} {u v : Nat}
    (h : Edges.Read vs.graph.labels as es) (hu : u < vs.graph.vertexCount)
    (hv : v < vs.graph.vertexCount) (hnew : es.graph.arcAt (u, v) ∉ as) :
    Edges.Read vs.graph.labels (as ++ [es.graph.arcAt (u, v)])
      ⟨es.graph.addEdge u v, es.ofArc.insert (es.graph.arcAt (u, v))
        es.graph.edgeCount⟩ := by
  have hcount : es.graph.vertexCount = vs.graph.vertexCount :=
    congrArg List.length h.labels
  have hlength : es.graph.edgeCount = as.length := by
    rw [← h.arcs, Graph.length_arcs]
  refine ⟨h.labels, ?_, ?_, ?_, ?_, ?_⟩
  · rw [← h.arcs]
    exact List.map_append
  · intro e he
    rcases List.mem_append.1 he with he | he
    · exact h.source_lt e he
    · rw [List.mem_singleton.1 he]
      exact hcount ▸ hu
  · intro e he
    rcases List.mem_append.1 he with he | he
    · exact h.target_lt e he
    · rw [List.mem_singleton.1 he]
      exact hcount ▸ hv
  · rw [hlength]
    exact h.ofArc.insert hnew
  · exact List.nodup_append.2 ⟨h.arcs_nodup, List.nodup_singleton _,
      fun a ha b hb heq => hnew (List.mem_singleton.1 hb ▸ heq ▸ ha)⟩

/-- One edge record. -/
theorem matches_readEdge (h : vs.Read d.vertices)
    (hd : Description.Distinct d.vertices) {as : List Arc} {es : Edges}
    (hes : Edges.Read vs.graph.labels as es) (e : EdgeRecord)
    (rs : List EdgeRecord) :
    ∃ y : Except NetworkError Arc,
      Topology.arcsOf d as.reverse (e :: rs)
        = (y >>= fun a =>
          (Topology.arcsOf d (as ++ [a]).reverse rs).map (a :: ·))
      ∧ Matches (fun es' a => Edges.Read vs.graph.labels (as ++ [a]) es')
        (readEdge d.identifier vs.byId es e) y := by
  have hlabel : es.graph.label = vs.graph.label := Graph.label_congr hes.labels
  refine ⟨Topology.arcOf d e >>= fun a =>
    if a ∈ as then .error (.duplicateArc d.identifier a) else .ok a, ?_, ?_⟩
  · cases ha : Topology.arcOf d e with
    | error err =>
        rw [Topology.arcsOf, ha]
        rfl
    | ok a =>
        rw [Description.arcsOf_cons rs ha]
        simp only [List.reverse_concat]
        by_cases hmem : a ∈ as
        · rw [if_pos (List.mem_reverse.2 hmem)]
          show _ = (if a ∈ as then Except.error _ else Except.ok a) >>= _
          rw [if_pos hmem]
          rfl
        · rw [if_neg (mt List.mem_reverse.1 hmem)]
          show _ = (if a ∈ as then Except.error _ else Except.ok a) >>= _
          rw [if_neg hmem]
          rfl
  · unfold readEdge Topology.arcOf
    rw [bind_assoc]
    refine (matches_lookup h hd e.source).bind fun u s _ _ hu => ?_
    rw [bind_assoc]
    refine (matches_lookup h hd e.target).bind fun v t _ _ hv => ?_
    have harc : es.graph.arcAt (u, v) = ⟨s, t⟩ := by
      unfold Graph.arcAt
      rw [hlabel, hu.2, hv.2]
    simp only [pure_bind, harc]
    by_cases hmem : (⟨s, t⟩ : Arc) ∈ as
    · rw [if_pos (hes.ofArc.contains_iff.2 hmem), if_pos hmem]
      exact .error _
    · rw [if_neg (mt hes.ofArc.contains_iff.1 hmem), if_neg hmem]
      refine .ok ?_
      rw [← harc] at hmem ⊢
      exact hes.addEdge hu.1 hv.1 hmem

/-- All edge records that are left. -/
theorem matches_readEdges (h : vs.Read d.vertices)
    (hd : Description.Distinct d.vertices) (rs : List EdgeRecord)
    {as : List Arc} {es : Edges} (hes : Edges.Read vs.graph.labels as es) :
    Matches (fun es' as' => Edges.Read vs.graph.labels (as ++ as') es')
      (rs.foldlM (readEdge d.identifier vs.byId) es)
      (Topology.arcsOf d as.reverse rs) := by
  induction rs generalizing as es with
  | nil =>
      refine .ok ?_
      rw [List.append_nil]
      exact hes
  | cons e rs ih =>
      obtain ⟨y, hy, hstep⟩ := matches_readEdge h hd hes e rs
      rw [hy, List.foldlM_cons]
      refine hstep.bind fun es' a _ _ hread => ?_
      refine (ih hread).map_right fun es'' as' hall => ?_
      rw [List.append_cons as a as']
      exact hall

/-- Without edges there are no arcs. -/
theorem read_noEdges (h : vs.graph.edges = []) :
    Edges.Read vs.graph.labels [] ⟨vs.graph, .empty⟩ := by
  refine ⟨rfl, ?_, ?_, ?_, rfl, List.nodup_nil⟩
  · unfold Graph.arcs
    rw [h]
    rfl
  · exact fun e he => absurd (h ▸ he) List.not_mem_nil
  · exact fun e he => absurd (h ▸ he) List.not_mem_nil

-- ============================================================ networks

/-- The graph that was read is well formed. -/
theorem Edges.Read.wellFormed {as : List Arc} {es : Edges} {labels : List Node}
    (h : Edges.Read labels as es) (hlabels : labels.Nodup) :
    es.graph.WellFormed := by
  have harcs : (es.graph.edges.map es.graph.arcAt).Nodup := by
    show es.graph.arcs.Nodup
    rw [h.arcs]
    exact h.arcs_nodup
  exact ⟨h.labels ▸ hlabels, harcs.of_map, h.source_lt, h.target_lt⟩

/-- Every arc beside a weight of zero. -/
theorem zip_replicate (as : List Arc) :
    as.zip (List.replicate as.length (0.0 : Float)) = as.map (·, 0.0) := by
  rw [← List.map_const', ← List.map_prod_left_eq_zip]

/-- A description is refused by number and by node with the same error, or it
becomes a sound network of numbers and what these stand for. -/
theorem matches_ofDescription (d : Description) :
    Matches (fun x n => x.Sound ∧ x.view = n) (ofDescription d)
      (Network.ofDescription d) := by
  unfold Network.ofDescription
  suffices Matches (fun x t => x.Sound ∧ x.view = .ofTopology t)
      (ofDescription d) (Topology.ofDescription d) from
    this.map_right fun _ _ => id
  unfold ofDescription Topology.ofDescription
  refine (Matches.refl _).bind fun group _ _ _ hgroup => ?_
  obtain rfl := hgroup
  refine (matches_readVertices d.vertices read_nil).bind
    fun vs u _ hchecked hvs => ?_
  rw [List.nil_append] at hvs
  have hd : Description.Distinct d.vertices :=
    (Description.checkVertices_exact d).1.1 ⟨u, hchecked⟩
  rw [hvs.source, hvs.sink]
  refine (matches_required hvs Node.isSource _).bind
    fun source s _ _ hsource => ?_
  refine (matches_required hvs Node.isSink _).bind fun sink t _ _ hsink => ?_
  refine (matches_readEdges hvs hd d.edges (read_noEdges hvs.edges)).bind
    fun es as _ _ hes => ?_
  rw [List.nil_append] at hes
  have hlabels : vs.graph.labels.Nodup := hvs.labels ▸ hd.nodes
  have hg := hes.wellFormed hlabels
  have hnodes : es.graph.labels = d.vertices.map VertexRecord.node :=
    hes.labels.trans hvs.labels
  have hlabel : es.graph.label = vs.graph.label := Graph.label_congr hes.labels
  have hcount : es.graph.vertexCount = vs.graph.vertexCount :=
    congrArg List.length hes.labels
  have hlength : es.graph.edgeCount = as.length := by
    rw [← hes.arcs, Graph.length_arcs]
  have horder := hg.map_toposort?
  rw [hnodes, hes.arcs] at horder
  simp only [← horder]
  cases htop : es.graph.toposort? with
  | none => exact .error _
  | some order =>
      obtain ⟨hperm, hforward⟩ := hg.toposort?_spec htop
      refine .ok ⟨?_, ?_⟩
      · exact {
          graph := hg
          arcs_nodup := hes.arcs ▸ hes.arcs_nodup
          order_perm := hperm
          forward := hforward
          vertexOfNode := hnodes ▸ hvs.ofNode
          arcToEdge := hes.arcs ▸ hes.ofArc
          weights := List.length_replicate
          source_lt := hcount.symm ▸ hsource.1
          sink_lt := hcount.symm ▸ hsink.1 }
      · unfold view Network.ofTopology Table.fill
        simp only [hnodes, hes.arcs, hlabel, hsource.2, hsink.2, hlength,
          zip_replicate]

end IndexedNetwork

end FlowPricing
