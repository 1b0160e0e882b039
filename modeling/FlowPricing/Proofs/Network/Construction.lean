/-
Which descriptions are accepted, what network an accepted one becomes, and what
is said of every other (`Network.ofDescription_accepts`).

A description is well formed (`Description.WellFormed`) if its identifier names
a group, its vertices are all different and one of them is a source and one a
sink, its edges are all different and join declared vertices, and following
them never leads back. Everything that can be wrong with it has a place in the
order in which it is read, and it is refused for the first flaw in that order
(`Description.Refused`).

Cycles are a matter of the edges between numbers, while the order is sought
among the arcs between nodes. Since numbers and nodes belong to each other one
to one, a cycle of the ones is a cycle of the others (`acyclic_iff`).
-/
import FlowPricing.Network.Basic
import FlowPricing.Proofs.Network.Acyclic
import FlowPricing.Proofs.Network.Records
import FlowPricing.Proofs.Table

namespace FlowPricing

open FlowPricing.Action
    (except_bind_eq_ok except_bind_eq_error except_pure_eq_ok)
open Relation (TransGen)

namespace Description

variable {d : Description} {i j : Int64} {u v : Node} {e : EdgeRecord} {a : Arc}

-- ============================================================== cycles

/-- An edge leads from one number to another. -/
def Edge (d : Description) (i j : Int64) : Prop := ⟨i, j⟩ ∈ d.edges

/-- Following edges never leads back to where one started. -/
def Acyclic (d : Description) : Prop := ∀ i, ¬TransGen d.Edge i i

/-- Steps that can be made between counterparts lead from counterpart to
counterpart, if nothing has two of them. -/
theorem transGen_counterpart {α β : Type} {r : α → α → Prop} {s : β → β → Prop}
    {m : α → β → Prop} (hm : ∀ x y y', m x y → m x y' → y = y')
    (hstep : ∀ x x', r x x' → ∃ y y', m x y ∧ m x' y' ∧ s y y') {x x' : α}
    (h : TransGen r x x') : ∃ y y', m x y ∧ m x' y' ∧ TransGen s y y' := by
  induction h with
  | single h =>
      obtain ⟨y, y', hy, hy', hs⟩ := hstep _ _ h
      exact ⟨y, y', hy, hy', .single hs⟩
  | tail _ h ih =>
      obtain ⟨y, y', hy, hy', hs⟩ := ih
      obtain ⟨z, z', hz, hz', hlast⟩ := hstep _ _ h
      obtain rfl := hm _ _ _ hy' hz
      exact ⟨y, z', hy, hz', hs.tail hlast⟩

/-- The edges of a description have no cycle exactly if its arcs have none. -/
theorem acyclic_iff (h : Distinct d.vertices) {as : List Arc}
    (has : List.Forall₂ d.Joins d.edges as) : Order.Acyclic as ↔ d.Acyclic := by
  constructor
  · intro hacyclic i hcycle
    obtain ⟨u, v, hu, hv, hreach⟩ := transGen_counterpart (m := d.Declares)
      (s := Order.Joined as) (fun _ _ _ => h.node_unique) (fun i j hij => by
        obtain ⟨a, ha, hjoins⟩ := Action.exists_of_mem_left has hij
        exact ⟨a.source, a.target, hjoins.source, hjoins.target, ha⟩) hcycle
    obtain rfl := h.node_unique hu hv
    exact hacyclic u hreach
  · intro hacyclic v hcycle
    obtain ⟨i, j, hi, hj, hreach⟩ :=
      transGen_counterpart (m := fun v i => d.Declares i v)
      (s := d.Edge) (fun _ _ _ => h.id_unique) (fun u v huv => by
        obtain ⟨e, he, hjoins⟩ := Action.exists_of_mem_right has huv
        exact ⟨e.source, e.target, hjoins.source, hjoins.target, he⟩) hcycle
    obtain rfl := h.id_unique hi hj
    exact hacyclic i hreach

/-- The order is found exactly if there is no cycle. -/
theorem topological?_isSome_iff (h : Distinct d.vertices) {as : List Arc}
    (has : List.Forall₂ d.Joins d.edges as) :
    (Order.topological? (d.vertices.map VertexRecord.node) as).isSome = true
      ↔ d.Acyclic := by
  rw [Order.topological?_isSome_iff h.nodes, acyclic_iff h has]
  intro a ha
  obtain ⟨e, -, hjoins⟩ := Action.exists_of_mem_right has ha
  exact ⟨List.mem_map_of_mem hjoins.source, List.mem_map_of_mem hjoins.target⟩

-- ============================================================ verdicts

/-- The identifier names a group. -/
def Named (d : Description) : Prop :=
  ∃ group, groupOfIdentifier d.identifier = .ok group

/-- An identifier without a group is malformed, and that is the error. -/
theorem groupOfIdentifier_eq_error {err : NetworkError} :
    groupOfIdentifier d.identifier = .error err
      ↔ ¬d.Named ∧ err = .malformedIdentifier d.identifier := by
  have herror : ∀ err', groupOfIdentifier d.identifier = .error err' →
      err' = .malformedIdentifier d.identifier := by
    intro err' h
    unfold groupOfIdentifier at h
    split at h
    · split at h
      · cases h
      · cases h
        rfl
    · cases h
      rfl
  unfold Named
  cases h : groupOfIdentifier d.identifier with
  | ok group => simp
  | error err' => simp [herror err' h, eq_comm]

/-- A description as a network is built from it. -/
structure WellFormed (d : Description) : Prop where
  named : d.Named
  ids_nodup : d.ids.Nodup
  nodes_nodup : (d.vertices.map VertexRecord.node).Nodup
  source : d.vertices.countP (·.node.isSource) = 1
  sink : d.vertices.countP (·.node.isSink) = 1
  edges_declared : ∀ e ∈ d.edges, e.source ∈ d.ids ∧ e.target ∈ d.ids
  edges_nodup : d.edges.Nodup
  acyclic : d.Acyclic

/-- The error a description is refused with: the first flaw that is met when
the identifier is read, then the vertices, then the edges. Between the vertices
and the edges comes a missing source, then a missing sink, and last a cycle. -/
inductive Refused (d : Description) : NetworkError → Prop
  | identifier (malformed : ¬d.Named) :
      Refused d (.malformedIdentifier d.identifier)
  | vertex {err : NetworkError} (named : d.Named)
      (flaw : FirstFlaw Distinct (VertexFlaw d.identifier) d.vertices err) :
      Refused d err
  | missingSource (named : d.Named) (distinct : Distinct d.vertices)
      (missing : d.vertices.countP (·.node.isSource) = 0) :
      Refused d (.missingSource d.identifier)
  | missingSink (named : d.Named) (distinct : Distinct d.vertices)
      (source : 0 < d.vertices.countP (·.node.isSource))
      (missing : d.vertices.countP (·.node.isSink) = 0) :
      Refused d (.missingSink d.identifier)
  | edge {err : NetworkError} (named : d.Named) (distinct : Distinct d.vertices)
      (source : 0 < d.vertices.countP (·.node.isSource))
      (sink : 0 < d.vertices.countP (·.node.isSink))
      (flaw : FirstFlaw d.Linked d.EdgeFlaw d.edges err) : Refused d err
  | cycle (named : d.Named) (distinct : Distinct d.vertices)
      (source : 0 < d.vertices.countP (·.node.isSource))
      (sink : 0 < d.vertices.countP (·.node.isSink)) (linked : d.Linked d.edges)
      (cycle : ¬d.Acyclic) : Refused d (.cycle d.identifier)

/-- What is well formed passes one check after another. -/
theorem wellFormed_iff : d.WellFormed ↔ d.Named ∧ Distinct d.vertices
    ∧ 0 < d.vertices.countP (·.node.isSource)
    ∧ 0 < d.vertices.countP (·.node.isSink)
    ∧ d.Linked d.edges ∧ d.Acyclic := by
  constructor
  · intro h
    have hsource := h.source
    have hsink := h.sink
    refine ⟨h.named,
      ⟨h.ids_nodup, h.nodes_nodup, by omega, by omega⟩, by omega, by omega, ?_,
      h.acyclic⟩
    exact ⟨fun e he => (h.edges_declared e he).1,
      fun e he => (h.edges_declared e he).2, h.edges_nodup⟩
  · intro h
    obtain ⟨hnamed, hdistinct, hsource, hsink, hlinked, hacyclic⟩ := h
    have hsources := hdistinct.source
    have hsinks := hdistinct.sink
    exact {
      named := hnamed
      ids_nodup := hdistinct.ids
      nodes_nodup := hdistinct.nodes
      source := by omega
      sink := by omega
      edges_declared := fun e he => ⟨hlinked.sources e he, hlinked.targets e he⟩
      edges_nodup := hlinked.nodup
      acyclic := hacyclic }

/-- All that is read of an accepted description. -/
theorem ofDescription_eq_ok {t : Topology}
    (h : Topology.ofDescription d = .ok t) :
    d.WellFormed ∧ groupOfIdentifier d.identifier = .ok t.group
      ∧ t.vertices = d.vertices.map VertexRecord.node
      ∧ List.Forall₂ d.Joins d.edges t.arcs
      ∧ Topology.terminal d Node.isSource (.missingSource d.identifier)
        = .ok t.source
      ∧ Topology.terminal d Node.isSink (.missingSink d.identifier)
        = .ok t.sink := by
  unfold Topology.ofDescription at h
  obtain ⟨group, hgroup, h⟩ := except_bind_eq_ok.1 h
  obtain ⟨u, hvertices, h⟩ := except_bind_eq_ok.1 h
  obtain ⟨source, hsource, h⟩ := except_bind_eq_ok.1 h
  obtain ⟨sink, hsink, h⟩ := except_bind_eq_ok.1 h
  obtain ⟨arcs, harcs, h⟩ := except_bind_eq_ok.1 h
  have hdistinct := (checkVertices_exact d).1.1 ⟨u, hvertices⟩
  obtain ⟨hlinked, -, hjoins⟩ := arcsOf_exact hdistinct
  have horder := topological?_isSome_iff hdistinct (hjoins arcs harcs)
  simp only at h
  cases htop : Order.topological? (d.vertices.map VertexRecord.node) arcs with
  | none =>
      rw [htop] at h
      cases h
  | some order =>
      rw [htop] at h horder
      obtain rfl := except_pure_eq_ok.1 h
      have hwell : d.WellFormed := wellFormed_iff.2 ⟨⟨group, hgroup⟩, hdistinct,
        (terminal_exact d _ _).1.1 ⟨source, hsource⟩,
        (terminal_exact d _ _).1.1 ⟨sink, hsink⟩, hlinked.1 ⟨arcs, harcs⟩,
        horder.1 rfl⟩
      exact ⟨hwell, hgroup, rfl, hjoins arcs harcs, hsource, hsink⟩

/-- A description is only refused for its first flaw. -/
theorem refused_of_ofDescription {err : NetworkError}
    (h : Topology.ofDescription d = .error err) :
    d.Refused err := by
  unfold Topology.ofDescription at h
  rcases except_bind_eq_error.1 h with h | ⟨group, hgroup, h⟩
  · obtain ⟨hmalformed, rfl⟩ := groupOfIdentifier_eq_error.1 h
    exact .identifier hmalformed
  have hnamed : d.Named := ⟨group, hgroup⟩
  rcases except_bind_eq_error.1 h with h | ⟨u, hvertices, h⟩
  · exact .vertex hnamed (((checkVertices_exact d).2 err).1 h)
  have hdistinct := (checkVertices_exact d).1.1 ⟨u, hvertices⟩
  rcases except_bind_eq_error.1 h with h | ⟨source, hsource, h⟩
  · obtain ⟨hmissing, rfl⟩ := ((terminal_exact d _ _).2 err).1 h
    exact .missingSource hnamed hdistinct hmissing
  have hsource' := (terminal_exact d _ _).1.1 ⟨source, hsource⟩
  rcases except_bind_eq_error.1 h with h | ⟨sink, hsink, h⟩
  · obtain ⟨hmissing, rfl⟩ := ((terminal_exact d _ _).2 err).1 h
    exact .missingSink hnamed hdistinct hsource' hmissing
  have hsink' := (terminal_exact d _ _).1.1 ⟨sink, hsink⟩
  obtain ⟨hlinked, hflaw, hjoins⟩ := arcsOf_exact hdistinct
  rcases except_bind_eq_error.1 h with h | ⟨arcs, harcs, h⟩
  · exact .edge hnamed hdistinct hsource' hsink' ((hflaw err).1 h)
  have horder := topological?_isSome_iff hdistinct (hjoins arcs harcs)
  simp only at h
  cases htop : Order.topological? (d.vertices.map VertexRecord.node) arcs with
  | some order =>
      rw [htop] at h
      cases h
  | none =>
      rw [htop] at h horder
      cases h
      refine .cycle hnamed hdistinct hsource' hsink'
        (hlinked.1 ⟨arcs, harcs⟩) ?_
      exact fun hacyclic => Bool.false_ne_true (horder.2 hacyclic)

/-- For its first flaw a description is refused. -/
theorem Refused.ofDescription {err : NetworkError} (h : d.Refused err) :
    Topology.ofDescription d = .error err := by
  unfold Topology.ofDescription
  cases h with
  | identifier malformed =>
      rw [groupOfIdentifier_eq_error.2 ⟨malformed, rfl⟩]
      rfl
  | vertex named flaw =>
      obtain ⟨group, hgroup⟩ := named
      rw [hgroup, ((checkVertices_exact d).2 err).2 flaw]
      rfl
  | missingSource named distinct missing =>
      obtain ⟨group, hgroup⟩ := named
      obtain ⟨u, hvertices⟩ := (checkVertices_exact d).1.2 distinct
      rw [hgroup, hvertices, ((terminal_exact d _ _).2 _).2 ⟨missing, rfl⟩]
      rfl
  | missingSink named distinct source missing =>
      obtain ⟨group, hgroup⟩ := named
      obtain ⟨u, hvertices⟩ := (checkVertices_exact d).1.2 distinct
      obtain ⟨v, hsource⟩ :=
        (terminal_exact d _ (.missingSource d.identifier)).1.2 source
      rw [hgroup, hvertices, hsource,
        ((terminal_exact d _ _).2 _).2 ⟨missing, rfl⟩]
      rfl
  | edge named distinct source sink flaw =>
      obtain ⟨group, hgroup⟩ := named
      obtain ⟨u, hvertices⟩ := (checkVertices_exact d).1.2 distinct
      obtain ⟨v, hsource⟩ :=
        (terminal_exact d _ (.missingSource d.identifier)).1.2 source
      obtain ⟨w, hsink⟩ :=
        (terminal_exact d _ (.missingSink d.identifier)).1.2 sink
      rw [hgroup, hvertices, hsource, hsink,
        ((arcsOf_exact distinct).2.1 err).2 flaw]
      rfl
  | cycle named distinct source sink linked cycle =>
      obtain ⟨group, hgroup⟩ := named
      obtain ⟨u, hvertices⟩ := (checkVertices_exact d).1.2 distinct
      obtain ⟨v, hsource⟩ :=
        (terminal_exact d _ (.missingSource d.identifier)).1.2 source
      obtain ⟨w, hsink⟩ :=
        (terminal_exact d _ (.missingSink d.identifier)).1.2 sink
      obtain ⟨arcs, harcs⟩ := (arcsOf_exact distinct).1.2 linked
      have horder :=
        topological?_isSome_iff distinct
          ((arcsOf_exact distinct).2.2 arcs harcs)
      have hnone : Order.topological? (d.vertices.map VertexRecord.node) arcs
          = none :=
        Option.not_isSome_iff_eq_none.1 (mt horder.1 cycle)
      rw [hgroup, hvertices, hsource, hsink, harcs]
      simp only [bind, Except.bind, hnone]

/-- The topology is refused for the first reason there is. -/
theorem ofDescription_eq_error {err : NetworkError} :
    Topology.ofDescription d = .error err ↔ d.Refused err :=
  ⟨refused_of_ofDescription, Refused.ofDescription⟩

/-- A description is accepted exactly if it is well formed. -/
theorem exists_ofDescription_iff :
    (∃ t, Topology.ofDescription d = .ok t) ↔ d.WellFormed := by
  constructor
  · intro h
    obtain ⟨t, ht⟩ := h
    exact (ofDescription_eq_ok ht).1
  · intro h
    obtain ⟨-, hdistinct, hsource, hsink, hlinked, hacyclic⟩ :=
      wellFormed_iff.1 h
    cases ht : Topology.ofDescription d with
    | ok t => exact ⟨t, rfl⟩
    | error err =>
        exfalso
        cases ofDescription_eq_error.1 ht with
        | identifier malformed => exact malformed h.named
        | vertex _ flaw =>
            exact (scan_vertices d.identifier).not_firstFlaw hdistinct err flaw
        | missingSource _ _ missing => omega
        | missingSink _ _ _ missing => omega
        | edge _ _ _ _ flaw =>
            exact (scan_edges hdistinct).not_firstFlaw hlinked err flaw
        | cycle _ _ _ _ _ cycle => exact cycle hacyclic

/-- The terminal that is found is the one vertex that matches the pattern. -/
theorem terminal_iff {pattern : Node → Bool} {missing : NetworkError} {w : Node}
    (hone : d.vertices.countP (pattern ·.node) = 1)
    (h : Topology.terminal d pattern missing = .ok w) (v : Node) :
    v ∈ d.vertices.map VertexRecord.node ∧ pattern v = true ↔ v = w := by
  have hw : pattern w = true := by
    unfold Topology.terminal at h
    split at h
    · next r hr =>
        obtain rfl := Except.ok.inj h
        simpa using List.find?_some hr
    · cases h
  constructor
  · intro hv
    obtain ⟨hmem, hv⟩ := hv
    -- two matching vertices would be counted twice
    rw [List.countP_eq_length_filter, List.length_eq_one_iff] at hone
    obtain ⟨r, hr⟩ := hone
    have honly : ∀ u ∈ d.vertices.map VertexRecord.node, pattern u = true →
        u = r.node := by
      intro u hu hmatch
      obtain ⟨q, hq, rfl⟩ := List.mem_map.1 hu
      have hqr : q ∈ [r] := hr ▸ List.mem_filter.2 ⟨hq, hmatch⟩
      rw [List.mem_singleton.1 hqr]
    rw [honly v hmem hv, honly w (Topology.terminal_mem h) hw]
  · intro heq
    rw [heq]
    exact ⟨Topology.terminal_mem h, hw⟩

end Description

-- ============================================================ networks

namespace Network

/-- The network a description declares, before anything was done to it. -/
structure Declared (d : Description) (n : Network) : Prop where
  group : groupOfIdentifier d.identifier = .ok n.group
  vertices : n.topology.vertices = d.vertices.map VertexRecord.node
  arcs : List.Forall₂ d.Joins d.edges n.topology.arcs
  arcs_nodup : n.topology.arcs.Nodup
  contains : ∀ a, n.containsArc a = true ↔ a ∈ n.topology.arcs
  source : ∀ v, v ∈ n.topology.vertices ∧ v.isSource = true
    ↔ v = n.topology.source
  sink : ∀ v, v ∈ n.topology.vertices ∧ v.isSink = true ↔ v = n.topology.sink
  weights : ∀ a ∈ n.topology.arcs, n.weight a = .ok 0.0

/-- In a new network every arc weighs nothing. -/
theorem weight_ofTopology {t : Topology} {a : Arc} (ha : a ∈ t.arcs) :
    (ofTopology t).weight a = .ok 0.0 := by
  have hget : (ofTopology t).weights.get? a = some 0.0 :=
    (Table.get?_fill t.arcs 0.0 a).trans (if_pos ha)
  unfold weight
  rw [hget]

/-- It knows the arcs of its topology. -/
theorem containsArc_ofTopology (t : Topology) (a : Arc) :
    (ofTopology t).containsArc a = true ↔ a ∈ t.arcs := by
  show ((Table.fill t.arcs 0.0).get? a).isSome = true ↔ _
  rw [Table.isSome_get?_iff, Table.keys_fill]

/-- An accepted description becomes the network it declares. -/
theorem declared_of_ofDescription {d : Description} {n : Network}
    (h : ofDescription d = .ok n) :
    Declared d n := by
  unfold ofDescription at h
  cases ht : Topology.ofDescription d with
  | error err =>
      rw [ht] at h
      cases h
  | ok t =>
      rw [ht] at h
      cases h
      obtain ⟨hwell, hgroup, hvertices, harcs, hsource, hsink⟩ :=
        Description.ofDescription_eq_ok ht
      exact {
        group := hgroup
        vertices := hvertices
        arcs := harcs
        arcs_nodup := (Topology.wellFormed_of_ofDescription ht).arcs_nodup
        contains := containsArc_ofTopology t
        source := fun v =>
          hvertices ▸ Description.terminal_iff hwell.source hsource v
        sink := fun v => hvertices ▸ Description.terminal_iff hwell.sink hsink v
        weights := fun a ha => weight_ofTopology ha }

/-- Exactly the well-formed descriptions are accepted. An accepted description
becomes the network it declares, and every other is refused for its first
flaw. -/
theorem ofDescription_accepts (d : Description) :
    ((∃ n, ofDescription d = .ok n) ↔ d.WellFormed)
      ∧ (∀ n, ofDescription d = .ok n → Declared d n)
      ∧ ∀ err, ofDescription d = .error err ↔ d.Refused err := by
  have haccepted := Description.exists_ofDescription_iff (d := d)
  have hrefused : ∀ err, Topology.ofDescription d = .error err
      ↔ d.Refused err :=
    fun _ => Description.ofDescription_eq_error
  refine ⟨?_, fun n h => declared_of_ofDescription h, ?_⟩
  · rw [← haccepted]
    unfold ofDescription
    cases Topology.ofDescription d with
    | ok t => exact ⟨fun _ => ⟨t, rfl⟩, fun _ => ⟨_, rfl⟩⟩
    | error err => exact ⟨nofun, nofun⟩
  · intro err
    rw [← hrefused err]
    unfold ofDescription
    cases Topology.ofDescription d with
    | ok t => exact ⟨nofun, nofun⟩
    | error err' => exact ⟨fun h => congrArg Except.error (Except.error.inj h),
        fun h => congrArg Except.error (Except.error.inj h)⟩

/-- A source, a sink, and a vertex on the way that an edge joins to itself. -/
def sampleLoop : Description where
  identifier := "graph_1"
  vertices := [⟨1, ⟨0, 0, -2, -1, 0, false, 1⟩⟩, ⟨2, ⟨0, 0, 0, 0, 2, false, 1⟩⟩,
    ⟨3, ⟨0, 0, 35, -1, 0, false, 1⟩⟩]
  edges := [⟨1, 2⟩, ⟨2, 2⟩, ⟨2, 3⟩]

/-- Without the edge that leads back the description is accepted. -/
theorem ofDescription_accepts_sample :
    (∃ n, ofDescription { sampleLoop with edges := [⟨1, 2⟩, ⟨2, 3⟩] } = .ok n
        ∧ Declared { sampleLoop with edges := [⟨1, 2⟩, ⟨2, 3⟩] } n)
      ∧ ofDescription sampleLoop = .error (.cycle "graph_1") := by
  constructor
  · have hyields :
        Action.yields (ofDescription { sampleLoop with
          edges := [⟨1, 2⟩, ⟨2, 3⟩] })
        (fun _ => true) = true := by
      decide +kernel
    obtain ⟨n, hn, -⟩ := Action.exists_of_yields hyields
    exact ⟨n, hn, (ofDescription_accepts _).2.1 n hn⟩
  · apply ((ofDescription_accepts sampleLoop).2.2 _).2
    have hdistinct : Description.Distinct sampleLoop.vertices :=
      ⟨by decide, by decide, by decide, by decide⟩
    refine .cycle ⟨1, by decide +kernel⟩ hdistinct (by decide) (by decide)
      ⟨by decide, by decide, by decide⟩ ?_
    exact fun hacyclic =>
      hacyclic 2 (.single (by simp [Description.Edge, sampleLoop]))

end Network

end FlowPricing
