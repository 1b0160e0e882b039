/-
What a topology that was built from a description can be relied on for
(`Topology.WellFormed`): no vertex and no arc is there twice, arcs and
terminals stay among the vertices, and the order holds every vertex once,
with every arc going forward in it.
-/
import FlowPricing.Network.Topology
import FlowPricing.Proofs.Action
import FlowPricing.Proofs.Network.Order

namespace FlowPricing.Topology

open FlowPricing.Action (except_bind_eq_ok except_pure_eq_ok)

/-- A topology as the rest of the library expects it. -/
structure WellFormed (t : Topology) : Prop where
  vertices_nodup : t.vertices.Nodup
  arcs_nodup : t.arcs.Nodup
  source_mem : ∀ a ∈ t.arcs, a.source ∈ t.vertices
  target_mem : ∀ a ∈ t.arcs, a.target ∈ t.vertices
  start_mem : t.source ∈ t.vertices
  end_mem : t.sink ∈ t.vertices
  order_perm : t.order.Perm t.vertices
  forward : Order.Forward t.arcs t.order

namespace WellFormed

variable {t : Topology}

theorem order_nodup (h : t.WellFormed) : t.order.Nodup :=
  h.order_perm.nodup_iff.2 h.vertices_nodup

/-- The order lists as many vertices as there are. -/
theorem length_order (h : t.WellFormed) : t.order.length = t.vertices.length :=
  h.order_perm.length_eq

end WellFormed

-- ============================================================ vertices

/-- Checked vertex records are all of different nodes, and none of a node
met earlier. -/
theorem nodup_of_checkVertices {identifier : String}
    {rs earlier : List VertexRecord} {u : Unit}
    (h : checkVertices identifier earlier rs = .ok u) :
    (rs.map VertexRecord.node).Nodup
      ∧ ∀ r ∈ rs, r.node ∉ earlier.map VertexRecord.node := by
  induction rs generalizing earlier with
  | nil => exact ⟨List.nodup_nil, fun r hr => absurd hr List.not_mem_nil⟩
  | cons r rs ih =>
      unfold checkVertices at h
      split at h
      · exact nomatch h
      · next hdup =>
          split at h
          · exact nomatch h
          · split at h
            · exact nomatch h
            · obtain ⟨hnodup, hnew⟩ := ih h
              have hr : r.node ∉ earlier.map VertexRecord.node := by
                intro hmem
                obtain ⟨e, he, heq⟩ := List.mem_map.1 hmem
                apply hdup
                rw [List.any_eq_true]
                exact ⟨e, he, by simp [heq]⟩
              constructor
              · rw [List.map_cons, List.nodup_cons]
                refine ⟨?_, hnodup⟩
                intro hmem
                obtain ⟨e, he, heq⟩ := List.mem_map.1 hmem
                apply hnew e he
                rw [heq, List.map_cons]
                exact List.mem_cons_self
              · intro e he
                rcases List.mem_cons.1 he with rfl | he
                · exact hr
                · intro hmem
                  apply hnew e he
                  rw [List.map_cons]
                  exact List.mem_cons_of_mem _ hmem

/-- A vertex that is found by its identifier is one of the records. -/
theorem nodeOf_mem {d : Description} {id : Int64} {v : Node}
    (h : nodeOf d id = .ok v) :
    v ∈ d.vertices.map VertexRecord.node := by
  unfold nodeOf at h
  split at h
  · next r hr =>
      obtain rfl := Except.ok.inj h
      exact List.mem_map_of_mem (List.mem_of_find?_eq_some hr)
  · exact nomatch h

/-- So are the source and the sink. -/
theorem terminal_mem {d : Description} {pattern : Node → Bool}
    {missing : NetworkError} {v : Node}
    (h : terminal d pattern missing = .ok v) :
    v ∈ d.vertices.map VertexRecord.node := by
  unfold terminal at h
  split at h
  · next r hr =>
      obtain rfl := Except.ok.inj h
      exact List.mem_map_of_mem (List.mem_of_find?_eq_some hr)
  · exact nomatch h

-- ================================================================ arcs

/-- So are the ends of an arc. -/
theorem arcOf_mem {d : Description} {e : EdgeRecord} {a : Arc}
    (h : arcOf d e = .ok a) :
    a.source ∈ d.vertices.map VertexRecord.node
      ∧ a.target ∈ d.vertices.map VertexRecord.node := by
  unfold arcOf at h
  obtain ⟨source, hs, h⟩ := except_bind_eq_ok.1 h
  obtain ⟨target, ht, h⟩ := except_bind_eq_ok.1 h
  obtain rfl := except_pure_eq_ok.1 h
  exact ⟨nodeOf_mem hs, nodeOf_mem ht⟩

/-- The arcs of edge records run between vertices and are all different. -/
theorem arcsOf_spec {d : Description} {es : List EdgeRecord}
    {earlier as : List Arc} (h : arcsOf d earlier es = .ok as) :
    as.Nodup ∧ ∀ a ∈ as, a ∉ earlier
      ∧ a.source ∈ d.vertices.map VertexRecord.node
      ∧ a.target ∈ d.vertices.map VertexRecord.node := by
  induction es generalizing earlier as with
  | nil =>
      obtain rfl := Except.ok.inj h
      exact ⟨List.nodup_nil, fun a ha => absurd ha List.not_mem_nil⟩
  | cons e es ih =>
      unfold arcsOf at h
      obtain ⟨a, ha, h⟩ := except_bind_eq_ok.1 h
      split at h
      · exact nomatch h
      · next hnew =>
          obtain ⟨rest, hrest, h⟩ := except_bind_eq_ok.1 h
          obtain rfl := except_pure_eq_ok.1 h
          obtain ⟨hnodup, hall⟩ := ih hrest
          constructor
          · rw [List.nodup_cons]
            exact ⟨fun hmem => (hall a hmem).1 List.mem_cons_self, hnodup⟩
          · intro b hb
            rcases List.mem_cons.1 hb with rfl | hb
            · exact ⟨hnew, arcOf_mem ha⟩
            · obtain ⟨hb₁, hb₂⟩ := hall b hb
              exact ⟨fun hmem => hb₁ (List.mem_cons_of_mem a hmem), hb₂⟩

-- ============================================================ topology

/-- A description is only accepted if its topology can be relied on. -/
theorem wellFormed_of_ofDescription {d : Description} {t : Topology}
    (h : ofDescription d = .ok t) : t.WellFormed := by
  unfold ofDescription at h
  obtain ⟨group, -, h⟩ := except_bind_eq_ok.1 h
  obtain ⟨u, hv, h⟩ := except_bind_eq_ok.1 h
  obtain ⟨source, hs, h⟩ := except_bind_eq_ok.1 h
  obtain ⟨sink, ht, h⟩ := except_bind_eq_ok.1 h
  obtain ⟨arcs, ha, h⟩ := except_bind_eq_ok.1 h
  have hvertices := (nodup_of_checkVertices hv).1
  obtain ⟨harcs, hends⟩ := arcsOf_spec ha
  simp only at h
  split at h
  · next order ho =>
      obtain rfl := except_pure_eq_ok.1 h
      obtain ⟨hperm, hforward⟩ := Order.topological?_spec hvertices ho
      exact {
        vertices_nodup := hvertices
        arcs_nodup := harcs
        source_mem := fun a ha => (hends a ha).2.1
        target_mem := fun a ha => (hends a ha).2.2
        start_mem := terminal_mem hs
        end_mem := terminal_mem ht
        order_perm := hperm
        forward := hforward }
  · exact nomatch h

end FlowPricing.Topology
