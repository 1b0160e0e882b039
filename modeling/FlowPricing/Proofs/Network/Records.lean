/-
How vertex and edge records are read. Vertices are clean if no number, node or
terminal is there twice (`Distinct`), edges if they join declared vertices and
no two the same ones (`Linked`). Each record can have a flaw after the ones
before it (`VertexFlaw`, `EdgeFlaw`), and the readings stop exactly at the first
one (`checkVertices_exact`, `arcsOf_exact`).
-/
import FlowPricing.Proofs.Network.Topology
import FlowPricing.Proofs.Scan
import Mathlib.Data.List.Nodup

namespace FlowPricing

open FlowPricing.Action
    (except_bind_eq_ok except_bind_eq_error except_pure_eq_ok)

namespace Description

variable {d : Description} {i j : Int64} {u v : Node} {e : EdgeRecord} {a : Arc}

-- ============================================================ vertices

/-- A vertex is declared under a number. -/
def Declares (d : Description) (id : Int64) (v : Node) : Prop :=
  ⟨id, v⟩ ∈ d.vertices

/-- The numbers that vertices are declared under. -/
def ids (d : Description) : List Int64 := d.vertices.map VertexRecord.id

/-- An identifier is listed exactly if a node is declared under it. -/
theorem mem_ids : i ∈ d.ids ↔ ∃ v, d.Declares i v := by
  unfold ids Declares
  rw [List.mem_map]
  constructor
  · intro h
    obtain ⟨r, hr, rfl⟩ := h
    exact ⟨r.node, hr⟩
  · intro h
    obtain ⟨v, hv⟩ := h
    exact ⟨_, hv, rfl⟩

/-- No number and no node is there twice, nor is there a second source or a
second sink. -/
structure Distinct (rs : List VertexRecord) : Prop where
  ids : (rs.map VertexRecord.id).Nodup
  nodes : (rs.map VertexRecord.node).Nodup
  source : rs.countP (·.node.isSource) ≤ 1
  sink : rs.countP (·.node.isSink) ≤ 1

/-- The number or the node of a record was met before. -/
def Repeats (earlier : List VertexRecord) (r : VertexRecord) : Prop :=
  ∃ q ∈ earlier, q.id = r.id ∨ q.node = r.node

/-- A record matches a pattern that an earlier one matches. -/
def Second (pattern : Node → Bool) (earlier : List VertexRecord)
    (r : VertexRecord) : Prop :=
  pattern r.node = true ∧ ∃ q ∈ earlier, pattern q.node = true

/-- What is wrong with a vertex record after the ones before it. -/
inductive VertexFlaw (identifier : String) (earlier : List VertexRecord)
    (r : VertexRecord) :
    NetworkError → Prop
  | duplicate (again : Repeats earlier r) :
      VertexFlaw identifier earlier r (.duplicateVertex identifier r.id)
  | secondSource (new : ¬Repeats earlier r)
      (source : Second Node.isSource earlier r) :
      VertexFlaw identifier earlier r (.duplicateSource identifier r.id)
  | secondSink (new : ¬Repeats earlier r)
      (single : ¬Second Node.isSource earlier r)
      (sink : Second Node.isSink earlier r) :
      VertexFlaw identifier earlier r (.duplicateSink identifier r.id)

/-- There is at most one of a kind exactly if the last is no second one. -/
theorem countP_concat_le_one (pattern : Node → Bool)
    (earlier : List VertexRecord) (r : VertexRecord) :
    (earlier ++ [r]).countP (fun q => pattern q.node) ≤ 1
      ↔ earlier.countP (fun q => pattern q.node) ≤ 1
        ∧ ¬Second pattern earlier r := by
  have hpos := List.countP_pos_iff (l := earlier) (p := fun q => pattern q.node)
  unfold Second
  rw [List.countP_append, List.countP_singleton, ← hpos]
  by_cases hr : pattern r.node = true
  · simp only [hr, if_true, true_and]
    omega
  · simp [hr]

/-- A list stays without doubles exactly if the last element is new. -/
theorem nodup_map_concat {γ : Type} (f : VertexRecord → γ)
    (earlier : List VertexRecord) (r : VertexRecord) :
    ((earlier ++ [r]).map f).Nodup
      ↔ (earlier.map f).Nodup ∧ ∀ q ∈ earlier, f q ≠ f r := by
  simp [List.nodup_append]

/-- Records stay distinct exactly if the last one repeats nothing. -/
theorem distinct_concat (earlier : List VertexRecord) (r : VertexRecord) :
    Distinct (earlier ++ [r]) ↔ Distinct earlier ∧ ¬Repeats earlier r
      ∧ ¬Second Node.isSource earlier r ∧ ¬Second Node.isSink earlier r := by
  have hnew : ¬Repeats earlier r
      ↔ (∀ q ∈ earlier, q.id ≠ r.id) ∧ ∀ q ∈ earlier, q.node ≠ r.node := by
    simp [Repeats, forall_and]
  rw [hnew]
  constructor
  · intro h
    obtain ⟨hids, hid⟩ := (nodup_map_concat _ _ _).1 h.ids
    obtain ⟨hnodes, hnode⟩ := (nodup_map_concat _ _ _).1 h.nodes
    obtain ⟨hsource, hsources⟩ := (countP_concat_le_one _ _ _).1 h.source
    obtain ⟨hsink, hsinks⟩ := (countP_concat_le_one _ _ _).1 h.sink
    exact ⟨⟨hids, hnodes, hsource, hsink⟩, ⟨hid, hnode⟩, hsources, hsinks⟩
  · intro h
    obtain ⟨h, ⟨hid, hnode⟩, hsources, hsinks⟩ := h
    exact {
      ids := (nodup_map_concat _ _ _).2 ⟨h.ids, hid⟩
      nodes := (nodup_map_concat _ _ _).2 ⟨h.nodes, hnode⟩
      source := (countP_concat_le_one _ _ _).2 ⟨h.source, hsources⟩
      sink := (countP_concat_le_one _ _ _).2 ⟨h.sink, hsinks⟩ }

/-- A record without a flaw is new in every respect. -/
theorem no_vertexFlaw_iff {identifier : String} {earlier : List VertexRecord}
    {r : VertexRecord} :
    (∀ err, ¬VertexFlaw identifier earlier r err) ↔ ¬Repeats earlier r
      ∧ ¬Second Node.isSource earlier r ∧ ¬Second Node.isSink earlier r := by
  constructor
  · intro h
    have hnew : ¬Repeats earlier r := fun again => h _ (.duplicate again)
    have hsingle : ¬Second Node.isSource earlier r :=
      fun source => h _ (.secondSource hnew source)
    exact ⟨hnew, hsingle, fun sink => h _ (.secondSink hnew hsingle sink)⟩
  · intro h err hflaw
    obtain ⟨hnew, hsources, hsinks⟩ := h
    cases hflaw with
    | duplicate again => exact hnew again
    | secondSource _ source => exact hsources source
    | secondSink _ _ sink => exact hsinks sink

/-- A record has at most one flaw that is reported. -/
theorem vertexFlaw_unique {identifier : String} {earlier : List VertexRecord}
    {r : VertexRecord} {err err' : NetworkError}
    (h : VertexFlaw identifier earlier r err)
    (h' : VertexFlaw identifier earlier r err') : err = err' := by
  cases h <;> cases h' <;> first | rfl | contradiction

/-- The vertices are checked record by record, against those before. -/
theorem scan_vertices (identifier : String) :
    Scan Distinct (VertexFlaw identifier) where
  concat := fun earlier r => by rw [distinct_concat, no_vertexFlaw_iff]
  unique := fun _ _ _ _ h h' => vertexFlaw_unique h h'

/-- One vertex record is checked: it has a flaw and is refused for it, or the
rest is checked. -/
theorem checkVertices_cons (identifier : String) (earlier : List VertexRecord)
    (r : VertexRecord) (rs : List VertexRecord) :
    (∃ err, VertexFlaw identifier earlier r err
        ∧ Topology.checkVertices identifier earlier.reverse (r :: rs)
          = .error err)
      ∨ (∀ err, ¬VertexFlaw identifier earlier r err)
        ∧ Topology.checkVertices identifier earlier.reverse (r :: rs)
          = Topology.checkVertices identifier (earlier ++ [r]).reverse rs := by
  have hrepeats : earlier.reverse.any
        (fun e => e.id == r.id || e.node == r.node) = true
      ↔ Repeats earlier r := by
    simp [Repeats]
  have hsecond : ∀ pattern : Node → Bool,
      (pattern r.node && earlier.reverse.any fun q => pattern q.node) = true
        ↔ Second pattern earlier r := by
    intro pattern
    simp [Second]
  rw [no_vertexFlaw_iff, List.reverse_concat, Topology.checkVertices]
  by_cases hnew : Repeats earlier r
  · rw [if_pos (hrepeats.2 hnew)]
    exact .inl ⟨_, .duplicate hnew, rfl⟩
  · rw [if_neg (mt hrepeats.1 hnew)]
    by_cases hsource : Second Node.isSource earlier r
    · rw [if_pos ((hsecond _).2 hsource)]
      exact .inl ⟨_, .secondSource hnew hsource, rfl⟩
    · rw [if_neg (mt (hsecond _).1 hsource)]
      by_cases hsink : Second Node.isSink earlier r
      · rw [if_pos ((hsecond _).2 hsink)]
        exact .inl ⟨_, .secondSink hnew hsource hsink, rfl⟩
      · rw [if_neg (mt (hsecond _).1 hsink)]
        exact .inr ⟨⟨hnew, hsource, hsink⟩, rfl⟩

/-- The check goes through clean records, and stops at a first flaw. -/
theorem checkVertices_sound (identifier : String) (rs : List VertexRecord)
    {earlier : List VertexRecord} (h : Distinct earlier) :
    (∀ u, Topology.checkVertices identifier earlier.reverse rs = .ok u →
      Distinct (earlier ++ rs))
      ∧ ∀ err, Topology.checkVertices identifier earlier.reverse rs
        = .error err →
        FirstFlaw Distinct (VertexFlaw identifier) (earlier ++ rs) err := by
  induction rs generalizing earlier with
  | nil =>
      rw [List.append_nil]
      exact ⟨fun _ _ => h, nofun⟩
  | cons r rs ih =>
      rcases checkVertices_cons identifier earlier r rs with ⟨err, hflaw, hstop⟩
        | ⟨hnone, hrest⟩
      · rw [hstop]
        refine ⟨nofun, ?_⟩
        intro err' heq
        cases heq
        exact ⟨earlier, r, rs, rfl, h, hflaw⟩
      · rw [hrest, List.append_cons earlier r rs]
        exact ih (((scan_vertices identifier).concat earlier r).2 ⟨h, hnone⟩)

theorem distinct_nil : Distinct [] := ⟨.nil, .nil, Nat.zero_le 1, Nat.zero_le 1⟩

/-- Vertex records are accepted exactly if they are clean, and otherwise refused
for their first flaw. -/
theorem checkVertices_exact (d : Description) :
    ((∃ u, Topology.checkVertices d.identifier [] d.vertices = .ok u)
      ↔ Distinct d.vertices)
      ∧ ∀ err, Topology.checkVertices d.identifier [] d.vertices = .error err
        ↔ FirstFlaw Distinct (VertexFlaw d.identifier) d.vertices err := by
  obtain ⟨hok, herror⟩ :=
    checkVertices_sound d.identifier d.vertices distinct_nil
  exact (scan_vertices d.identifier).exact hok herror

/-- A terminal is missing exactly if no vertex matches its pattern. -/
theorem terminal_exact (d : Description) (pattern : Node → Bool)
    (missing : NetworkError) :
    ((∃ v, Topology.terminal d pattern missing = .ok v)
        ↔ 0 < d.vertices.countP (pattern ·.node))
      ∧ ∀ err, Topology.terminal d pattern missing = .error err
        ↔ d.vertices.countP (pattern ·.node) = 0 ∧ err = missing := by
  unfold Topology.terminal
  cases hfind : d.vertices.find? (pattern ·.node) with
  | some r =>
      have hmatch : pattern r.node = true := by
        simpa using List.find?_some hfind
      have hpos : 0 < d.vertices.countP (pattern ·.node) :=
        List.countP_pos_iff.2 ⟨r, List.mem_of_find?_eq_some hfind, hmatch⟩
      exact ⟨⟨fun _ => hpos, fun _ => ⟨r.node, rfl⟩⟩,
        fun err => ⟨nofun, fun h => absurd h.1 (Nat.ne_of_gt hpos)⟩⟩
  | none =>
      have hzero : d.vertices.countP (pattern ·.node) = 0 :=
        List.countP_eq_zero.2 (List.find?_eq_none.1 hfind)
      simp [hzero, eq_comm]

-- =============================================================== edges

namespace Distinct

variable (h : Distinct d.vertices)
include h

/-- A number stands for one vertex. -/
theorem node_unique (hu : d.Declares i u) (hv : d.Declares i v) : u = v :=
  congrArg VertexRecord.node (List.inj_on_of_nodup_map h.ids hu hv rfl)

/-- A vertex has one number. -/
theorem id_unique (hi : d.Declares i v) (hj : d.Declares j v) : i = j :=
  congrArg VertexRecord.id (List.inj_on_of_nodup_map h.nodes hi hj rfl)

end Distinct

/-- The arc an edge record stands for. -/
structure Joins (d : Description) (e : EdgeRecord) (a : Arc) : Prop where
  source : d.Declares e.source a.source
  target : d.Declares e.target a.target

/-- Edges join declared vertices, and no two join the same ones. -/
structure Linked (d : Description) (es : List EdgeRecord) : Prop where
  sources : ∀ e ∈ es, e.source ∈ d.ids
  targets : ∀ e ∈ es, e.target ∈ d.ids
  nodup : es.Nodup

/-- What is wrong with an edge record after the ones before it. -/
inductive EdgeFlaw (d : Description) (earlier : List EdgeRecord)
    (e : EdgeRecord) :
    NetworkError → Prop
  | source (unknown : e.source ∉ d.ids) :
      EdgeFlaw d earlier e (.unknownVertex d.identifier e.source)
  | target (known : e.source ∈ d.ids) (unknown : e.target ∉ d.ids) :
      EdgeFlaw d earlier e (.unknownVertex d.identifier e.target)
  | duplicate {a : Arc} (arc : d.Joins e a) (again : e ∈ earlier) :
      EdgeFlaw d earlier e (.duplicateArc d.identifier a)

theorem Joins.source_mem (h : d.Joins e a) : e.source ∈ d.ids :=
  mem_ids.2 ⟨_, h.source⟩

theorem Joins.target_mem (h : d.Joins e a) : e.target ∈ d.ids :=
  mem_ids.2 ⟨_, h.target⟩

/-- The arc of an edge is determined. -/
theorem Distinct.arc_unique {b : Arc} (h : Distinct d.vertices)
    (ha : d.Joins e a) (hb : d.Joins e b) : a = b := by
  obtain ⟨s, t⟩ := a
  obtain ⟨s', t'⟩ := b
  obtain rfl : s = s' := h.node_unique ha.source hb.source
  obtain rfl : t = t' := h.node_unique ha.target hb.target
  rfl

/-- Different edges have different arcs. -/
theorem Distinct.edge_unique {e' : EdgeRecord} (h : Distinct d.vertices)
    (he : d.Joins e a) (he' : d.Joins e' a) : e = e' := by
  obtain ⟨s, t⟩ := e
  obtain ⟨s', t'⟩ := e'
  obtain rfl : s = s' := h.id_unique he.source he'.source
  obtain rfl : t = t' := h.id_unique he.target he'.target
  rfl

/-- An edge between declared vertices stands for an arc. -/
theorem exists_joins (hs : e.source ∈ d.ids) (ht : e.target ∈ d.ids) :
    ∃ a, d.Joins e a := by
  obtain ⟨s, hs⟩ := mem_ids.1 hs
  obtain ⟨t, ht⟩ := mem_ids.1 ht
  exact ⟨⟨s, t⟩, hs, ht⟩

/-- Edges stay linked exactly if the last one joins known vertices and is
new. -/
theorem linked_concat (earlier : List EdgeRecord) (e : EdgeRecord) :
    d.Linked (earlier ++ [e])
    ↔ d.Linked earlier ∧ e.source ∈ d.ids ∧ e.target ∈ d.ids ∧ e ∉ earlier := by
  constructor
  · intro h
    obtain ⟨hnodup, -, hnew⟩ := List.nodup_append.1 h.nodup
    refine ⟨⟨?_, ?_, hnodup⟩, h.sources e (by simp), h.targets e (by simp), ?_⟩
    · exact fun e' he' => h.sources e' (List.mem_append_left _ he')
    · exact fun e' he' => h.targets e' (List.mem_append_left _ he')
    · exact fun he => hnew e he e List.mem_cons_self rfl
  · intro h
    obtain ⟨h, hs, ht, hnew⟩ := h
    refine ⟨?_, ?_, ?_⟩
    · intro e' he'
      rcases List.mem_append.1 he' with he' | he'
      · exact h.sources e' he'
      · exact List.mem_singleton.1 he' ▸ hs
    · intro e' he'
      rcases List.mem_append.1 he' with he' | he'
      · exact h.targets e' he'
      · exact List.mem_singleton.1 he' ▸ ht
    · refine List.nodup_append.2 ⟨h.nodup, by simp, ?_⟩
      intro x hx y hy hxy
      rw [List.mem_singleton] at hy
      exact hnew (hy ▸ hxy ▸ hx)

/-- An edge is without a flaw exactly if it joins known vertices and is new.
-/
theorem no_edgeFlaw_iff {earlier : List EdgeRecord} :
    (∀ err, ¬d.EdgeFlaw earlier e err)
    ↔ e.source ∈ d.ids ∧ e.target ∈ d.ids ∧ e ∉ earlier := by
  constructor
  · intro h
    have hs : e.source ∈ d.ids := by
      by_contra hs
      exact h _ (.source hs)
    have ht : e.target ∈ d.ids := by
      by_contra ht
      exact h _ (.target hs ht)
    obtain ⟨a, ha⟩ := exists_joins hs ht
    exact ⟨hs, ht, fun again => h _ (.duplicate ha again)⟩
  · intro h err hflaw
    obtain ⟨hs, ht, hnew⟩ := h
    cases hflaw with
    | source unknown => exact unknown hs
    | target _ unknown => exact unknown ht
    | duplicate _ again => exact hnew again

/-- The edges are checked one by one, against those before. -/
theorem scan_edges (h : Distinct d.vertices) : Scan d.Linked d.EdgeFlaw where
  concat := fun earlier e => by rw [linked_concat, no_edgeFlaw_iff]
  unique := by
    intro earlier e err err' hflaw hflaw'
    cases hflaw with
    | source unknown =>
        cases hflaw' with
        | source _ => rfl
        | target known _ => exact absurd known unknown
        | duplicate arc _ => exact absurd arc.source_mem unknown
    | target known unknown =>
        cases hflaw' with
        | source unknown' => exact absurd known unknown'
        | target _ _ => rfl
        | duplicate arc _ => exact absurd arc.target_mem unknown
    | duplicate arc _ =>
        cases hflaw' with
        | source unknown => exact absurd arc.source_mem unknown
        | target _ unknown => exact absurd arc.target_mem unknown
        | duplicate arc' _ => rw [h.arc_unique arc arc']

/-- The vertex under a number is found if it is declared. -/
theorem nodeOf_exact (h : Distinct d.vertices) (i : Int64) :
    (∀ v, Topology.nodeOf d i = .ok v ↔ d.Declares i v)
      ∧ ∀ err, Topology.nodeOf d i = .error err
        ↔ i ∉ d.ids ∧ err = .unknownVertex d.identifier i := by
  unfold Topology.nodeOf
  cases hfind : d.vertices.find? (·.id == i) with
  | some r =>
      have hid : r.id = i := by simpa using List.find?_some hfind
      have hdeclared : d.Declares i r.node :=
        hid ▸ List.mem_of_find?_eq_some hfind
      constructor
      · intro v
        constructor
        · intro heq
          cases heq
          exact hdeclared
        · exact fun hv => congrArg Except.ok (h.node_unique hdeclared hv)
      · exact fun err =>
          ⟨nofun, fun hnot => absurd (mem_ids.2 ⟨_, hdeclared⟩) hnot.1⟩
  | none =>
      have hnot : i ∉ d.ids := by
        intro hi
        obtain ⟨r, hr, rfl⟩ := List.mem_map.1 hi
        simpa using List.find?_eq_none.1 hfind r hr
      constructor
      · exact fun v => ⟨nofun, fun hv => absurd (mem_ids.2 ⟨v, hv⟩) hnot⟩
      · intro err
        simp [hnot, eq_comm]

/-- An edge between declared vertices is read as its arc, and any other is
refused for the first vertex that is not declared. -/
theorem arcOf_sound (h : Distinct d.vertices) (earlier : List EdgeRecord)
    (e : EdgeRecord) :
    (∀ a, Topology.arcOf d e = .ok a → d.Joins e a)
      ∧ ∀ err, Topology.arcOf d e = .error err → d.EdgeFlaw earlier e err := by
  unfold Topology.arcOf
  constructor
  · intro a ha
    obtain ⟨s, hs, ha⟩ := except_bind_eq_ok.1 ha
    obtain ⟨t, ht, ha⟩ := except_bind_eq_ok.1 ha
    obtain rfl := except_pure_eq_ok.1 ha
    exact ⟨((nodeOf_exact h _).1 s).1 hs, ((nodeOf_exact h _).1 t).1 ht⟩
  · intro err herr
    rcases except_bind_eq_error.1 herr with hs | ⟨s, hs, herr⟩
    · obtain ⟨hunknown, rfl⟩ := ((nodeOf_exact h _).2 err).1 hs
      exact .source hunknown
    · have hknown : e.source ∈ d.ids :=
        mem_ids.2 ⟨s, ((nodeOf_exact h _).1 s).1 hs⟩
      rcases except_bind_eq_error.1 herr with ht | ⟨t, -, herr⟩
      · obtain ⟨hunknown, rfl⟩ := ((nodeOf_exact h _).2 err).1 ht
        exact .target hknown hunknown
      · cases herr

/-- The arcs are read one by one, and a double ends the reading. -/
theorem arcsOf_cons {arcs : List Arc} (es : List EdgeRecord)
    (ha : Topology.arcOf d e = .ok a) :
    Topology.arcsOf d arcs (e :: es)
      = if a ∈ arcs then .error (.duplicateArc d.identifier a)
        else (Topology.arcsOf d (a :: arcs) es).map (a :: ·) := by
  rw [Topology.arcsOf, ha]
  show (if a ∈ arcs then _ else Topology.arcsOf d (a :: arcs) es >>= _) = _
  cases Topology.arcsOf d (a :: arcs) es <;> rfl

/-- The arcs that some edges were read as. -/
def Read (d : Description) (earlier : List EdgeRecord)
    (arcs : List Arc) : Prop :=
  ∀ a, a ∈ arcs ↔ ∃ e ∈ earlier, d.Joins e a

/-- One more edge adds its arc to those that were read. -/
theorem Read.concat {earlier : List EdgeRecord} {arcs : List Arc}
    (hread : d.Read earlier arcs) (h : Distinct d.vertices)
    (hjoins : d.Joins e a) : d.Read (earlier ++ [e]) (a :: arcs) := by
  intro b
  have hb : d.Joins e b ↔ b = a := by
    constructor
    · exact fun hb => h.arc_unique hb hjoins
    · intro heq
      rw [heq]
      exact hjoins
  have hearlier := hread b
  simp [hearlier, or_and_right, exists_or, hb, or_comm]

/-- One edge record is read: it has a flaw and is refused for it, or it becomes
an arc and the rest is read. -/
theorem arcsOf_step {earlier : List EdgeRecord} {arcs : List Arc}
    (hread : d.Read earlier arcs) (h : Distinct d.vertices) (e : EdgeRecord)
    (es : List EdgeRecord) :
    (∃ err, d.EdgeFlaw earlier e err ∧ Topology.arcsOf d arcs (e :: es)
      = .error err)
      ∨ ∃ a, d.Joins e a ∧ (∀ err, ¬d.EdgeFlaw earlier e err)
        ∧ Topology.arcsOf d arcs (e :: es)
          = (Topology.arcsOf d (a :: arcs) es).map (a :: ·) := by
  obtain ⟨hok, herror⟩ := arcOf_sound h earlier e
  cases ha : Topology.arcOf d e with
  | error err =>
      refine .inl ⟨err, herror err ha, ?_⟩
      unfold Topology.arcsOf
      rw [ha]
      rfl
  | ok a =>
      have hjoins := hok a ha
      rw [arcsOf_cons es ha]
      by_cases hagain : a ∈ arcs
      · rw [if_pos hagain]
        obtain ⟨e', he', hjoins'⟩ := (hread a).1 hagain
        obtain rfl := h.edge_unique hjoins hjoins'
        exact .inl ⟨_, .duplicate hjoins he', rfl⟩
      · rw [if_neg hagain]
        have hnew : e ∉ earlier :=
          fun he => hagain ((hread a).2 ⟨e, he, hjoins⟩)
        exact .inr ⟨a, hjoins,
          no_edgeFlaw_iff.2 ⟨hjoins.source_mem, hjoins.target_mem, hnew⟩, rfl⟩

/-- Edges are read as their arcs up to the end or to a first flaw. -/
theorem arcsOf_sound (h : Distinct d.vertices) (es : List EdgeRecord)
    {earlier : List EdgeRecord} {arcs : List Arc} (hclean : d.Linked earlier)
    (hread : d.Read earlier arcs) :
    (∀ as, Topology.arcsOf d arcs es = .ok as →
        d.Linked (earlier ++ es) ∧ List.Forall₂ d.Joins es as)
      ∧ ∀ err, Topology.arcsOf d arcs es = .error err →
        FirstFlaw d.Linked d.EdgeFlaw (earlier ++ es) err := by
  induction es generalizing earlier arcs with
  | nil =>
      rw [List.append_nil]
      constructor
      · intro as has
        cases has
        exact ⟨hclean, .nil⟩
      · intro err herr
        cases herr
  | cons e es ih =>
      rcases arcsOf_step hread h e es with ⟨err, hflaw, hstop⟩
        | ⟨a, hjoins, hnone, hrest⟩
      · rw [hstop]
        constructor
        · intro as has
          cases has
        · intro err' herr
          cases herr
          exact ⟨earlier, e, es, rfl, hclean, hflaw⟩
      · have hnext := ((scan_edges h).concat earlier e).2 ⟨hclean, hnone⟩
        obtain ⟨hok, herror⟩ := ih hnext (hread.concat h hjoins)
        rw [hrest, List.append_cons earlier e es]
        cases hlater : Topology.arcsOf d (a :: arcs) es with
        | error err =>
            constructor
            · intro as has
              cases has
            · intro err' herr
              cases herr
              exact herror err hlater
        | ok later =>
            obtain ⟨hlinked, hall⟩ := hok later hlater
            constructor
            · intro as has
              cases has
              exact ⟨hlinked, .cons hjoins hall⟩
            · intro err herr
              cases herr

/-- Edges are accepted exactly if they are clean, and otherwise refused for
their first flaw. -/
theorem arcsOf_exact (h : Distinct d.vertices) :
    ((∃ as, Topology.arcsOf d [] d.edges = .ok as) ↔ d.Linked d.edges)
      ∧ (∀ err, Topology.arcsOf d [] d.edges = .error err
        ↔ FirstFlaw d.Linked d.EdgeFlaw d.edges err)
      ∧ ∀ as, Topology.arcsOf d [] d.edges = .ok as →
        List.Forall₂ d.Joins d.edges as := by
  have hnil : d.Linked [] := ⟨by simp, by simp, .nil⟩
  have hnone : d.Read [] [] := by simp [Read]
  obtain ⟨hok, herror⟩ := arcsOf_sound h d.edges hnil hnone
  obtain ⟨haccepted, hrefused⟩ :=
    (scan_edges h).exact (fun as has => (hok as has).1) herror
  exact ⟨haccepted, hrefused, fun as has => (hok as has).2⟩

end Description

end FlowPricing
