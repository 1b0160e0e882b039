/-
Paths among numbers and paths among nodes. Marks and labels say the same of a
vertex and of its node (`Marks.Marked`): the same distance, and an edge and its
arc. They start out so, and following an edge keeps them so.

The edges out of a vertex are followed the newest first by number and the
oldest first by node. That makes no difference, since they lead to different
vertices and each only touches the mark of its own (`foldl_relax_reverse`). So
both find the same paths, or fail to find one alike (`findPath_view`), and the
same distances (`distancesFrom_view`).
-/
import FlowPricing.Proofs.Network.Indexed.Representation

namespace FlowPricing.IndexedNetwork

variable {x : IndexedNetwork} {m : Marks} {labels : Labels} {u v w : Nat}
  {base : Float} {e e' : Nat × Nat}

-- =============================================================== edges

/-- The edges out of a vertex, and where they lead. -/
theorem mem_outgoing :
    e ∈ x.graph.outgoing u ↔ x.graph.edges[e.1]? = some (u, e.2) := by
  unfold Graph.outgoing
  rw [List.mem_map]
  constructor
  · intro h
    obtain ⟨⟨⟨s, t⟩, k⟩, hmem, rfl⟩ := h
    obtain ⟨hin, hs⟩ := List.mem_filter.1 (List.mem_reverse.1 hmem)
    obtain rfl := of_decide_eq_true hs
    exact List.mem_zipIdx_iff_getElem?.1 hin
  · intro h
    refine ⟨((u, e.2), e.1),
      List.mem_reverse.2 (List.mem_filter.2 ⟨?_, by simp⟩), rfl⟩
    exact List.mem_zipIdx_iff_getElem?.2 h

/-- The weights are numbered like the edges. -/
theorem getElem?_weights (h : x.Sound) {k : Nat} (hk : k < x.graph.edgeCount) :
    x.weights[k]? = some (x.weightAt k) := by
  have hlt : k < x.weights.length := h.weights ▸ hk
  unfold weightAt
  rw [List.getD_eq_getElem?_getD, List.getElem?_eq_getElem hlt]
  rfl

/-- An edge gives its arc and its weight. -/
theorem getElem?_zip_weights (h : x.Sound) {k : Nat} {a : Arc}
    (hk : x.graph.arcs[k]? = some a) :
    (x.graph.arcs.zip x.weights)[k]? = some (a, x.weightAt k) := by
  have hlt := (List.getElem?_eq_some_iff.1 hk).1
  rw [Graph.length_arcs] at hlt
  exact List.getElem?_zip_eq_some.2 ⟨hk, getElem?_weights h hlt⟩

/-- The arcs beside their weights, read edge by edge. -/
theorem zip_weights (h : x.Sound) : x.graph.arcs.zip x.weights
    = x.graph.edges.zipIdx.map fun e =>
      (x.graph.arcAt e.1, x.weightAt e.2) := by
  apply List.ext_getElem?
  intro k
  rw [List.getElem?_map, List.getElem?_zipIdx, Option.map_map]
  by_cases hk : k < x.graph.edges.length
  · have harc : x.graph.arcs[k]? = some (x.graph.arcAt x.graph.edges[k]) := by
      rw [← Graph.arc?_eq, Graph.arc?, List.getElem?_eq_getElem hk,
        Option.map_some]
    rw [getElem?_zip_weights h harc, List.getElem?_eq_getElem hk,
      Option.map_some, Function.comp_apply, Nat.zero_add]
  · have hlength : (x.graph.arcs.zip x.weights).length ≤ k := by
      rw [List.length_zip, Graph.length_arcs]
      exact (Nat.min_le_left ..).trans (Nat.le_of_not_lt hk)
    rw [List.getElem?_eq_none hlength,
      List.getElem?_eq_none (Nat.le_of_not_lt hk)]
    rfl

/-- The weighted arcs out of a node are the edges out of its vertex, the other
way round. -/
theorem outgoing_view (h : x.Sound) (hu : u < x.graph.vertexCount) :
    Labels.outgoing x.view.weights (x.graph.label u)
      = (x.graph.outgoing u).reverse.map
      fun e => (x.graph.arcAt (u, e.2), x.weightAt e.1) := by
  unfold Labels.outgoing view Graph.outgoing
  simp only
  rw [zip_weights h, List.filter_map, ← List.map_reverse, List.reverse_reverse,
    List.map_map]
  have hsame : x.graph.edges.zipIdx.filter
        ((fun e : Arc × Float => decide (e.1.source = x.graph.label u))
          ∘ fun e => (x.graph.arcAt e.1, x.weightAt e.2))
      = x.graph.edges.zipIdx.filter (·.1.1 = u) := by
    apply List.filter_congr
    intro e he
    have hin : e.1 ∈ x.graph.edges :=
      List.mem_of_getElem? (List.mem_zipIdx_iff_getElem?.1 he)
    apply decide_eq_decide.2
    constructor
    · exact Graph.label_inj h.graph.labels_nodup (h.graph.source_lt _ hin) hu
    · exact fun heq => congrArg x.graph.label heq
  rw [hsame]
  apply List.map_congr_left
  intro e he
  obtain rfl := of_decide_eq_true (List.mem_filter.1 he).2
  rfl

-- =============================================================== marks

/-- Marks of vertices that say the same as labels of their nodes. -/
structure Marks.Marked (x : IndexedNetwork) (m : Marks) (labels : Labels) :
    Prop where
  distances : m.distances.length = x.graph.vertexCount
  predecessors : m.predecessors.length = x.graph.vertexCount
  distance : ∀ v < x.graph.vertexCount, m.distance v
    = labels.distance (x.graph.label v)
  via : ∀ v < x.graph.vertexCount,
    (m.predecessor v).bind x.graph.arc? = labels.via (x.graph.label v)

/-- The marks once `v` was reached over the edge `k`. -/
def Marks.reached (m : Marks) (v : Nat) (d : Float) (k : Nat) : Marks where
  distances := m.distances.set v d
  predecessors := m.predecessors.set v (some k)

/-- An edge is relaxed if it makes the way to its target shorter. -/
theorem relax_eq (x : IndexedNetwork) (base : Float) (m : Marks)
    (e : Nat × Nat) :
    x.relax base m e = if base + x.weightAt e.1 < m.distance e.2
      then m.reached e.2 (base + x.weightAt e.1) e.1 else m := rfl

/-- Reaching one vertex leaves the others' distances alone. -/
theorem Marks.distance_reached_of_ne (h : v ≠ w) (d : Float) (k : Nat) :
    (m.reached v d k).distance w = m.distance w := by
  unfold distance reached
  rw [List.getD_eq_getElem?_getD, List.getD_eq_getElem?_getD,
    List.getElem?_set_ne h]

/-- Two vertices may be reached in either order. -/
theorem Marks.reached_comm (h : v ≠ w) (d d' : Float) (k k' : Nat) :
    (m.reached v d k).reached w d' k' = (m.reached w d' k').reached v d k := by
  unfold reached
  simp only [Marks.mk.injEq]
  exact ⟨List.set_comm d d' h, List.set_comm (some k) (some k') h⟩

/-- Edges to different vertices can be followed in either order. -/
theorem relax_comm (h : e.2 ≠ e'.2) :
    x.relax base (x.relax base m e) e'
      = x.relax base (x.relax base m e') e := by
  by_cases he : base + x.weightAt e.1 < m.distance e.2
  · by_cases he' : base + x.weightAt e'.1 < m.distance e'.2
    · simp only [relax_eq, if_pos he, if_pos he',
        Marks.distance_reached_of_ne h, Marks.distance_reached_of_ne h.symm,
        Marks.reached_comm h]
    · simp only [relax_eq, if_pos he, if_neg he',
        Marks.distance_reached_of_ne h]
  · by_cases he' : base + x.weightAt e'.1 < m.distance e'.2
    · simp only [relax_eq, if_neg he, if_pos he',
        Marks.distance_reached_of_ne h.symm]
    · simp only [relax_eq, if_neg he, if_neg he']

/-- So all edges out of a vertex can be followed the oldest first. -/
theorem foldl_relax_reverse (h : x.Sound) (u : Nat) (base : Float) (m : Marks) :
    (x.graph.outgoing u).foldl (x.relax base) m
      = (x.graph.outgoing u).reverse.foldl (x.relax base) m := by
  apply (List.reverse_perm _).symm.foldl_eq'
  intro e he e' he' m'
  by_cases heq : e.2 = e'.2
  · have hget := mem_outgoing.1 he
    have hget' := mem_outgoing.1 he'
    rw [← heq, ← hget] at hget'
    have hlt : e'.1 < x.graph.edges.length := by
      rw [hget] at hget'
      exact (List.getElem?_eq_some_iff.1 hget').1
    have hsame := (List.getElem?_inj hlt h.graph.edges_nodup).1 hget'
    rw [Prod.ext hsame.symm heq]
  · exact relax_comm heq

/-- Marks and labels reach a vertex alike. -/
theorem Marks.Marked.reached (h : m.Marked x labels) (hg : x.graph.labels.Nodup)
    (hv : v < x.graph.vertexCount) {k : Nat} {a : Arc}
    (hk : x.graph.arc? k = some a) (d : Float) :
    (m.reached v d k).Marked x
      (labels.insert (x.graph.label v) ⟨d, some a⟩) := by
  refine ⟨?_, ?_, ?_, ?_⟩
  · exact List.length_set.trans h.distances
  · exact List.length_set.trans h.predecessors
  · intro w hw
    unfold Labels.distance
    rw [Graph.get?_insert_label hg _ _ hv hw]
    by_cases hvw : v = w
    · subst hvw
      have hlt : v < m.distances.length := h.distances ▸ hv
      rw [if_pos rfl]
      unfold Marks.distance Marks.reached
      rw [List.getD_eq_getElem?_getD, List.getElem?_set_self hlt]
      rfl
    · rw [if_neg hvw, Marks.distance_reached_of_ne hvw]
      exact h.distance w hw
  · intro w hw
    unfold Labels.via
    rw [Graph.get?_insert_label hg _ _ hv hw]
    unfold Marks.predecessor Marks.reached
    rw [List.getD_eq_getElem?_getD]
    by_cases hvw : v = w
    · subst hvw
      have hlt : v < m.predecessors.length := h.predecessors ▸ hv
      rw [if_pos rfl, List.getElem?_set_self hlt]
      exact hk
    · rw [if_neg hvw, List.getElem?_set_ne hvw, ← List.getD_eq_getElem?_getD]
      exact h.via w hw

/-- Following an edge, and following its arc. -/
theorem Marks.Marked.relax (h : m.Marked x labels) (hx : x.Sound)
    (he : e ∈ x.graph.outgoing u) (base : Float) :
    (x.relax base m e).Marked x
      (Labels.relax base labels (x.graph.arcAt (u, e.2), x.weightAt e.1)) := by
  have hget := mem_outgoing.1 he
  have harc : x.graph.arc? e.1 = some (x.graph.arcAt (u, e.2)) := by
    unfold Graph.arc?
    rw [hget]
    rfl
  have hv : e.2 < x.graph.vertexCount :=
    hx.graph.target_lt (u, e.2) (List.mem_of_getElem? hget)
  have hdistance := h.distance e.2 hv
  rw [relax_eq]
  unfold Labels.relax
  simp only
  show Marked x _ (if _ < labels.distance (x.graph.label e.2) then _ else _)
  rw [← hdistance]
  split
  · exact h.reached hx.graph.labels_nodup hv harc _
  · exact h

/-- They relax all edges of a vertex alike. -/
theorem Marks.Marked.foldl_relax (h : m.Marked x labels) (hx : x.Sound)
    (base : Float) {es : List (Nat × Nat)}
    (hes : ∀ e ∈ es, e ∈ x.graph.outgoing u) :
    (es.foldl (x.relax base) m).Marked x
      ((es.map fun e => (x.graph.arcAt (u, e.2), x.weightAt e.1)).foldl
        (Labels.relax base) labels) := by
  induction es generalizing m labels with
  | nil => exact h
  | cons e es ih =>
      exact ih (h.relax hx (hes e List.mem_cons_self) base)
        fun e' he' => hes e' (List.mem_cons_of_mem e he')

/-- Expanding a vertex, and expanding its node. -/
theorem Marks.Marked.expand (h : m.Marked x labels) (hx : x.Sound)
    (hu : u < x.graph.vertexCount) :
    (x.expand m u).Marked x
      (Labels.expand x.view.weights labels (x.graph.label u)) := by
  unfold IndexedNetwork.expand Labels.expand
  simp only
  rw [← h.distance u hu]
  split
  · exact h
  · rw [foldl_relax_reverse hx, outgoing_view hx hu]
    exact h.foldl_relax hx _ fun e he => List.mem_reverse.1 he

/-- They start alike. -/
theorem marked_start (hx : x.Sound) (hv : v < x.graph.vertexCount) :
    (Marks.start x.graph.vertexCount v).Marked x
      (Labels.start (x.graph.label v)) := by
  have hget : ∀ w < x.graph.vertexCount,
      (Labels.start (x.graph.label v)).get? (x.graph.label w)
      = if v = w then some ⟨0.0, none⟩ else none := by
    intro w hw
    unfold Labels.start
    rw [Graph.get?_insert_label hx.graph.labels_nodup _ _ hv hw,
      Table.get?_empty]
  refine ⟨?_, List.length_replicate, ?_, ?_⟩
  · exact List.length_set.trans List.length_replicate
  · intro w hw
    unfold Labels.distance Marks.distance Marks.start
    rw [hget w hw, List.getD_eq_getElem?_getD]
    by_cases hvw : v = w
    · have hlt : v < (List.replicate x.graph.vertexCount
          Weight.infinity).length := by
        rwa [List.length_replicate]
      rw [if_pos hvw, ← hvw, List.getElem?_set_self hlt]
      rfl
    · rw [if_neg hvw, List.getElem?_set_ne hvw,
        List.getElem?_replicate, if_pos hw]
      rfl
  · intro w hw
    unfold Labels.via Marks.predecessor Marks.start
    rw [hget w hw, List.getD_eq_getElem?_getD,
      List.getElem?_replicate, if_pos hw]
    by_cases hvw : v = w
    · rw [if_pos hvw]
      rfl
    · rw [if_neg hvw]
      rfl

/-- Expanding vertices in turn, and their nodes. -/
theorem Marks.Marked.foldl_expand (h : m.Marked x labels) (hx : x.Sound)
    {l : List Nat} (hl : x.graph.Within l) : (l.foldl x.expand m).Marked x
      ((l.map x.graph.label).foldl (Labels.expand x.view.weights) labels) := by
  induction l generalizing m labels with
  | nil => exact h
  | cons u l ih =>
      exact ih (h.expand hx (hl u List.mem_cons_self))
        fun w hw => hl w (List.mem_cons_of_mem u hw)

/-- The marks and the labels that are left in the end. -/
theorem marked_relaxFrom (hx : x.Sound) (hv : v < x.graph.vertexCount) :
    (x.relaxFrom v).Marked x (x.view.labelsFrom (x.graph.label v)) := by
  have hwithin : x.graph.Within x.order :=
    fun w hw => List.mem_range.1 (hx.order_perm.mem_iff.1 hw)
  exact (marked_start hx hv).foldl_expand hx hwithin

-- ============================================================= queries

/-- The way back by number, and the one by node. -/
theorem walkBack_eq (hx : x.Sound) (h : m.Marked x labels) (bound : Nat)
    (hv : v < x.graph.vertexCount) : x.walkBack m bound v
      = match labels.traceBack (x.graph.label x.source) bound
        (x.graph.label v) with
        | some arcs => .ok arcs
        | none => .error (.brokenPredecessorChain x.group) := by
  have hsource : ∀ {v}, v < x.graph.vertexCount →
      (x.graph.label v = x.graph.label x.source ↔ v = x.source) := fun hv =>
    ⟨Graph.label_inj hx.graph.labels_nodup hv hx.source_lt, fun heq =>
      congrArg _ heq⟩
  induction bound generalizing v with
  | zero =>
      unfold walkBack Labels.traceBack
      by_cases hs : v = x.source
      · rw [if_pos hs, if_pos ((hsource hv).2 hs)]
      · rw [if_neg hs, if_neg (mt (hsource hv).1 hs)]
  | succ bound ih =>
      have hvia := h.via v hv
      unfold walkBack Labels.traceBack
      by_cases hs : v = x.source
      · rw [if_pos hs, if_pos ((hsource hv).2 hs)]
      rw [if_neg hs, if_neg (mt (hsource hv).1 hs), ← hvia]
      cases hpred : m.predecessor v with
      | none => rfl
      | some k =>
          rw [Option.bind_some]
          unfold Graph.arc?
          cases hends : x.graph.edges[k]? with
          | none => simp only [hends, Option.map_none]
          | some ends =>
              have hlt := hx.graph.source_lt ends (List.mem_of_getElem? hends)
              have hback : (x.graph.arcAt ends).source
                  = x.graph.label ends.1 := rfl
              simp only [hends, Option.map_some, ih hlt, hback]
              cases labels.traceBack (x.graph.label x.source) bound
                (x.graph.label ends.1) <;> rfl

/-- The same path is found, or the same error. -/
theorem findPath_view (hx : x.Sound) : x.findPath = x.view.findPath := by
  have hm := marked_relaxFrom hx hx.source_lt
  have hlength := hm.distance x.sink hx.sink_lt
  have hback := walkBack_eq hx hm x.graph.vertexCount hx.sink_lt
  unfold findPath Network.findPath
  simp only
  rw [hback, hlength]
  show _ = if ((x.view.labelsFrom (x.graph.label x.source)).distance
      (x.graph.label x.sink)).isInf = true then _ else _
  split
  · rfl
  · show _ = match (x.view.labelsFrom (x.graph.label x.source)).traceBack
        (x.graph.label x.source) x.graph.vertexCount (x.graph.label x.sink) with
      | some arcs => _
      | none => _
    cases (x.view.labelsFrom (x.graph.label x.source)).traceBack
      (x.graph.label x.source) x.graph.vertexCount
      (x.graph.label x.sink) <;> rfl

/-- The same distances are found, or the same error. -/
theorem distancesFrom_view (hx : x.Sound) (n : Node) :
    x.distancesFrom n = x.view.distancesFrom n := by
  unfold distancesFrom Network.distancesFrom
  cases hget : x.vertexOfNode.get? n with
  | none =>
      have hnot : n ∉ x.view.topology.vertices :=
        hx.vertexOfNode.get?_eq_none.1 hget
      rw [if_neg hnot]
      rfl
  | some start =>
      have hstart := (hx.vertexOfNode.get?_eq_some hx.graph.labels_nodup).1 hget
      have hin : n ∈ x.view.topology.vertices := List.mem_of_getElem? hstart
      obtain ⟨hlt, rfl⟩ := Graph.getElem?_labels_eq_some.1 hstart
      have hm := marked_relaxFrom hx hlt
      rw [if_pos hin]
      simp only
      have hsort := List.map_mergeSort (l := x.view.topology.vertices)
        (r := fun a b => a.columns.le b.columns) (s := fun p q =>
          p.1.columns.le q.1.columns)
        (f := fun u =>
          (u, (x.view.labelsFrom (x.graph.label start)).distance u))
        fun _ _ _ _ => rfl
      rw [hsort]
      congr 2
      show _ = x.graph.labels.map _
      rw [← Graph.map_label_range, List.map_map]
      apply List.map_congr_left
      intro u hu
      exact congrArg (x.graph.label u, ·) (hm.distance u (List.mem_range.1 hu))

end FlowPricing.IndexedNetwork
