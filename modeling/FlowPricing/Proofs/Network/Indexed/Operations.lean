/-
What holds of a network of numbers however it is used (`Represented`): its
order holds every vertex once and no edge goes backward in it, its two maps
are the inverses of the labels of the vertices and of the arcs of the edges,
there is a weight for every edge and no other, and the terminals are two
different vertices, each the only one that matches its pattern.

Each operation, whether it succeeds or fails, changes the weights and the
cached path at most, and keeps as many weights; it replies what the network of
nodes and arcs replies that the numbers stand for, and leaves what they stand
for then (`Mirrors.perform`). The rest is an induction over the operations
(`represented_throughout`).
-/
import FlowPricing.Proofs.Network.Indexed.Paths
import FlowPricing.Proofs.Network.Ledger

namespace FlowPricing.IndexedNetwork

open FlowPricing.Network (Operation Reply)

variable {x : IndexedNetwork} {a : Arc} {e : Nat} {weights : List Float}
  {as : List Arc}

-- ========================================================== operations

/-- What becomes of a network by an attempt to change it. -/
def attempt (x : IndexedNetwork) :
    Except NetworkError IndexedNetwork →
      Except NetworkError Reply × IndexedNetwork
  | .ok y => (.ok .done, y)
  | .error err => (.error err, x)

/-- Performs one operation. -/
def perform : Operation → IndexedNetwork →
    Except NetworkError Reply × IndexedNetwork
  | .set a w, x => x.attempt (x.setWeight a w)
  | .add a delta, x => x.attempt (x.addWeight a delta)
  | .addMany changes, x => x.attempt (x.addWeights changes)
  | .reset, x => (.ok .done, x.resetWeights)
  | .weight a, x => ((x.weight a).map .weight, x)
  | .shortestPath, x =>
      match x.shortestPath with
      | .ok (p, y) => (.ok (.path p), y)
      | .error err => (.error err, x)
  | .distances v, x => ((x.distancesFrom v).map .distances, x)

-- ============================================================= weights

/-- Changing the weight of an edge changes that of its arc. -/
theorem zip_modify (has : as.Nodup) (he : as[e]? = some a) (f : Float → Float) :
    (⟨as.zip (weights.modify e f)⟩ : Table Arc Float)
      = Table.modify ⟨as.zip weights⟩ a f := by
  unfold Table.modify
  congr 1
  apply List.ext_getElem?
  intro k
  rw [List.getElem?_map, List.zip, List.getElem?_zipWith, List.getElem?_zipWith,
    List.getElem?_modify]
  cases hk : as[k]? with
  | none => rfl
  | some b =>
      have hb : b = a ↔ e = k := by
        constructor
        · intro heq
          have hlt : k < as.length := (List.getElem?_eq_some_iff.1 hk).1
          exact ((List.getElem?_inj hlt has).1 (by rw [hk, he, heq])).symm
        · intro heq
          rw [heq, hk] at he
          exact Option.some.inj he
      cases weights[k]? with
      | none => rfl
      | some w => by_cases heq : e = k <;> simp [hb, heq]

/-- The edge that an arc is looked up as, if the network has it. -/
theorem edgeOf_cases (hx : x.Sound) (a : Arc) :
    (∃ e, x.edgeOf a = .ok e ∧ x.graph.arcs[e]? = some a
        ∧ x.view.weights.get? a = some (x.weightAt e))
      ∨ x.edgeOf a = .error (.unknownArc x.group a)
        ∧ x.view.weights.get? a = none := by
  have hkeys : x.view.weights.keys = x.graph.arcs := by
    apply List.map_fst_zip
    rw [hx.weights, Graph.length_arcs]
  have hnodup : x.view.weights.Nodup := by
    rw [Table.Nodup, hkeys]
    exact hx.arcs_nodup
  unfold edgeOf
  cases hget : x.arcToEdge.get? a with
  | none =>
      refine .inr ⟨rfl, ?_⟩
      rw [Table.get?_eq_none_iff, hkeys]
      exact hx.arcToEdge.get?_eq_none.1 hget
  | some e =>
      have he := (hx.arcToEdge.get?_eq_some hx.arcs_nodup).1 hget
      have hpair := getElem?_zip_weights hx he
      exact .inl ⟨e, rfl, he, (Table.get?_eq_some_iff hnodup).2
        (List.mem_of_getElem? hpair)⟩

/-- Other weights, of the same number, keep a network sound. -/
theorem Sound.reweighted (hx : x.Sound)
    (hlength : weights.length = x.weights.length) (cached : Option Path) :
    Sound { x with weights, cached } :=
  { hx with weights := hlength.trans hx.weights }

-- ============================================================ mirroring

/-- The same reply on both sides, and a network of numbers that stands for the
other; only its weights and its cached path may differ from those it had. -/
structure Mirrors (x : IndexedNetwork)
    (p : Except NetworkError Reply × IndexedNetwork)
    (q : Except NetworkError Reply × Network) : Prop where
  reply : p.1 = q.1
  view : p.2.view = q.2
  length : p.2.weights.length = x.weights.length
  unchanged : p.2 = { x with weights := p.2.weights, cached := p.2.cached }

namespace Mirrors

/-- What does not change the network. -/
theorem same {r r' : Except NetworkError Reply} (h : r = r') :
    Mirrors x (r, x) (r', x.view) :=
  ⟨h, rfl, rfl, rfl⟩

/-- A change of one weight. -/
theorem modified (hx : x.Sound) (a : Arc) (f : Float → Float) :
    Mirrors x
      (x.attempt (x.edgeOf a >>= fun e =>
        return { x with weights := x.weights.modify e f, cached := none }))
      (x.view.attempt (x.view.modifyWeight a f)) := by
  have hgroup : x.view.group = x.group := rfl
  unfold Network.modifyWeight Network.containsArc Table.contains
  rcases edgeOf_cases hx a with ⟨e, he, harc, hget⟩ | ⟨he, hget⟩
  · rw [he, hget]
    refine ⟨rfl, ?_, List.length_modify .., rfl⟩
    show Network.mk _ ⟨x.graph.arcs.zip (x.weights.modify e f)⟩ _ = _
    rw [zip_modify hx.arcs_nodup harc]
    rfl
  · rw [he, hget, hgroup]
    exact same rfl

/-- The edges of several changes are looked up before any is made: the first
change of an arc that the network does not have refuses them all. -/
theorem mapM_resolve (hx : x.Sound) (changes : List (Arc × Float)) :
    (∃ edges, changes.mapM x.resolve = .ok edges
        ∧ changes.find? (fun c => !x.view.containsArc c.1) = none
        ∧ List.Forall₂ (fun c k => x.graph.arcs[k.1]? = some c.1 ∧ k.2 = c.2)
          changes edges)
      ∨ ∃ c, changes.mapM x.resolve = .error (.unknownArc x.group c.1)
        ∧ changes.find? (fun c => !x.view.containsArc c.1) = some c := by
  induction changes with
  | nil => exact .inl ⟨[], rfl, rfl, .nil⟩
  | cons c changes ih =>
      rw [List.mapM_cons, resolve]
      rcases edgeOf_cases hx c.1 with ⟨e, he, harc, hget⟩ | ⟨he, hget⟩
      · have hknown : x.view.containsArc c.1 = true := by
          unfold Network.containsArc Table.contains
          rw [hget]
          rfl
        rw [he, List.find?_cons_of_neg (by simp [hknown])]
        rcases ih with ⟨edges, hedges, hfind, hall⟩ | ⟨c', hstop, hfind⟩
        · refine .inl ⟨(e, c.2) :: edges, ?_, hfind, .cons ⟨harc, rfl⟩ hall⟩
          rw [hedges]
          rfl
        · refine .inr ⟨c', ?_, hfind⟩
          rw [hstop]
          rfl
      · have hunknown : x.view.containsArc c.1 = false := by
          unfold Network.containsArc Table.contains
          rw [hget]
          rfl
        refine .inr ⟨c, ?_, List.find?_cons_of_pos (by simp [hunknown])⟩
        rw [he]
        rfl

/-- Additions edge by edge are additions arc by arc. -/
theorem foldl_modify (has : as.Nodup) {changes : List (Arc × Float)}
    {edges : List (Nat × Float)}
    (hall : List.Forall₂ (fun c k => as[k.1]? = some c.1 ∧ k.2 = c.2)
      changes edges)
    (weights : List Float) :
    (⟨as.zip (edges.foldl (fun ws k => ws.modify k.1 (· + k.2))
      weights)⟩ : Table Arc Float)
        = changes.foldl (fun t c => t.modify c.1 (· + c.2)) ⟨as.zip weights⟩
      ∧ (edges.foldl (fun ws k => ws.modify k.1 (· + k.2)) weights).length
        = weights.length := by
  induction hall generalizing weights with
  | nil => exact ⟨rfl, rfl⟩
  | cons hc _ ih =>
      obtain ⟨harc, hdelta⟩ := hc
      obtain ⟨htable, hlength⟩ := ih (weights.modify _ _)
      rw [List.foldl_cons, List.foldl_cons, htable, hlength,
        zip_modify has harc, hdelta]
      exact ⟨rfl, List.length_modify ..⟩

/-- Batches of changes are mirrored, refused ones included. -/
theorem addWeights (hx : x.Sound) (changes : List (Arc × Float)) :
    Mirrors x (x.attempt (x.addWeights changes))
      (x.view.attempt (x.view.addWeights changes)) := by
  have hgroup : x.view.group = x.group := rfl
  unfold IndexedNetwork.addWeights Network.addWeights
  rcases mapM_resolve hx changes with ⟨edges, hedges, hfind, hall⟩
    | ⟨c, hstop, hfind⟩
  · obtain ⟨htable, hlength⟩ := foldl_modify hx.arcs_nodup hall x.weights
    rw [hedges, hfind]
    refine ⟨rfl, ?_, hlength, rfl⟩
    show Network.mk _ ⟨x.graph.arcs.zip (edges.foldl _ x.weights)⟩ _ = _
    rw [htable]
    rfl
  · rw [hstop, hfind, hgroup]
    exact same rfl

/-- So is setting all weights to zero. -/
theorem resetWeights :
    Mirrors x (.ok .done, x.resetWeights) (.ok .done, x.view.resetWeights) := by
  refine ⟨rfl, ?_, List.length_map _, rfl⟩
  show Network.mk _ ⟨x.graph.arcs.zip (x.weights.map fun _ => 0.0)⟩ _ = _
  rw [List.zip_map_right]
  rfl

/-- So is asking for one weight. -/
theorem weight (hx : x.Sound) (a : Arc) :
    Mirrors x (IndexedNetwork.perform (.weight a) x)
      (Network.perform (.weight a) x.view) := by
  have hgroup : x.view.group = x.group := rfl
  apply same
  unfold IndexedNetwork.weight Network.weight
  rcases edgeOf_cases hx a with ⟨e, he, -, hget⟩ | ⟨he, hget⟩
  · rw [he, hget]
    rfl
  · rw [he, hget, hgroup]
    rfl

/-- So is asking for the path, with what is remembered of it. -/
theorem shortestPath (hx : x.Sound) :
    Mirrors x (IndexedNetwork.perform .shortestPath x)
      (Network.perform .shortestPath x.view) := by
  have hcached : x.view.cached = x.cached := rfl
  unfold IndexedNetwork.perform Network.perform
  simp only
  unfold IndexedNetwork.shortestPath Network.shortestPath
  rw [hcached]
  cases x.cached with
  | some p => exact same rfl
  | none =>
      simp only
      rw [← findPath_view hx]
      cases x.findPath with
      | ok p => exact ⟨rfl, rfl, rfl, rfl⟩
      | error err => exact same rfl

/-- One operation. -/
theorem perform (hx : x.Sound) (op : Operation) :
    Mirrors x (IndexedNetwork.perform op x) (Network.perform op x.view) := by
  cases op with
  | set a w =>
      have hset : x.setWeight a w = x.edgeOf a >>= fun e =>
          return { x with
            weights := x.weights.modify e fun _ => w, cached := none } := by
        unfold setWeight
        simp only [List.set_eq_modify]
      show Mirrors x (x.attempt (x.setWeight a w)) _
      rw [hset]
      exact modified hx a fun _ => w
  | add a delta => exact modified hx a (· + delta)
  | addMany changes => exact addWeights hx changes
  | reset => exact resetWeights
  | weight a => exact weight hx a
  | shortestPath => exact shortestPath hx
  | distances v => exact same (congrArg _ (distancesFrom_view hx v))

/-- Any number of operations. -/
theorem inTurn (hx : x.Sound) (ops : List Operation) :
    (FlowPricing.inTurn IndexedNetwork.perform ops x).1
        = (FlowPricing.inTurn Network.perform ops x.view).1
      ∧ (FlowPricing.inTurn IndexedNetwork.perform ops x).2.view
        = (FlowPricing.inTurn Network.perform ops x.view).2
      ∧ ∃ weights cached, weights.length = x.weights.length
        ∧ (FlowPricing.inTurn IndexedNetwork.perform ops x).2
          = { x with weights, cached } := by
  induction ops generalizing x with
  | nil => exact ⟨rfl, rfl, x.weights, x.cached, rfl, rfl⟩
  | cons op ops ih =>
      have hstep := perform hx op
      have hsound : (IndexedNetwork.perform op x).2.Sound := by
        rw [hstep.unchanged]
        exact hx.reweighted hstep.length _
      obtain ⟨hreplies, hview, weights, cached, hlength, hend⟩ := ih hsound
      refine ⟨?_, ?_, weights, cached, hlength.trans hstep.length, ?_⟩
      · rw [inTurn_fst_cons, inTurn_fst_cons, hstep.reply, hreplies, hstep.view]
      · rw [inTurn_snd_cons, inTurn_snd_cons, hview, hstep.view]
      · rw [inTurn_snd_cons, hend, hstep.unchanged]

end Mirrors

-- ======================================================= representation

/-- The vertex `v` is the one that matches a pattern. -/
structure Carries (g : Graph) (pattern : Node → Bool) (v : Nat) : Prop where
  vertex : v < g.vertexCount
  only : ∀ (u : Nat) (n : Node), g.labels[u]? = some n →
    (pattern n = true ↔ u = v)

/-- What the parts of a network of numbers are to each other. -/
structure Represented (x : IndexedNetwork) : Prop where
  order_nodup : x.order.Nodup
  mem_order : ∀ v : Nat, v ∈ x.order ↔ v < x.graph.vertexCount
  forward : ∀ (e u v : Nat), x.graph.edges[e]? = some (u, v) →
    u ∈ x.order ∧ v ∈ x.order ∧ x.order.idxOf u < x.order.idxOf v
  arcToEdge : ∀ (a : Arc) (e : Nat), x.arcToEdge.get? a = some e
    ↔ x.graph.arc? e = some a
  arcToEdge_size : x.arcToEdge.size = x.graph.edgeCount
  arc_unique : ∀ (e e' : Nat) (a : Arc), x.graph.arc? e = some a →
    x.graph.arc? e' = some a → e = e'
  vertexOfNode : ∀ (n : Node) (v : Nat),
    x.vertexOfNode.get? n = some v ↔ x.graph.labels[v]? = some n
  vertexOfNode_size : x.vertexOfNode.size = x.graph.vertexCount
  weights : x.weights.length = x.graph.edgeCount
  source : Carries x.graph Node.isSource x.source
  sink : Carries x.graph Node.isSink x.sink
  source_ne_sink : x.source ≠ x.sink

/-- No node matches both patterns. -/
theorem isSink_of_isSource {n : Node} (h : n.isSource = true) :
    n.isSink = false := by
  unfold Node.isSource at h
  unfold Node.isSink
  rw [Bool.and_eq_true, beq_iff_eq] at h
  rw [h.2]
  exact Bool.and_eq_false_iff.2 (.inr (by decide))

/-- A sound network with its source and its sink is represented. -/
theorem Sound.represented (hx : x.Sound)
    (hsource : Carries x.graph Node.isSource x.source)
    (hsink : Carries x.graph Node.isSink x.sink) : x.Represented := by
  have hmem : ∀ v, v ∈ x.order ↔ v < x.graph.vertexCount := fun v =>
    hx.order_perm.mem_iff.trans List.mem_range
  have hedge : ∀ a e, x.arcToEdge.get? a = some e ↔ x.graph.arc? e = some a :=
    fun a e => by
    rw [hx.arcToEdge.get?_eq_some hx.arcs_nodup, Graph.arc?_eq]
  exact {
    order_nodup := hx.order_perm.nodup_iff.2 List.nodup_range
    mem_order := hmem
    forward := by
      intro e u v he
      have hin := List.mem_of_getElem? he
      exact ⟨(hmem u).2 (hx.graph.source_lt _ hin),
        (hmem v).2 (hx.graph.target_lt _ hin), hx.forward _ hin⟩
    arcToEdge := hedge
    arcToEdge_size := hx.arcToEdge.size_eq.trans (Graph.length_arcs _)
    arc_unique := by
      intro e e' a he he'
      rw [← hedge] at he he'
      exact Option.some.inj (he.symm.trans he')
    vertexOfNode :=
      fun n v => hx.vertexOfNode.get?_eq_some hx.graph.labels_nodup
    vertexOfNode_size := hx.vertexOfNode.size_eq
    weights := hx.weights
    source := hsource
    sink := hsink
    source_ne_sink := by
      intro heq
      have hnode := Graph.getElem?_labels hsource.vertex
      have hfirst := (hsource.only _ _ hnode).2 rfl
      have hlast := (hsink.only _ _ hnode).2 heq
      rw [isSink_of_isSource hfirst] at hlast
      cases hlast }

/-- A terminal that is the only match among the nodes is the only one among the
vertices. -/
theorem Sound.carries (hx : x.Sound) {pattern : Node → Bool} {v : Nat}
    (hv : v < x.graph.vertexCount)
    (h : ∀ n, n ∈ x.graph.labels ∧ pattern n = true ↔ n = x.graph.label v) :
    Carries x.graph pattern v := by
  refine ⟨hv, ?_⟩
  intro u n hn
  obtain ⟨hu, rfl⟩ := Graph.getElem?_labels_eq_some.1 hn
  constructor
  · intro hmatch
    exact Graph.label_inj hx.graph.labels_nodup hu hv
      ((h _).1 ⟨List.mem_of_getElem? hn, hmatch⟩)
  · intro heq
    exact ((h _).2 (congrArg x.graph.label heq)).2

/-- A description is refused by number exactly as it is by node, and otherwise
becomes the numbers of the same network. Whatever is asked of it from then on,
in whatever order, and whether it fails or not: what the parts of the network
are to each other stays as it was from the start, nothing but the weights and
the cached path ever changes, and all replies are those of the network of
nodes and arcs. -/
theorem represented_throughout (d : Description) :
    Network.ofDescription d = (ofDescription d).map view
      ∧ ∀ x, ofDescription d = .ok x → ∀ ops : List Operation,
        (inTurn perform ops x).2.Represented
        ∧ (∃ weights cached, (inTurn perform ops x).2
          = { x with weights, cached })
        ∧ (inTurn perform ops x).1 = (inTurn Network.perform ops x.view).1
        ∧ (inTurn perform ops x).2.view
          = (inTurn Network.perform ops x.view).2 := by
  have hbuilt := matches_ofDescription d
  constructor
  · generalize Network.ofDescription d = n at hbuilt
    generalize ofDescription d = x at hbuilt
    cases hbuilt with
    | ok h => exact congrArg Except.ok h.2.symm
    | error err => rfl
  · intro x hx ops
    rw [hx] at hbuilt
    obtain ⟨n, hn, hsound, rfl⟩ : ∃ n, Network.ofDescription d = .ok n ∧ x.Sound
      ∧ x.view = n := by
      generalize Network.ofDescription d = n at hbuilt
      cases hbuilt with
      | ok h => exact ⟨_, rfl, h⟩
    have hdeclared := Network.declared_of_ofDescription hn
    have hsource := hsound.carries hsound.source_lt hdeclared.source
    have hsink := hsound.carries hsound.sink_lt hdeclared.sink
    obtain ⟨hreplies, hview, weights, cached, hlength, hend⟩ :=
      Mirrors.inTurn hsound ops
    refine ⟨?_, ⟨weights, cached, hend⟩, hreplies, hview⟩
    rw [hend]
    exact (hsound.reweighted hlength cached).represented hsource hsink

/-- The diamond, also after a batch that was refused: its weights are those of
the batch that succeeded, and the path over the arc they made cheaper is kept.
-/
theorem represented_throughout_sample :
    ∃ x, ofDescription Network.sampleDiamond = .ok x
      ∧ (inTurn perform Network.sampleOperations x).2.Represented
      ∧ (inTurn perform Network.sampleOperations x).2.order = [0, 2, 1, 3]
      ∧ (inTurn perform Network.sampleOperations x).2.weights
        = [0.0, -3.0, 0.0, 0.0]
      ∧ (inTurn perform Network.sampleOperations x).1.count
        (.ok .done) = 1 := by
  have hrun : Action.yields (ofDescription Network.sampleDiamond) (fun x =>
      let run := inTurn perform Network.sampleOperations x
      decide (run.2.order = [0, 2, 1, 3])
        && decide (run.2.weights = [0.0, -3.0, 0.0, 0.0])
        && decide (run.1.count (.ok .done) = 1)) = true := by
    decide +kernel
  obtain ⟨x, hx, hrun⟩ := Action.exists_of_yields hrun
  simp only [Bool.and_eq_true, decide_eq_true_iff] at hrun
  obtain ⟨⟨horder, hweights⟩, hdone⟩ := hrun
  have hrepresented := (represented_throughout Network.sampleDiamond).2 x hx
    Network.sampleOperations
  exact ⟨x, hx, hrepresented.1, horder, hweights, hdone⟩

end FlowPricing.IndexedNetwork
