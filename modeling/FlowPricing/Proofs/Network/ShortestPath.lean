/-
Networks that can be relied on (`Network.Sound`), and what their shortest
path queries are worth. Every operation keeps a network sound: its arcs
keep their weights, and a path is only cached while it is what the query
would find.

A query on a sound network never fails (`findPath_total`), whatever the
weights are. The path it returns is a route that weighs what the path
says, or there is none; and if the totals of all routes are finite, no
route weighs less (`findPath_minimal`).
-/
import FlowPricing.Proofs.Network.Labels

namespace FlowPricing.Network

variable {n n' : Network} {p : Path}

/-- A network as its operations keep it. -/
structure Sound (n : Network) : Prop where
  shape : n.topology.WellFormed
  keys : n.weights.keys = n.topology.arcs
  fresh : ∀ p, n.cached = some p → n.findPath = .ok p

-- ========================================================== operations

/-- A new network is sound. -/
theorem sound_of_ofDescription {d : Description} (h : ofDescription d = .ok n) :
    n.Sound := by
  unfold ofDescription at h
  cases ht : Topology.ofDescription d with
  | error e =>
      rw [ht] at h
      exact nomatch h
  | ok t =>
      rw [ht] at h
      obtain rfl := Except.ok.inj h
      exact ⟨Topology.wellFormed_of_ofDescription ht, Table.keys_fill _ _,
        fun _ hp => nomatch hp⟩

/-- Other weights for the same arcs, and nothing cached. -/
theorem Sound.reweighted (h : n.Sound) {weights : Table Arc Float}
    (hk : weights.keys = n.weights.keys) :
    Sound { n with weights, cached := none } :=
  ⟨h.shape, hk.trans h.keys, fun _ hp => nomatch hp⟩

/-- A change of one weight keeps a network sound, and its topology. -/
theorem sound_of_modifyWeight (h : n.Sound) {a : Arc} {f : Float → Float}
    (hn : n.modifyWeight a f = .ok n') :
    n'.Sound ∧ n'.topology = n.topology := by
  unfold modifyWeight at hn
  split at hn
  · obtain rfl := Except.ok.inj hn
    exact ⟨h.reweighted (Table.keys_modify _ _ _), rfl⟩
  · exact nomatch hn

/-- Changing weights one after another keeps the arcs they belong to. -/
theorem keys_foldl_modify (changes : List (Arc × Float)) (t : Table Arc Float) :
    (changes.foldl (fun t c => t.modify c.1 (· + c.2)) t).keys = t.keys := by
  induction changes generalizing t with
  | nil => rfl
  | cons c changes ih =>
      rw [List.foldl_cons, ih, Table.keys_modify]

/-- The network after additions to its weights. -/
def adding (n : Network) (changes : List (Arc × Float)) : Network :=
  { n with
    weights := changes.foldl (fun t c => t.modify c.1 (· + c.2)) n.weights
    cached := none }

/-- Additions leave the arcs as they are. -/
@[simp] theorem containsArc_adding (changes : List (Arc × Float)) (a : Arc) :
    (n.adding changes).containsArc a = n.containsArc a := by
  unfold containsArc Table.contains
  rw [Bool.eq_iff_iff, Table.isSome_get?_iff, Table.isSome_get?_iff]
  show a ∈ (changes.foldl (fun t c => t.modify c.1 (· + c.2))
    n.weights).keys ↔ _
  rw [keys_foldl_modify]

/-- Several additions are made if all of their arcs are known. -/
theorem addWeights_eq_ok {changes : List (Arc × Float)} :
    n.addWeights changes = .ok n'
    ↔ (∀ c ∈ changes, n.containsArc c.1 = true) ∧ n' = n.adding changes := by
  unfold addWeights
  cases hfind : changes.find? fun c => !n.containsArc c.1 with
  | some c =>
      have hunknown : ¬n.containsArc c.1 = true := by
        simpa using List.find?_some hfind
      constructor
      · exact nofun
      · exact fun h => absurd (h.1 c (List.mem_of_find?_eq_some hfind)) hunknown
  | none =>
      have hall : ∀ c ∈ changes, n.containsArc c.1 = true := by
        simpa using List.find?_eq_none.1 hfind
      constructor
      · exact fun h => ⟨hall, (Except.ok.inj h).symm⟩
      · exact fun h => congrArg Except.ok h.2.symm

/-- Changing several weights only changes the weights. -/
theorem addWeights_eq {changes : List (Arc × Float)}
    (hn : n.addWeights changes = .ok n') :
    n' = { n with
      weights := changes.foldl (fun t c => t.modify c.1 (· + c.2)) n.weights
      cached := none } := (addWeights_eq_ok.1 hn).2

/-- Weights of arcs that a network has can always be changed. -/
theorem addWeights_total (h : n.Sound) {changes : List (Arc × Float)}
    (hall : ∀ c ∈ changes, c.1 ∈ n.topology.arcs) :
    ∃ n', n.addWeights changes = .ok n' := by
  refine ⟨_, addWeights_eq_ok.2 ⟨?_, rfl⟩⟩
  intro c hc
  have hkey : c.1 ∈ n.weights.keys := h.keys ▸ hall c hc
  exact (Table.isSome_get?_iff n.weights c.1).2 hkey

/-- So does a batch of changes. -/
theorem sound_of_addWeights (h : n.Sound) {changes : List (Arc × Float)}
    (hn : n.addWeights changes = .ok n') :
    n'.Sound ∧ n'.topology = n.topology := by
  rw [addWeights_eq hn]
  exact ⟨h.reweighted (keys_foldl_modify changes n.weights), rfl⟩

theorem Sound.resetWeights (h : n.Sound) : n.resetWeights.Sound :=
  h.reweighted (Table.keys_mapValues _ _)

/-- A query answers what it would find afresh, and remembers it. -/
theorem shortestPath_eq_ok (h : n.Sound) :
    n.shortestPath = .ok (p, n')
      ↔ n.findPath = .ok p ∧ n' = { n with cached := some p } := by
  unfold shortestPath
  cases hc : n.cached with
  | some q =>
      have hq := h.fresh q hc
      constructor
      · intro hn
        obtain ⟨rfl, rfl⟩ := Prod.mk.inj (Except.ok.inj hn)
        refine ⟨hq, ?_⟩
        rw [← hc]
      · intro h
        obtain ⟨hp, rfl⟩ := h
        obtain rfl := Except.ok.inj (hq.symm.trans hp)
        show Except.ok (q, n) = _
        rw [← hc]
  | none =>
      simp only
      rw [Action.except_bind_eq_ok]
      constructor
      · intro h
        obtain ⟨q, hq, hn⟩ := h
        obtain ⟨rfl, rfl⟩ := Prod.mk.inj (Except.ok.inj hn)
        exact ⟨hq, rfl⟩
      · intro h
        obtain ⟨hp, rfl⟩ := h
        exact ⟨p, hp, rfl⟩

/-- An answer may be kept. -/
theorem Sound.remembering (h : n.Sound) (hp : n.findPath = .ok p) :
    Sound { n with cached := some p } := by
  refine ⟨h.shape, h.keys, ?_⟩
  intro q hq
  obtain rfl := Option.some.inj hq
  exact hp

-- ============================================================= queries

/-- In a network all arcs go forward in the order. -/
theorem ordered_of_keys (hshape : n.topology.WellFormed)
    (hkeys : n.weights.keys = n.topology.arcs) :
    Labels.Ordered n.weights n.topology.order where
  weights_nodup := by
    rw [Table.Nodup, hkeys]
    exact hshape.arcs_nodup
  order_nodup := hshape.order_nodup
  forward := by
    rw [hkeys]
    exact hshape.forward

theorem Sound.ordered (h : n.Sound) :
    Labels.Ordered n.weights n.topology.order :=
  ordered_of_keys h.shape h.keys

/-- How a path is found: there is none to a sink at an infinite distance, and
else it is traced back. -/
theorem findPath_cases (hp : n.findPath = .ok p) :
    p = Path.unreachable n.group
      ∨ ∃ arcs, ((n.labelsFrom n.topology.source).distance
        n.topology.sink).isInf = false
        ∧ (n.labelsFrom n.topology.source).traceBack n.topology.source
          n.topology.vertices.length n.topology.sink = some arcs
        ∧ p = ⟨arcs, (n.labelsFrom n.topology.source).distance n.topology.sink,
          n.group⟩ := by
  unfold findPath at hp
  simp only at hp
  split at hp
  · exact .inl (Except.ok.inj hp).symm
  · next hinf =>
      split at hp
      · next arcs htrace =>
          exact .inr ⟨arcs, Bool.not_eq_true _ ▸ hinf, htrace,
            (Except.ok.inj hp).symm⟩
      · exact nomatch hp

/-- What an answer says: either that there is no path, since the sink is
at an infinite distance, or a route and what it weighs. -/
inductive Answer (n : Network) : Path → Prop
  | unreachable
      (far : ((n.labelsFrom n.topology.source).distance n.topology.sink).isInf
        = true) :
      Answer n (Path.unreachable n.group)
  | route {p : Path} (near : p.length.isInf = false) (group : p.group = n.group)
      (length : p.length
        = (n.labelsFrom n.topology.source).distance n.topology.sink)
      (leads : n.IsRoute p.arcs.reverse)
      (weighs : p.length = n.total p.arcs.reverse) :
      Answer n p

/-- A query never fails, whatever the weights are. -/
theorem findPath_total (h : n.Sound) :
    ∃ p, n.findPath = .ok p ∧ Answer n p := by
  have ho := h.ordered
  obtain ⟨hg, -⟩ := Labels.reach_spec ho n.topology.source
  unfold findPath
  simp only
  split
  · next hinf => exact ⟨_, rfl, .unreachable hinf⟩
  · next hinf =>
      have hreached : ((n.labelsFrom n.topology.source).get?
          n.topology.sink).isSome = true := by
        cases hget : (n.labelsFrom n.topology.source).get? n.topology.sink with
        | some lab => rfl
        | none =>
            exfalso
            apply hinf
            unfold Labels.distance
            rw [hget]
            exact Weight.isInf_infinity
      have hbound : n.topology.order.idxOf n.topology.sink
          ≤ n.topology.vertices.length := by
        rw [← h.shape.length_order]
        exact List.idxOf_le_length
      obtain ⟨arcs, htrace, hall, hwalk, htotal⟩ :=
        Labels.traceBack_spec ho hg hreached hbound
      have htrace' : (n.labelsFrom n.topology.source).traceBack
          n.topology.source n.topology.vertices.length n.topology.sink
          = some arcs := htrace
      rw [htrace']
      refine ⟨_, rfl, .route ?_ rfl rfl ⟨?_, hwalk⟩ htotal⟩
      · exact Bool.not_eq_true _ ▸ hinf
      · intro a ha
        rw [← h.keys]
        exact hall a (List.mem_reverse.1 ha)

/-- What the search finds is an answer. -/
theorem answer_of_findPath (h : n.Sound) (hp : n.findPath = .ok p) :
    Answer n p := by
  obtain ⟨q, hq, ha⟩ := findPath_total h
  obtain rfl := Except.ok.inj (hq.symm.trans hp)
  exact ha

/-- An answer better than some number is a route. -/
theorem Answer.route_of_lt {x : Float} (h : Answer n p) (hx : p.length < x) :
    n.IsRoute p.arcs.reverse ∧ p.length = n.total p.arcs.reverse
      ∧ p.group = n.group := by
  cases h with
  | unreachable far => exact absurd hx (Weight.not_infinity_lt x)
  | route near group length leads weighs => exact ⟨leads, weighs, group⟩

/-- If all routes have finite totals, none weighs less than the answer. -/
theorem findPath_minimal (h : n.Sound) (hp : n.findPath = .ok p)
    (hfin : ∀ arcs, n.IsRoute arcs → (n.total arcs).isFinite = true)
    {arcs : List Arc} (ha : n.IsRoute arcs) : p.length ≤ n.total arcs := by
  have ho := h.ordered
  obtain ⟨hg, ht⟩ := Labels.reach_spec ho n.topology.source
  have hroute : ∀ as, (∀ a ∈ as, a ∈ n.weights.keys) →
      Walk n.topology.source n.topology.sink as → n.IsRoute as := by
    intro as hin hwalk
    refine ⟨?_, hwalk⟩
    rw [← h.keys]
    exact hin
  have hle : (n.labelsFrom n.topology.source).distance n.topology.sink
      ≤ n.total arcs := by
    apply Labels.distance_le_total ho hg ht
    · exact fun as hin hwalk => hfin as (hroute as hin hwalk)
    · rw [h.keys]
      exact ha.inside
    · exact ha.leads
  cases answer_of_findPath h hp with
  | unreachable far =>
      -- the sink has been reached, so its distance is the total of a route
      exfalso
      have hreached := Labels.reached_of_le hle (hfin arcs ha)
      obtain ⟨as, hin, hwalk, htotal⟩ := Labels.exists_walk ho hg hreached
      have hfinite := hfin as (hroute as hin hwalk)
      have hnear := Weight.isInf_of_isFinite hfinite
      have hsame : (n.labelsFrom n.topology.source).distance n.topology.sink
          = n.total as :=
        htotal
      rw [hsame, hnear] at far
      exact nomatch far
  | route near group length leads weighs =>
      rw [length]
      exact hle

/-- If all routes have finite totals, the answer is worth a column exactly
if some route is. -/
theorem isImproving_iff (h : n.Sound) (hp : n.findPath = .ok p)
    (hfin : ∀ arcs, n.IsRoute arcs → (n.total arcs).isFinite = true)
    (tolerance : Float) :
    p.isImproving tolerance = true ↔ ∃ arcs, n.IsRoute arcs ∧ n.total arcs
      < -tolerance := by
  unfold Path.isImproving
  rw [decide_eq_true_iff]
  constructor
  · intro hlt
    obtain ⟨hroute, hlength, -⟩ := (answer_of_findPath h hp).route_of_lt hlt
    rw [hlength] at hlt
    exact ⟨_, hroute, hlt⟩
  · intro h
    obtain ⟨arcs, ha, hlt⟩ := h
    exact Weight.lt_of_le_of_lt (findPath_minimal h hp hfin ha) hlt

end FlowPricing.Network
