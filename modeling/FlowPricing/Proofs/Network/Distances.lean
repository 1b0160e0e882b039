/-
Distances are what the lightest walks weigh. A distance query answers for
every vertex once, and if the walks from its start have finite totals, the
answer for a vertex is the least of the totals of the walks that lead there
(`Network.IsDistance`), whatever the signs of the weights.

The search labels a vertex exactly if some walk leads there, with the total of
one of them (`Labels.exists_walk`), and none is lighter
(`Labels.distance_le_total`). Walks only go forward in the order, so none has
more arcs than there are vertices (`Leads.length_le`), and that all totals are
finite can be checked by trying them all (`Network.finiteWithin`).
-/
import FlowPricing.Proofs.Network.Ledger

namespace FlowPricing.Network

variable {n : Network} {u v start : Node} {arcs : List Arc}

-- =============================================================== walks

/-- A walk inside a network from one vertex to another. -/
structure Leads (n : Network) (u v : Node) (arcs : List Arc) : Prop where
  inside : ∀ a ∈ arcs, a ∈ n.topology.arcs
  walk : Walk u v arcs

/-- Walks only go forward in the order of the vertices. -/
theorem Leads.idxOf_le (h : n.Leads u v arcs) (hshape : n.topology.WellFormed) :
    n.topology.order.idxOf u + arcs.length ≤ n.topology.order.idxOf v := by
  obtain ⟨hinside, hwalk⟩ := h
  induction arcs generalizing u with
  | nil =>
      obtain rfl : u = v := hwalk
      exact Nat.le_refl _
  | cons a arcs ih =>
      obtain ⟨rfl, hrest⟩ := hwalk
      have hstep := hshape.forward a (hinside a List.mem_cons_self)
      have hlater :=
        ih (fun b hb => hinside b (List.mem_cons_of_mem a hb)) hrest
      rw [List.length_cons]
      omega

/-- So none has more arcs than there are vertices. -/
theorem Leads.length_le (h : n.Leads u v arcs)
    (hshape : n.topology.WellFormed) :
    arcs.length ≤ n.topology.vertices.length := by
  have hforward := h.idxOf_le hshape
  have hlast : n.topology.order.idxOf v ≤ n.topology.order.length :=
    List.idxOf_le_length
  rw [hshape.length_order] at hlast
  omega

-- ========================================================== finite totals

/-- All walks from a vertex have finite totals. -/
def FiniteFrom (n : Network) (start : Node) : Prop :=
  ∀ v arcs, n.Leads start v arcs → (n.total arcs).isFinite = true

/-- Whether all walks out of `u` with at most `bound` arcs have finite totals,
added to `base`. -/
def finiteWithin (n : Network) : Nat → Float → Node → Bool
  | 0, base, _ => base.isFinite
  | bound + 1, base, u => base.isFinite && n.topology.arcs.all fun a =>
      a.source ≠ u || n.finiteWithin bound
        (base + weightOf n.weights a) a.target

theorem isFinite_of_finiteWithin {bound : Nat} {base : Float}
    (hfinite : n.finiteWithin bound base u = true) (h : n.Leads u v arcs)
    (hlength : arcs.length ≤ bound) :
    (totalFrom n.weights base arcs).isFinite = true := by
  obtain ⟨hinside, hwalk⟩ := h
  induction arcs generalizing bound base u with
  | nil =>
      cases bound with
      | zero => exact hfinite
      | succ bound => exact (Bool.and_eq_true_iff.1 hfinite).1
  | cons a arcs ih =>
      obtain ⟨rfl, hrest⟩ := hwalk
      cases bound with
      | zero => exact absurd hlength (Nat.not_succ_le_zero _)
      | succ bound =>
          have hall := List.all_eq_true.1 (Bool.and_eq_true_iff.1 hfinite).2 a
            (hinside a List.mem_cons_self)
          have hnext : n.finiteWithin bound (base + weightOf n.weights a)
              a.target = true := by
            simpa using hall
          exact ih hnext (Nat.le_of_succ_le_succ hlength)
            (fun b hb => hinside b (List.mem_cons_of_mem a hb)) hrest

/-- To try all walks is enough. -/
theorem finiteFrom_of_finiteWithin (hshape : n.topology.WellFormed)
    (hfinite : n.finiteWithin n.topology.vertices.length 0.0 start = true) :
    n.FiniteFrom start :=
  fun _ _ h => isFinite_of_finiteWithin hfinite h (h.length_le hshape)

-- ============================================================== distances

/-- `x` is the distance of `v` from `u`: the least total of the walks from `u`
to `v`, and infinity exactly if there are none. -/
structure IsDistance (n : Network) (u v : Node) (x : Float) : Prop where
  attained : (∃ arcs, n.Leads u v arcs) →
    ∃ arcs, n.Leads u v arcs ∧ x = n.total arcs
  least : ∀ arcs, n.Leads u v arcs → x ≤ n.total arcs
  infinite : x = Weight.infinity ↔ ¬∃ arcs, n.Leads u v arcs

section Search

variable (hshape : n.topology.WellFormed)
  (hkeys : n.weights.keys = n.topology.arcs)
include hshape hkeys

/-- A walk leads to a labelled vertex that weighs what the label says. -/
theorem exists_leads (hreached : ((n.labelsFrom start).get? v).isSome = true) :
    ∃ arcs, n.Leads start v arcs ∧ (n.labelsFrom start).distance v
      = n.total arcs := by
  have hordered := ordered_of_keys hshape hkeys
  obtain ⟨hgrown, -⟩ := Labels.reach_spec hordered start
  obtain ⟨arcs, hinside, hwalk, htotal⟩ :=
    Labels.exists_walk hordered hgrown hreached
  rw [hkeys] at hinside
  exact ⟨arcs, ⟨hinside, hwalk⟩, htotal⟩

/-- No walk is lighter than the label of the vertex it leads to. -/
theorem distance_le (hfinite : n.FiniteFrom start)
    (hleads : n.Leads start v arcs) :
    (n.labelsFrom start).distance v ≤ n.total arcs := by
  have hordered := ordered_of_keys hshape hkeys
  obtain ⟨hgrown, htight⟩ := Labels.reach_spec hordered start
  apply Labels.distance_le_total hordered hgrown htight
  · intro as hinside hwalk
    rw [hkeys] at hinside
    exact hfinite v as ⟨hinside, hwalk⟩
  · rw [hkeys]
    exact hleads.inside
  · exact hleads.walk

/-- The search finds the distances. -/
theorem isDistance_labelsFrom (hfinite : n.FiniteFrom start) (v : Node) :
    n.IsDistance start v ((n.labelsFrom start).distance v) where
  attained := by
    rintro ⟨arcs, hleads⟩
    have hle := distance_le hshape hkeys hfinite hleads
    exact exists_leads hshape hkeys
      (Labels.reached_of_le hle (hfinite v arcs hleads))
  least := fun arcs hleads => distance_le hshape hkeys hfinite hleads
  infinite := by
    constructor
    · rintro hfar ⟨arcs, hleads⟩
      have hle := distance_le hshape hkeys hfinite hleads
      rw [hfar] at hle
      exact Weight.not_infinity_le (hfinite v arcs hleads) hle
    · intro hnone
      cases hget : (n.labelsFrom start).get? v with
      | none =>
          unfold Labels.distance
          rw [hget]
      | some lab =>
          obtain ⟨arcs, hleads, -⟩ :=
            exists_leads hshape hkeys (v := v) (by rw [hget]; rfl)
          exact absurd ⟨arcs, hleads⟩ hnone

/-- The start is at no distance from itself. -/
theorem distance_start (start : Node) :
    (n.labelsFrom start).distance start = 0.0 :=
  Labels.distance_of_get?
    (Labels.reach_spec (ordered_of_keys hshape hkeys) start).1.start

end Search

/-- A query from a vertex answers for every vertex, and by its label. -/
theorem distancesFrom_eq_ok (hstart : start ∈ n.topology.vertices) :
    ∃ ds, n.distancesFrom start = .ok ds
      ∧ (ds.map Prod.fst).Perm n.topology.vertices
      ∧ ∀ v x, (v, x) ∈ ds
        ↔ v ∈ n.topology.vertices ∧ x = (n.labelsFrom start).distance v := by
  unfold distancesFrom
  rw [if_pos hstart]
  refine ⟨_, rfl, ?_, ?_⟩
  · rw [List.map_map]
    show ((n.topology.vertices.mergeSort _).map id).Perm _
    rw [List.map_id]
    exact List.mergeSort_perm ..
  · intro v x
    rw [List.mem_map]
    constructor
    · rintro ⟨u, hu, heq⟩
      obtain ⟨rfl, rfl⟩ := Prod.mk.inj heq
      exact ⟨List.mem_mergeSort.1 hu, rfl⟩
    · rintro ⟨hv, rfl⟩
      exact ⟨v, List.mem_mergeSort.2 hv, rfl⟩

/-- Distances are minima over all walks. Take a network of the shape of one
that was built, with any weights for its arcs, and any of its vertices to
start from. The query answers for every vertex exactly once. If no walk from
the start has a total that is infinite or no number, each answer is the least
total of the walks to its vertex, summed from the start on; it is infinity
exactly if no walk leads there, and zero at the start. -/
theorem distancesFrom_least {d : Description} {built n : Network} {start : Node}
    (hbuilt : ofDescription d = .ok built)
    (hshape : n.topology = built.topology)
    (hweights : n.weights.keys = built.topology.arcs)
    (hstart : start ∈ built.topology.vertices) (hfinite : n.FiniteFrom start) :
    ∃ ds, n.distancesFrom start = .ok ds
      ∧ (ds.map Prod.fst).Nodup
      ∧ (∀ v, v ∈ ds.map Prod.fst ↔ v ∈ built.topology.vertices)
      ∧ (∀ v x, (v, x) ∈ ds → n.IsDistance start v x)
      ∧ (start, 0.0) ∈ ds := by
  have hwell := (sound_of_ofDescription hbuilt).shape
  rw [← hshape] at hwell hweights hstart ⊢
  obtain ⟨ds, hds, hperm, hentries⟩ := distancesFrom_eq_ok hstart
  refine ⟨ds, hds, hperm.nodup_iff.2 hwell.vertices_nodup,
    fun v => hperm.mem_iff, ?_, ?_⟩
  · intro v x hx
    obtain ⟨-, rfl⟩ := (hentries v x).1 hx
    exact isDistance_labelsFrom hwell hweights hfinite v
  · exact (hentries start 0.0).2
      ⟨hstart, (distance_start hwell hweights start).symm⟩

/-- The diamond with a weight below zero on the way over the third vertex. -/
def sampleWeighted : Except NetworkError Network := do
  let n ← ofDescription sampleDiamond
  n.setWeight sampleArcs.1 (-3.0)

/-- The arc that weighs minus three brings its target at least so near to the
source of the diamond. -/
theorem distancesFrom_least_sample :
    ∃ (n : Network) (ds : List (Node × Float)) (x : Float),
      sampleWeighted = .ok n
      ∧ n.distancesFrom sampleArcs.1.source = .ok ds
      ∧ (ds.map Prod.fst).Nodup
      ∧ (sampleArcs.1.source, 0.0) ∈ ds
      ∧ (sampleArcs.1.target, x) ∈ ds
      ∧ n.IsDistance sampleArcs.1.source sampleArcs.1.target x ∧ x ≤ -3.0 := by
  have hrun : Action.yields sampleWeighted (fun n =>
      decide (sampleArcs.1.source ∈ n.topology.vertices)
        && decide (sampleArcs.1.target ∈ n.topology.vertices)
        && decide (sampleArcs.1 ∈ n.topology.arcs)
        && n.finiteWithin n.topology.vertices.length 0.0 sampleArcs.1.source
        && decide (n.total [sampleArcs.1] = -3.0)) = true := by
    decide +kernel
  obtain ⟨n, hn, hrun⟩ := Action.exists_of_yields hrun
  simp only [Bool.and_eq_true, decide_eq_true_iff] at hrun
  obtain ⟨⟨⟨⟨hstart, hend⟩, harc⟩, hfinite⟩, hweighs⟩ := hrun
  obtain ⟨built, hbuilt, hset⟩ := Action.except_bind_eq_ok.1 hn
  obtain ⟨hsound, hshape⟩ :=
    sound_of_modifyWeight (sound_of_ofDescription hbuilt) hset
  have hweights : n.weights.keys = built.topology.arcs := by
    rw [hsound.keys, hshape]
  obtain ⟨ds, hds, hnodup, hvertices, hdistances, hzero⟩ :=
    distancesFrom_least hbuilt hshape hweights (hshape ▸ hstart)
      (finiteFrom_of_finiteWithin hsound.shape hfinite)
  obtain ⟨⟨v, x⟩, hx, rfl⟩ := List.mem_map.1 ((hvertices _).2 (hshape ▸ hend))
  have hdistance := hdistances _ x hx
  have hleads : n.Leads sampleArcs.1.source sampleArcs.1.target
      [sampleArcs.1] :=
    ⟨fun a ha => List.mem_singleton.1 ha ▸ harc, rfl, rfl⟩
  have hle := hdistance.least _ hleads
  rw [hweighs] at hle
  exact ⟨n, ds, x, hn, hds, hnodup, hzero, hx, hdistance, hle⟩

end FlowPricing.Network
