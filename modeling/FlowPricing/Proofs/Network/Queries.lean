/-
The query for the shortest path beside the query for distances. Both go by the
same labels, so they answer alike (`Network.queries_agree`) for all weights
whose sums stay finite: the length of the path is the sink's distance, and the
sink counts as unreachable exactly if no route leads there.

Sums that leave the finite numbers part the two. A label of minus infinity is
the total of a route, which the distances show and the path does not: infinite
lengths of both signs count as no path, and such a label is not searched on
from. Two finite weights are enough (`Network.queries_disagree`).
-/
import FlowPricing.Proofs.Network.Genuine
import FlowPricing.Proofs.Weight.Rank

namespace FlowPricing.Network

variable {d : Description} {built n : Network} {p : Path}

-- ============================================================== answers

/-- The distance of the sink, as both queries go by it. -/
def sinkDistance (n : Network) : Float :=
  (n.labelsFrom n.topology.source).distance n.topology.sink

/-- The sink counts as unreachable at both infinities. -/
theorem Answer.eq_unreachable_iff (h : Answer n p) :
    p = Path.unreachable n.group
      ↔ n.sinkDistance = Weight.infinity
        ∨ n.sinkDistance = -Weight.infinity := by
  rw [← Weight.isInf_iff]
  cases h with
  | unreachable far => exact iff_of_true rfl far
  | route near group length leads weighs =>
      apply iff_of_false
      · intro hp
        rw [hp] at near
        have hfar : (Path.unreachable n.group).length.isInf = true :=
          Weight.isInf_infinity
        rw [hfar] at near
        cases near
      · intro hfar
        rw [length] at near
        exact absurd hfar (Bool.not_eq_true _ ▸ near)

/-- The length is the distance of the sink, short of minus infinity. -/
theorem Answer.length_eq_iff (h : Answer n p) :
    p.length = n.sinkDistance ↔ n.sinkDistance ≠ -Weight.infinity := by
  cases h with
  | unreachable far =>
      rcases (Weight.isInf_iff _).1 far with hx | hx
      · have hdistance : n.sinkDistance = Weight.infinity := hx
        rw [hdistance]
        exact iff_of_true rfl Weight.infinity_ne_neg
      · have hdistance : n.sinkDistance = -Weight.infinity := hx
        rw [hdistance]
        exact iff_of_false Weight.infinity_ne_neg (not_not_intro rfl)
  | route near group length leads weighs =>
      apply iff_of_true length
      intro hx
      have hfar : p.length.isInf = true :=
        (Weight.isInf_iff _).2 (.inr (length.trans hx))
      rw [hfar] at near
      cases near

-- =============================================================== routes

/-- A sink at any distance but infinity is at the end of a route with that
total. -/
theorem exists_route_of_ne (h : n.Sound)
    (hne : n.sinkDistance ≠ Weight.infinity) :
    ∃ arcs, n.IsRoute arcs ∧ n.sinkDistance = n.total arcs := by
  cases hget : (n.labelsFrom n.topology.source).get? n.topology.sink with
  | some lab =>
      obtain ⟨arcs, hleads, htotal⟩ :=
        exists_leads h.shape h.keys (v := n.topology.sink) (by rw [hget]; rfl)
      exact ⟨arcs, ⟨hleads.inside, hleads.walk⟩, htotal⟩
  | none =>
      apply absurd _ hne
      unfold sinkDistance Labels.distance
      rw [hget]

/-- If the routes have finite totals, the distance is no minus infinity. -/
theorem sinkDistance_ne (h : n.Sound)
    (hfinite : ∀ arcs, n.IsRoute arcs → (n.total arcs).isFinite = true) :
    n.sinkDistance ≠ -Weight.infinity := by
  intro hx
  have hne : n.sinkDistance ≠ Weight.infinity := by
    rw [hx]
    exact Weight.infinity_ne_neg.symm
  obtain ⟨arcs, hroute, htotal⟩ := exists_route_of_ne h hne
  have hnear := Weight.isInf_of_isFinite (hfinite arcs hroute)
  have hfar : (n.total arcs).isInf = true :=
    (Weight.isInf_iff _).2 (.inr (htotal.symm.trans hx))
  rw [hfar] at hnear
  cases hnear

/-- If the routes have finite totals, the sink counts as unreachable exactly
if there are none. -/
theorem eq_unreachable_iff_of_finite (h : n.Sound) (hp : n.findPath = .ok p)
    (hfinite : ∀ arcs, n.IsRoute arcs → (n.total arcs).isFinite = true) :
    p = Path.unreachable n.group ↔ ¬∃ arcs, n.IsRoute arcs := by
  constructor
  · intro hfar hroutes
    obtain ⟨arcs, hroute⟩ := hroutes
    have hle := findPath_minimal h hp hfinite hroute
    rw [hfar] at hle
    exact Weight.not_infinity_le (hfinite arcs hroute) hle
  · intro hnone
    cases answer_of_findPath h hp with
    | unreachable far => rfl
    | route near group length leads weighs => exact absurd ⟨_, leads⟩ hnone

-- ============================================================== queries

/-- Both queries are always answered, whatever the weights are. The distances
hold one for the sink. The path has that length unless it is minus infinity,
and says that the sink cannot be reached exactly at the two infinities. Any
distance but infinity is the total of a route. If all routes have finite
totals, the two always agree, and the sink cannot be reached exactly if there
is no route. -/
theorem queries_agree (hbuilt : ofDescription d = .ok built)
    (hn : Descends built n) :
    ∃ p n' ds x, n.shortestPath = .ok (p, n')
      ∧ n.distancesFrom n.topology.source = .ok ds
      ∧ (∀ y, (n.topology.sink, y) ∈ ds ↔ y = x)
      ∧ (p.length = x ↔ x ≠ -Weight.infinity)
      ∧ (p = Path.unreachable n.group
        ↔ x = Weight.infinity ∨ x = -Weight.infinity)
      ∧ (x ≠ Weight.infinity → ∃ arcs, n.IsRoute arcs ∧ x = n.total arcs)
      ∧ ((∀ arcs, n.IsRoute arcs → (n.total arcs).isFinite = true) →
          p.length = x ∧ (p = Path.unreachable n.group
            ↔ ¬∃ arcs, n.IsRoute arcs)) := by
  obtain ⟨hsound, -⟩ := hn.sound hbuilt
  obtain ⟨p, hp, hanswer⟩ := findPath_total hsound
  obtain ⟨ds, hds, -, hentries⟩ := distancesFrom_eq_ok hsound.shape.start_mem
  refine ⟨p, _, ds, n.sinkDistance, (shortestPath_eq_ok hsound).2 ⟨hp, rfl⟩,
    hds, ?_, hanswer.length_eq_iff, hanswer.eq_unreachable_iff,
    exists_route_of_ne hsound, ?_⟩
  · intro y
    rw [hentries]
    exact and_iff_right hsound.shape.end_mem
  · intro hfinite
    exact ⟨hanswer.length_eq_iff.2 (sinkDistance_ne hsound hfinite),
      eq_unreachable_iff_of_finite hsound hp hfinite⟩

/-- Weights below zero whose sums stay finite. -/
theorem queries_agree_sample :
    ∃ built n p n' ds x, ofDescription sampleDiamond = .ok built
      ∧ Descends built n
      ∧ n.weight sampleArcs.1 = .ok (-3.0)
      ∧ n.shortestPath = .ok (p, n')
      ∧ n.distancesFrom n.topology.source = .ok ds
      ∧ (n.topology.sink, x) ∈ ds ∧ p.length = x
      ∧ p ≠ Path.unreachable n.group := by
  have hrun : Action.yields (ofDescription sampleDiamond) (fun built =>
      decide ((sampleLoaded (-3.0) built).weight sampleArcs.1 = .ok (-3.0))
        && (sampleLoaded (-3.0) built).finiteWithin
          built.topology.vertices.length 0.0 built.topology.source) = true := by
    decide +kernel
  obtain ⟨built, hbuilt, hrun⟩ := Action.exists_of_yields hrun
  simp only [Bool.and_eq_true, decide_eq_true_iff] at hrun
  obtain ⟨hweight, hwithin⟩ := hrun
  have hn := sampleLoaded_descends hbuilt (-3.0)
  have hfinite := finiteFrom_of_finiteWithin (hn.sound hbuilt).1.shape hwithin
  obtain ⟨p, n', ds, x, hp, hds, hx, -, -, -, hagree⟩ := queries_agree hbuilt hn
  obtain ⟨hlength, hfar⟩ :=
    hagree fun arcs h => hfinite _ arcs ⟨h.inside, h.leads⟩
  have hroute := isRoute_sampleRoute hbuilt
  refine ⟨built, _, p, n', ds, x, hbuilt, hn, hweight, hp, hds, (hx x).2 rfl,
    hlength, ?_⟩
  intro hnone
  exact hfar.1 hnone ⟨sampleRoute, hroute.inside, hroute.leads⟩

/-- Two finite weights whose sum is minus infinity: the sink is at that
distance, at the end of a route, and yet the path says that it cannot be
reached. -/
theorem queries_disagree :
    ∃ built n p n' ds, ofDescription sampleDiamond = .ok built
      ∧ Descends built n
      ∧ (∀ a ∈ n.topology.arcs, (weightOf n.weights a).isFinite = true)
      ∧ n.shortestPath = .ok (p, n')
      ∧ n.distancesFrom n.topology.source = .ok ds
      ∧ (n.topology.sink, -Weight.infinity) ∈ ds ∧ n.IsRoute sampleRoute
      ∧ p = Path.unreachable n.group ∧ p.length ≠ -Weight.infinity := by
  have hrun : Action.yields (ofDescription sampleDiamond) (fun built =>
      let n := sampleLoaded (-1.7976931348623157e308) built
      decide (∀ a ∈ n.topology.arcs, (weightOf n.weights a).isFinite = true)
        && decide (n.sinkDistance = -Weight.infinity)) = true := by
    decide +kernel
  obtain ⟨built, hbuilt, hrun⟩ := Action.exists_of_yields hrun
  simp only [Bool.and_eq_true, decide_eq_true_iff] at hrun
  obtain ⟨hweights, hdistance⟩ := hrun
  have hn := sampleLoaded_descends hbuilt (-1.7976931348623157e308)
  obtain ⟨hsound, -⟩ := hn.sound hbuilt
  obtain ⟨p, hp, hanswer⟩ := findPath_total hsound
  obtain ⟨ds, hds, -, hentries⟩ := distancesFrom_eq_ok hsound.shape.start_mem
  have hroute := isRoute_sampleRoute hbuilt
  have hfar := hanswer.eq_unreachable_iff.2 (.inr hdistance)
  have hlength : p.length ≠ -Weight.infinity := by
    rw [hfar]
    exact Weight.infinity_ne_neg
  exact ⟨built, _, p, _, ds, hbuilt, hn, hweights,
    (shortestPath_eq_ok hsound).2 ⟨hp, rfl⟩, hds,
    (hentries _ _).2 ⟨hsound.shape.end_mem, hdistance.symm⟩,
    ⟨hroute.inside, hroute.leads⟩, hfar, hlength⟩

end FlowPricing.Network
