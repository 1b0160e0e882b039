/-
Which of several equally short paths is found
(`Network.shortestPath_canonical`). Of the arcs that attain a distance, the
search takes the one whose source is expanded first. That choice only depends
on the distances and on the order, so walking back from the sink can go one
way only: the rule spells out the path, and nothing else follows it.

The search keeps to this at every step (`Labels.Early`), as far as the arcs out
of the expanded vertices go. A label that has just been entered is strictly
less than the one before, which was not more than any of them offered; and an
arc that only ties with a label comes too late to change it. The weights may
again be anything: a sum that is infinite or no number attains no distance on
the way to a sink within reach.
-/
import FlowPricing.Proofs.Network.Genuine

namespace FlowPricing

namespace Labels

variable {weights : Table Arc Float} {order done todo : List Node}
  {s u v w : Node} {labels : Labels} {lab : Label} {a : Arc}

-- ========================================================== single steps

/-- Following arcs leaves a label as it was, or enters what one of them offers
in its place, and that was less. -/
theorem get?_foldl_relax (base : Float) (l : List (Arc × Float))
    (labels : Labels) (v : Node) :
    (l.foldl (relax base) labels).get? v = labels.get? v
      ∨ ∃ e ∈ l, e.1.target = v
        ∧ (l.foldl (relax base) labels).get? v = some ⟨base + e.2, some e.1⟩
        ∧ base + e.2 < labels.distance v := by
  induction l generalizing labels with
  | nil => exact .inl rfl
  | cons e l ih =>
      rw [List.foldl_cons]
      rcases ih (relax base labels e) with
        hsame | ⟨e', he', htarget, hnew, hless⟩
      · rw [hsame]
        by_cases hv : e.1.target = v
        · unfold relax
          simp only
          split
          · next hlt =>
              refine .inr ⟨e, List.mem_cons_self, hv, ?_, hv ▸ hlt⟩
              rw [Table.get?_insert, if_pos hv]
          · exact .inl rfl
        · exact .inl (get?_relax_of_ne hv)
      · refine .inr ⟨e', List.mem_cons_of_mem e he', htarget, hnew, ?_⟩
        rcases distance_relax base labels e v with h | h
        · rwa [h] at hless
        · exact Weight.lt_trans hless h

/-- So does expanding a vertex. -/
theorem get?_expand (weights : Table Arc Float) (labels : Labels) (u v : Node) :
    (expand weights labels u).get? v = labels.get? v
      ∨ ∃ e ∈ outgoing weights u, e.1.target = v
        ∧ (expand weights labels u).get? v
          = some ⟨labels.distance u + e.2, some e.1⟩
        ∧ labels.distance u + e.2 < labels.distance v := by
  by_cases hinf : (labels.distance u).isInf = true
  · rw [expand_of_isInf hinf]
    exact .inl rfl
  · rw [expand_of_not_isInf hinf]
    exact get?_foldl_relax _ _ _ _

/-- What a label says about the arc it was reached over. -/
theorem Grown.of_via (hg : Grown weights order s done labels)
    (hlab : labels.get? v = some lab) (hvia : lab.via = some a) :
    a ∈ weights.keys ∧ a.target = v ∧ a.source ∈ done
      ∧ (labels.get? a.source).isSome = true
      ∧ lab.distance = labels.distance a.source + weightOf weights a := by
  rcases hg.grown v lab hlab with rfl | ⟨b, hb, hrest⟩
  · -- the start was reached over none
    obtain rfl := Option.some.inj (hg.start.symm.trans hlab)
    exact nomatch hvia
  · obtain rfl := Option.some.inj (hvia.symm.trans hb)
    exact hrest

-- ======================================================= the invariant

/-- No arc out of an expanded vertex that attains a label comes before the one
that the label was entered for. -/
def Early (weights : Table Arc Float) (order done : List Node)
    (labels : Labels) : Prop :=
  ∀ v lab a, labels.get? v = some lab → lab.via = some a →
    ∀ b ∈ weights.keys, b.target = v → b.source ∈ done →
      (labels.distance b.source).isInf = false →
      (labels.distance b.source + weightOf weights b == lab.distance) = true →
      order.idxOf a.source ≤ order.idxOf b.source

/-- Expanding the next vertex keeps that true. -/
theorem Early.expand (h : Early weights order done labels)
    (hg : Grown weights order s done labels) (ht : Tight weights done labels)
    (ho : Ordered weights order) (hsplit : order = done ++ u :: todo) :
    Early weights order (done ++ [u]) (Labels.expand weights labels u) := by
  intro v lab a hlab hvia b hb htarget hsource hfinite hsum
  rw [distance_congr (ho.get?_expand hsplit hsource)] at hfinite hsum
  rcases get?_expand weights labels u v with
    hsame | ⟨e, he, htarget', hnew, hless⟩
  · rw [hsame] at hlab
    rcases List.mem_append.1 hsource with hsource | hsource
    · exact h v lab a hlab hvia b hb htarget hsource hfinite hsum
    · -- the arc just followed only ties
      have hearlier := ho.idxOf_lt hsplit (hg.of_via hlab hvia).2.2.1
      rw [List.mem_singleton.1 hsource]
      exact hearlier.le
  · obtain rfl := Option.some.inj (hnew.symm.trans hlab)
    obtain rfl := Option.some.inj hvia
    rw [((mem_outgoing ho.weights_nodup).1 he).1]
    rcases List.mem_append.1 hsource with hsource | hsource
    · -- an earlier arc that offers as much would have offered less than the
      -- old label
      have hbeaten := Weight.lt_of_beq_of_lt hsum hless
      rw [← htarget] at hbeaten
      exact absurd hbeaten (ht b hb hsource hfinite)
    · rw [List.mem_singleton.1 hsource]

/-- At the end of the search, no arc that attains a distance comes before the
one that was taken. -/
theorem reach_early (ho : Ordered weights order) (s : Node) :
    Early weights order order (reach weights order s) := by
  have hall := reach_induction (s := s)
    (P := fun done labels => Grown weights order s done labels
      ∧ Tight weights done labels
      ∧ Early weights order done labels)
    ⟨grown_start, fun _ _ hsource => absurd hsource List.not_mem_nil,
      fun _ _ _ _ _ _ _ _ hsource => absurd hsource List.not_mem_nil⟩
    fun hsplit h => ⟨h.1.expand ho hsplit, h.2.1.expand ho hsplit,
      h.2.2.expand h.1 h.2.1 ho hsplit⟩
  exact hall.2.2

end Labels

namespace Network

variable {d : Description} {built n n' : Network} {p : Path} {v : Node}
  {a b : Arc} {arcs arcs' : List Arc}

-- ========================================================= the rule

/-- The distance of a vertex from the source. -/
def distance (n : Network) (v : Node) : Float :=
  (n.labelsFrom n.topology.source).distance v

/-- How far it is to the end of an arc if the arc is the last one on the way. -/
def offer (n : Network) (a : Arc) : Float :=
  n.distance a.source + weightOf n.weights a

/-- An arc into a vertex, out of one at a finite distance. -/
structure Offers (n : Network) (v : Node) (a : Arc) : Prop where
  inside : a ∈ n.topology.arcs
  target : a.target = v
  finite : (n.distance a.source).isFinite = true

/-- The arc into a vertex that the rule chooses: it attains the distance, no
other offers less, and of those that offer the same, its source comes first in
the order of the network. -/
structure Chosen (n : Network) (v : Node) (a : Arc) :
    Prop extends Offers n v a where
  attains : (n.offer a == n.distance v) = true
  least : ∀ b, n.Offers v b → ¬n.offer b < n.distance v
  earliest : ∀ b, n.Offers v b → (n.offer b == n.distance v) = true →
    n.topology.order.idxOf a.source ≤ n.topology.order.idxOf b.source

/-- Walking back to the source by the rule. -/
inductive Retraces (n : Network) : Node → List Arc → Prop
  | source : Retraces n n.topology.source []
  | step {v : Node} {a : Arc} {arcs : List Arc} (short : v ≠ n.topology.source)
      (chosen : n.Chosen v a) (rest : Retraces n a.source arcs) :
      Retraces n v (a :: arcs)

/-- The rule chooses one arc at most. -/
theorem Chosen.unique (ha : n.Chosen v a) (hb : n.Chosen v b)
    (hshape : n.topology.WellFormed) : a = b := by
  have hle := ha.earliest b hb.toOffers hb.attains
  have hge := hb.earliest a ha.toOffers ha.attains
  have hin : a.source ∈ n.topology.order :=
    hshape.forward.source_mem ha.inside
  have hsource : a.source = b.source :=
    (List.idxOf_inj hin).1 (Nat.le_antisymm hle hge)
  exact congrArg₂ Arc.mk hsource (ha.target.trans hb.target.symm)

/-- So there is one way back at most. -/
theorem Retraces.unique (h : n.Retraces v arcs) (h' : n.Retraces v arcs')
    (hshape : n.topology.WellFormed) : arcs = arcs' := by
  induction h generalizing arcs' with
  | source =>
      cases h' with
      | source => rfl
      | step short => exact absurd rfl short
  | step short chosen _ ih =>
      cases h' with
      | source => exact absurd rfl short
      | step _ chosen' rest' =>
          obtain rfl := chosen.unique chosen' hshape
          rw [ih rest']

theorem Retraces.chosen (h : n.Retraces v arcs) :
    ∀ a ∈ arcs, n.Chosen a.target a := by
  induction h with
  | source => exact fun a ha => absurd ha List.not_mem_nil
  | step short chosen _ ih =>
      intro a ha
      rcases List.mem_cons.1 ha with rfl | ha
      · exact chosen.target.symm ▸ chosen
      · exact ih a ha

-- ==================================================== what the search takes

/-- A label at a finite distance was entered for the arc that the rule
chooses. -/
theorem chosen_of_via (h : n.Sound) {lab : Label}
    (hlab : (n.labelsFrom n.topology.source).get? v = some lab)
    (hvia : lab.via = some a) (hfinite : (n.distance v).isFinite = true) :
    n.Chosen v a := by
  obtain ⟨hgrown, htight⟩ := Labels.reach_spec h.ordered n.topology.source
  have hearly := Labels.reach_early h.ordered n.topology.source
  obtain ⟨hin, htarget, -, -, hdistance⟩ := hgrown.of_via hlab hvia
  have hv : n.distance v = lab.distance := Labels.distance_of_get? hlab
  have hsum : n.distance v = n.offer a := hv.trans hdistance
  have hexpanded : ∀ b, n.Offers v b → b.source ∈ n.topology.order :=
    fun b hb => h.shape.forward.source_mem hb.inside
  refine ⟨⟨h.keys ▸ hin, htarget, ?_⟩, ?_, ?_, ?_⟩
  · rw [hsum] at hfinite
    exact (Weight.isFinite_of_add hfinite).1
  · rw [← hsum]
    exact Weight.beq_self (Weight.isNaN_of_isFinite hfinite)
  · intro b hb
    have hnot := htight b (h.keys ▸ hb.inside) (hexpanded b hb)
      (Weight.isInf_of_isFinite hb.finite)
    rw [hb.target] at hnot
    exact hnot
  · intro b hb hequal
    rw [hv] at hequal
    exact hearly v lab a hlab hvia b (h.keys ▸ hb.inside) hb.target
      (hexpanded b hb) (Weight.isInf_of_isFinite hb.finite) hequal

/-- So what is traced back from a vertex at a finite distance follows the
rule. -/
theorem retraces_of_traceBack (h : n.Sound) {bound : Nat}
    (htrace : (n.labelsFrom n.topology.source).traceBack n.topology.source bound
      v = some arcs)
    (hfinite : (n.distance v).isFinite = true) : n.Retraces v arcs := by
  induction bound generalizing v arcs with
  | zero =>
      unfold Labels.traceBack at htrace
      split at htrace
      · next hv =>
          obtain rfl := Option.some.inj htrace
          exact hv ▸ .source
      · cases htrace
  | succ bound ih =>
      unfold Labels.traceBack at htrace
      split at htrace
      · next hv =>
          obtain rfl := Option.some.inj htrace
          exact hv ▸ .source
      · next hv =>
          split at htrace
          · next a hvia =>
              obtain ⟨lab, hlab, hvia⟩ := Option.bind_eq_some_iff.1 hvia
              obtain ⟨rest, hrest, rfl⟩ := Option.map_eq_some_iff.1 htrace
              have hchosen := chosen_of_via h hlab hvia hfinite
              exact .step hv hchosen (ih hrest hchosen.finite)
          · cases htrace

/-- A path that leads anywhere is what is traced back from the sink. -/
theorem traceBack_of_findPath (hp : n.findPath = .ok p)
    (hreachable : p.isReachable = true) :
    (n.labelsFrom n.topology.source).traceBack n.topology.source
      n.topology.vertices.length
        n.topology.sink = some p.arcs
          ∧ p.length = n.distance n.topology.sink := by
  rcases findPath_cases hp with rfl | ⟨arcs, -, htrace, rfl⟩
  · have hfar : Weight.infinity.isFinite = true := hreachable
    exact absurd hfar (by decide)
  · exact ⟨htrace, rfl⟩

/-- Ties between equally short paths are broken by the order of the network.
Take any network that was built, with any weights, after any operations, whose
query finds a path. Every arc on the path is the one that the rule chooses
among those into its target: by what a query for the distances from the source
answers, and by the order the network was built with. So the rule leads back
from the sink in exactly one way, and that is the path. -/
theorem shortestPath_canonical (hbuilt : ofDescription d = .ok built)
    (hn : Descends built n) (hp : n.shortestPath = .ok (p, n'))
    (hreachable : p.isReachable = true) :
    n.topology = built.topology
      ∧ (∃ ds, n.distancesFrom n.topology.source = .ok ds
          ∧ ∀ v x, (v, x) ∈ ds ↔ v ∈ n.topology.vertices ∧ x = n.distance v)
      ∧ (∀ a ∈ p.arcs, n.Chosen a.target a)
      ∧ ∀ arcs, n.Retraces n.topology.sink arcs ↔ arcs = p.arcs := by
  obtain ⟨hsound, htopology⟩ := hn.sound hbuilt
  obtain ⟨hfind, -⟩ := (shortestPath_eq_ok hsound).1 hp
  obtain ⟨htrace, hlength⟩ := traceBack_of_findPath hfind hreachable
  have hfinite : (n.distance n.topology.sink).isFinite = true :=
    hlength ▸ hreachable
  have hretraces := retraces_of_traceBack hsound htrace hfinite
  obtain ⟨ds, hds, -, hentries⟩ := distancesFrom_eq_ok hsound.shape.start_mem
  refine ⟨htopology, ⟨ds, hds, hentries⟩, hretraces.chosen, fun arcs =>
    ⟨?_, ?_⟩⟩
  · exact fun h => h.unique hretraces hsound.shape
  · rintro rfl
    exact hretraces

/-- The arc into the sink of the diamond that is not on the way through it. -/
def sampleRival : Arc :=
  ⟨⟨0, 0, 0, 0, 2, false, 1⟩, ⟨0, 0, 35, -1, 0, false, 1⟩⟩

/-- Where nothing weighs anything, both ways through the diamond are equally
short, and the one taken is over the vertex that comes first in the order. -/
theorem shortestPath_canonical_sample :
    ∃ built n p n', ofDescription sampleDiamond = .ok built ∧ Descends built n
      ∧ n.shortestPath = .ok (p, n') ∧ p.isReachable = true
      ∧ p.arcs = sampleRoute.reverse
      ∧ n.Offers sampleRival.target sampleRival
      ∧ (n.offer sampleRival == n.distance sampleRival.target) = true
      ∧ (∃ a ∈ p.arcs, n.Chosen sampleRival.target a
          ∧ n.topology.order.idxOf a.source
            ≤ n.topology.order.idxOf sampleRival.source)
      ∧ ∀ arcs, n.Retraces n.topology.sink arcs ↔ arcs = p.arcs := by
  have hrun : Action.yields (ofDescription sampleDiamond) (fun built =>
      let n := sampleLoaded 0.0 built
      Action.yields n.shortestPath
          (fun answer =>
            answer.1.isReachable
              && decide (answer.1.arcs = sampleRoute.reverse))
        && decide (sampleRival ∈ n.topology.arcs)
          && (n.distance sampleRival.source).isFinite
        && n.offer sampleRival == n.distance sampleRival.target) = true := by
    decide +kernel
  obtain ⟨built, hbuilt, hrun⟩ := Action.exists_of_yields hrun
  simp only [Bool.and_eq_true, decide_eq_true_iff] at hrun
  obtain ⟨⟨⟨hpath, hin⟩, hfinite⟩, hties⟩ := hrun
  obtain ⟨⟨p, n'⟩, hp, hpath⟩ := Action.exists_of_yields hpath
  obtain ⟨hreachable, harcs⟩ := Bool.and_eq_true_iff.1 hpath
  have harcs := of_decide_eq_true harcs
  have hn := sampleLoaded_descends hbuilt 0.0
  obtain ⟨-, -, hchosen, hretraces⟩ :=
    shortestPath_canonical hbuilt hn hp hreachable
  have hrival : (sampleLoaded 0.0 built).Offers
      sampleRival.target sampleRival :=
    ⟨hin, rfl, hfinite⟩
  -- the last arc of the way is the first one of the path
  have hlast : ⟨sampleArcs.1.target, sampleRival.target⟩ ∈ p.arcs := by
    rw [harcs]
    exact List.mem_reverse.2 (List.mem_cons_of_mem _ List.mem_cons_self)
  have hfirst := hchosen _ hlast
  exact ⟨built, _, p, n', hbuilt, hn, hp, hreachable, harcs, hrival, hties,
    ⟨_, hlast, hfirst, hfirst.earliest _ hrival hties⟩, hretraces⟩

end Network

end FlowPricing
