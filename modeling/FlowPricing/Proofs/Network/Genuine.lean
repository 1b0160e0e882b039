/-
Shortest-path queries never fail, and the paths they return are genuine
(`Network.shortestPath_genuine`). This holds of every network that was built
from a description, with any weights for its arcs, numbers or not, and after
any operations (`Network.Descends`).

A path that leads anywhere is a walk along arcs of the network from its source
to its sink (`Network.Genuine`). It has at least one arc, since a source is no
sink, and visits no vertex twice, since walks only go forward in the order of
the vertices (`stops_ascending`). Its length is finite and summed arc by arc, so
no weight on the way can be infinite or not a number. That the sink cannot be
reached is never said where all routes have finite totals and there is one.
-/
import FlowPricing.Proofs.Network.Construction
import FlowPricing.Proofs.Network.Distances
import FlowPricing.Proofs.Registry.Reachable

namespace FlowPricing

variable {weights : Table Arc Float} {order : List Node} {arcs : List Arc}
  {a : Arc} {u v : Node}

-- =============================================================== walks

/-- The vertices that a walk out of `u` visits. -/
def stops (u : Node) (arcs : List Arc) : List Node := u :: arcs.map Arc.target

/-- A walk visits later and later vertices. -/
theorem stops_ascending
    (hforward : ∀ a ∈ arcs, order.idxOf a.source < order.idxOf a.target)
    (hwalk : Walk u v arcs) :
    (stops u arcs).Pairwise fun x y => order.idxOf x < order.idxOf y := by
  induction arcs generalizing u with
  | nil => exact List.pairwise_singleton _ _
  | cons a arcs ih =>
      obtain ⟨rfl, hrest⟩ := hwalk
      have hstep := hforward a List.mem_cons_self
      have hlater :=
        ih (fun b hb => hforward b (List.mem_cons_of_mem a hb)) hrest
      refine List.pairwise_cons.2 ⟨?_, hlater⟩
      intro y hy
      rcases List.mem_cons.1 hy with rfl | hy
      · exact hstep
      · exact Nat.lt_trans hstep ((List.pairwise_cons.1 hlater).1 y hy)

/-- Every weight in a finite total is finite. -/
theorem isFinite_weightOf_of_totalFrom {base : Float}
    (h : (totalFrom weights base arcs).isFinite = true) (ha : a ∈ arcs) :
    (weightOf weights a).isFinite = true := by
  induction arcs generalizing base with
  | nil => exact absurd ha List.not_mem_nil
  | cons b arcs ih =>
      rcases List.mem_cons.1 ha with rfl | ha
      · exact (Weight.isFinite_of_add (isFinite_of_totalFrom h)).2
      · exact ih h ha

namespace Network

variable {d : Description} {built n : Network} {p : Path}

/-- No route comes to a vertex twice. -/
theorem IsRoute.nodup_stops (h : n.IsRoute arcs)
    (hshape : n.topology.WellFormed) :
    (stops n.topology.source arcs).Nodup := by
  have hascending :=
    stops_ascending (fun a ha => hshape.forward a (h.inside a ha)) h.leads
  refine hascending.imp ?_
  intro x y hlt heq
  rw [heq] at hlt
  exact Nat.lt_irrefl _ hlt

/-- A route has fewer arcs than the network has vertices. -/
theorem IsRoute.length_lt (h : n.IsRoute arcs)
    (hshape : n.topology.WellFormed) :
    arcs.length < n.topology.vertices.length := by
  have hsubset : stops n.topology.source arcs ⊆ n.topology.vertices := by
    intro x hx
    rcases List.mem_cons.1 hx with rfl | hx
    · exact hshape.start_mem
    · obtain ⟨a, ha, rfl⟩ := List.mem_map.1 hx
      exact hshape.target_mem a (h.inside a ha)
  have hlength := ((h.nodup_stops hshape).subperm hsubset).length_le
  simpa [stops] using hlength

-- ============================================================= networks

/-- `n` came out of `built`: its arcs were given weights of any kind, and any
operations were performed after that. -/
def Descends (built n : Network) : Prop :=
  ∃ weights : Table Arc Float, weights.keys = built.topology.arcs
    ∧ Later { built with weights, cached := none } n

/-- Whatever came out of a network that was built can be relied on. -/
theorem Descends.sound (h : Descends built n)
    (hbuilt : ofDescription d = .ok built) :
    n.Sound ∧ n.topology = built.topology := by
  obtain ⟨weights, hkeys, hlater⟩ := h
  have hsound := sound_of_ofDescription hbuilt
  exact hlater.sound (hsound.reweighted (hkeys.trans hsound.keys.symm))

-- =============================================================== paths

/-- A path that leads from the source of a network to its sink, and its
length. -/
structure Genuine (n : Network) (p : Path) : Prop where
  nonempty : p.arcs ≠ []
  group : p.group = n.group
  route : n.IsRoute p.arcs.reverse
  simple : (stops n.topology.source p.arcs.reverse).Nodup
  short : p.arcs.length < n.topology.vertices.length
  weights : ∀ a ∈ p.arcs, ∃ w, n.weight a = .ok w ∧ w.isFinite = true
  finite : p.length.isFinite = true
  weighs : p.length = n.total p.arcs.reverse

/-- The source of a declared network is not its sink. -/
theorem source_ne_sink (h : Declared d n) :
    n.topology.source ≠ n.topology.sink := by
  have hsource := ((h.source n.topology.source).2 rfl).2
  have hsink := ((h.sink n.topology.sink).2 rfl).2
  intro heq
  rw [heq] at hsource
  simp only [Node.isSource, Node.isSink, Bool.and_eq_true,
    beq_iff_eq] at hsource hsink
  rw [hsource.2] at hsink
  exact absurd hsink.2 (by decide)

/-- A route that a query answers with is genuine, unless it leads nowhere. -/
theorem genuine_of_route (h : n.Sound)
    (hends : n.topology.source ≠ n.topology.sink)
    (hfinite : p.length.isFinite = true) (hgroup : p.group = n.group)
    (hroute : n.IsRoute p.arcs.reverse)
    (hweighs : p.length = n.total p.arcs.reverse) :
    n.Genuine p where
  nonempty := by
    intro hnil
    have hleads := hroute.leads
    rw [hnil] at hleads
    exact hends hleads
  group := hgroup
  route := hroute
  simple := hroute.nodup_stops h.shape
  short := by
    have hlength := hroute.length_lt h.shape
    rwa [List.length_reverse] at hlength
  weights := by
    intro a ha
    have ha' : a ∈ p.arcs.reverse := List.mem_reverse.2 ha
    have hin : a ∈ n.weights.keys := by
      rw [h.keys]
      exact hroute.inside a ha'
    obtain ⟨w, hw⟩ :=
      Option.isSome_iff_exists.1 ((Table.isSome_get?_iff n.weights a).2 hin)
    have htotal : (totalFrom n.weights 0.0 p.arcs.reverse).isFinite = true := by
      rw [hweighs] at hfinite
      exact hfinite
    have hfin := isFinite_weightOf_of_totalFrom htotal ha'
    unfold weightOf at hfin
    rw [hw] at hfin
    refine ⟨w, ?_, hfin⟩
    unfold weight
    rw [hw]
  finite := hfinite
  weighs := hweighs

/-- An answer says that there is no way, or it is a genuine path. -/
theorem Answer.unreachable_or_genuine (h : Answer n p) (hsound : n.Sound)
    (hends : n.topology.source ≠ n.topology.sink) :
    p = Path.unreachable n.group ∨ n.Genuine p := by
  cases h with
  | unreachable => exact .inl rfl
  | route near group length leads weighs =>
      right
      have hnumber : p.length.isNaN = false := by
        rw [length]
        exact (Labels.reach_spec hsound.ordered n.topology.source).1.number _
      have hfinite := Weight.isFinite_of_not_isInf hnumber near
      exact genuine_of_route hsound hends hfinite group leads weighs

/-- A query for the shortest path never fails, whatever the weights are. It
answers that the sink cannot be reached, or with a genuine path. If all routes
have finite totals and there is one, the path is genuine and none weighs less.
-/
theorem shortestPath_genuine (hbuilt : ofDescription d = .ok built)
    (hn : Descends built n) :
    ∃ p n', n.shortestPath = .ok (p, n')
      ∧ (p = Path.unreachable n.group ∨ n.Genuine p)
      ∧ ((∀ arcs, n.IsRoute arcs → (n.total arcs).isFinite = true) →
          ∀ arcs, n.IsRoute arcs → n.Genuine p ∧ p.length ≤ n.total arcs) := by
  obtain ⟨hsound, htopology⟩ := hn.sound hbuilt
  obtain ⟨p, hp, hanswer⟩ := findPath_total hsound
  have hends : n.topology.source ≠ n.topology.sink := by
    rw [htopology]
    exact source_ne_sink (declared_of_ofDescription hbuilt)
  have heither := hanswer.unreachable_or_genuine hsound hends
  refine ⟨p, _, (shortestPath_eq_ok hsound).2 ⟨hp, rfl⟩, heither, ?_⟩
  intro hfinite arcs hroute
  have hle := findPath_minimal hsound hp hfinite hroute
  refine ⟨heither.resolve_left ?_, hle⟩
  intro hfar
  rw [hfar] at hle
  exact Weight.not_infinity_le (hfinite arcs hroute) hle

-- ============================================================= a diamond

/-- A way through the diamond. -/
def sampleRoute : List Arc :=
  [sampleArcs.1, ⟨sampleArcs.1.target, ⟨0, 0, 35, -1, 0, false, 1⟩⟩]

/-- The diamond with a weight for the arcs on that way. -/
def sampleLoaded (w : Float) (built : Network) : Network :=
  { built with
    weights := sampleRoute.foldl (fun t a => t.modify a fun _ => w)
      built.weights
    cached := none }

/-- The loaded sample comes from the one that was built. -/
theorem sampleLoaded_descends (hbuilt : ofDescription d = .ok built)
    (w : Float) :
    Descends built (sampleLoaded w built) := by
  have hkeys : (sampleLoaded w built).weights.keys = built.weights.keys := by
    simp only [sampleLoaded, sampleRoute, List.foldl_cons, List.foldl_nil,
      Table.keys_modify]
  exact ⟨_, hkeys.trans (sound_of_ofDescription hbuilt).keys, .refl⟩

/-- The sample has this route. -/
theorem isRoute_sampleRoute (hbuilt : ofDescription sampleDiamond = .ok built) :
    built.IsRoute sampleRoute := by
  have hrun : Action.yields (ofDescription sampleDiamond) (fun n =>
      decide (∀ a ∈ sampleRoute, a ∈ n.topology.arcs)
        && decide (sampleArcs.1.source = n.topology.source)
        && decide (⟨0, 0, 35, -1, 0, false, 1⟩ = n.topology.sink)) = true := by
    decide +kernel
  obtain ⟨n, hn, hrun⟩ := Action.exists_of_yields hrun
  cases hbuilt.symm.trans hn
  simp only [Bool.and_eq_true, decide_eq_true_iff] at hrun
  obtain ⟨⟨hinside, hsource⟩, hsink⟩ := hrun
  exact ⟨hinside, hsource, rfl, hsink⟩

/-- The way that has no number for a total is no way, so the other one is taken;
and where all totals are finite, that way bounds the answer. -/
theorem shortestPath_genuine_sample :
    ∃ built, ofDescription sampleDiamond = .ok built
      ∧ (∃ n p n' w, Descends built n ∧ n.weight sampleArcs.1 = .ok w
        ∧ w.isNaN = true
          ∧ n.shortestPath = .ok (p, n') ∧ n.Genuine p)
      ∧ ∃ n p n', Descends built n ∧ n.weight sampleArcs.1 = .ok (-3.0)
          ∧ n.shortestPath = .ok (p, n') ∧ n.Genuine p
          ∧ p.length ≤ n.total sampleRoute := by
  have hrun : Action.yields (ofDescription sampleDiamond) (fun built =>
      Action.yields ((sampleLoaded (0.0 / 0.0) built).weight sampleArcs.1)
        (fun w => w.isNaN)
        && Action.yields (sampleLoaded (0.0 / 0.0) built).shortestPath
          (fun answer => decide (answer.1.length = 0.0))
        && decide ((sampleLoaded (-3.0) built).weight sampleArcs.1 = .ok (-3.0))
        && (sampleLoaded (-3.0) built).finiteWithin
          built.topology.vertices.length 0.0 built.topology.source) = true := by
    decide +kernel
  obtain ⟨built, hbuilt, hrun⟩ := Action.exists_of_yields hrun
  simp only [Bool.and_eq_true, decide_eq_true_iff] at hrun
  obtain ⟨⟨⟨hweight, hpath⟩, hthree⟩, hwithin⟩ := hrun
  have hroute := isRoute_sampleRoute hbuilt
  refine ⟨built, hbuilt, ?_, ?_⟩
  · obtain ⟨w, hw, hnan⟩ := Action.exists_of_yields hweight
    obtain ⟨⟨p, n'⟩, hp, hzero⟩ := Action.exists_of_yields hpath
    have hn := sampleLoaded_descends hbuilt (0.0 / 0.0)
    obtain ⟨q, _, hq, hgenuine, -⟩ := shortestPath_genuine hbuilt hn
    cases hp.symm.trans hq
    refine ⟨_, p, n', w, hn, hw, hnan, hp, hgenuine.resolve_left ?_⟩
    intro hfar
    rw [hfar] at hzero
    have hinfinite : ¬ Weight.infinity = 0.0 := by decide
    exact hinfinite (of_decide_eq_true hzero)
  · have hn := sampleLoaded_descends hbuilt (-3.0)
    have hfinite := finiteFrom_of_finiteWithin (hn.sound hbuilt).1.shape hwithin
    obtain ⟨p, n', hp, -, hleast⟩ := shortestPath_genuine hbuilt hn
    obtain ⟨hgenuine, hle⟩ :=
      hleast (fun arcs h => hfinite _ arcs ⟨h.inside, h.leads⟩)
      sampleRoute ⟨hroute.inside, hroute.leads⟩
    exact ⟨_, p, n', hn, hthree, hp, hgenuine, hle⟩

end Network

end FlowPricing
