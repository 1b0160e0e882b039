/-
The weights of a round, as a plain loop leaves them. A round computes the
changes of all constraints, sorts them by network and makes them network by
network. That gives the weights of the loop one would write without any of
this (`Round.plainLoop`): constraint by constraint and arc by arc, each
change made at once in the network its arc is routed to. The additions to
any one arc are the same, in the same order, so the weights agree to the
last bit; and one fails exactly if the other does (`Solve.weigh_eq_ok`).

The invariant is that the loop, wherever it stands, has made the changes of
what it has passed (`Registry.adding`): an addition then only appends to the
changes of its own network, and to none else's.
-/
import FlowPricing.Proofs.Pricing.Phases
import FlowPricing.Proofs.Setup.Prepared

namespace FlowPricing

variable {μ : Type} {kind : PricingKind} {tolerance : Float}

-- ============================================================ networks

namespace Network

variable {n n' : Network} {changes : List (Arc × Float)} {a : Arc}
  {delta : Float}

/-- One more addition goes to the end. -/
theorem addWeight_adding : (n.adding changes).addWeight a delta = .ok n'
    ↔ n.containsArc a = true ∧ n' = n.adding (changes ++ [(a, delta)]) := by
  unfold addWeight modifyWeight
  rw [containsArc_adding]
  by_cases ha : n.containsArc a = true
  · have hlast : { n.adding changes with
          weights := (n.adding changes).weights.modify a (· + delta),
          cached := none }
        = n.adding (changes ++ [(a, delta)]) := by
      unfold adding
      rw [List.foldl_append]
      rfl
    rw [if_pos ha, hlast]
    simp only [ha, true_and, Except.ok.injEq]
    exact eq_comm
  · rw [if_neg ha]
    exact ⟨nofun, fun h => absurd h.1 ha⟩

end Network

-- ========================================================== registries

namespace Round

/-- A single change is for its own network. -/
theorem changesOf_singleton (w : WeightChange) (g : Int32) :
    changesOf [w] g = if w.group = g then [(w.arc, w.delta)] else [] := by
  unfold changesOf
  by_cases hg : w.group = g <;> simp [hg]

end Round

namespace Registry

open Round (changesOf)

variable {ε β : Type} {r r' : Registry} {n : Network} {a : Arc}
  {ws : List WeightChange} {w : WeightChange}

/-- The registry after changes of its weights. -/
def adding (r : Registry) (ws : List WeightChange) : Registry :=
  { r with networks := r.networks.map fun n => n.adding (changesOf ws n.group) }

/-- The networks that a change is meant for know its arc. -/
def Accepts (r : Registry) (w : WeightChange) : Prop :=
  ∀ n ∈ r.networks, n.group = w.group → n.containsArc w.arc = true

/-- Added changes are found with their networks. -/
theorem network?_adding (g : Int32) :
    (r.adding ws).network? g = (r.network? g).map fun n =>
      n.adding (changesOf ws n.group) := by
  unfold network? adding
  rw [List.find?_map]
  rfl

/-- Changed weights route no arc to another network. -/
theorem networkOfArc_adding : (r.adding ws).networkOfArc a
    = (r.networkOfArc a).map fun n => n.adding (changesOf ws n.group) := by
  have hfield : (r.adding ws).fields.get? a.source.network
      = r.fields.get? a.source.network := rfl
  unfold networkOfArc
  rw [hfield]
  cases r.fields.get? a.source.network with
  | none => rfl
  | some g =>
      simp only [network, network?_adding]
      cases r.network? g <;> rfl

/-- An arc is routed to a network of the registry. -/
theorem network?_of_networkOfArc (h : r.networkOfArc a = .ok n) :
    r.network? n.group = some n := by
  unfold networkOfArc at h
  cases hfield : r.fields.get? a.source.network with
  | none =>
      rw [hfield] at h
      exact nomatch h
  | some g =>
      rw [hfield] at h
      simp only at h
      rw [group_of_network h]
      unfold network at h
      cases hn : r.network? g with
      | none =>
          rw [hn] at h
          exact nomatch h
      | some m =>
          rw [hn] at h
          exact congrArg some (Except.ok.inj h)

/-- A network is changed under its group, and no other one is. -/
theorem changeNetwork_eq_ok {group : Int32}
    {f : Network → Except ε (β × Network)}
    {unknown : RegistryError → ε} {b : β} :
    changeNetwork group f unknown r = .ok b r'
      ↔ ∃ n n', r.network? group = some n ∧ f n = .ok (b, n')
          ∧ r' = { r with networks := r.networks.map fun m =>
            if m.group = group then n' else m } := by
  unfold changeNetwork network
  rw [Action.get_bind]
  cases r.network? group with
  | none => exact ⟨nofun, nofun⟩
  | some n =>
      cases hf : f n with
      | error e =>
          simp only [hf]
          refine ⟨fun h => absurd h Action.throw_ne_ok, ?_⟩
          rintro ⟨m, n', hm, hfm, -⟩
          obtain rfl := Option.some.inj hm
          rw [hf] at hfm
          exact nomatch hfm
      | ok x =>
          obtain ⟨b', n'⟩ := x
          simp only [hf]
          constructor
          · intro h
            cases h
            exact ⟨n, n', rfl, hf, rfl⟩
          · rintro ⟨m, m', hm, hfm, rfl⟩
            obtain rfl := Option.some.inj hm
            obtain ⟨rfl, rfl⟩ := Prod.mk.inj (Except.ok.inj (hf.symm.trans hfm))
            rfl

/-- Among networks of different groups, one more change only reaches the
network it is meant for. -/
theorem adding_concat (hr : r.Sound) (hn : n ∈ r.networks)
    (hg : n.group = w.group) :
    { r.adding ws with networks := (r.adding ws).networks.map fun m =>
        if m.group = w.group
          then n.adding (changesOf ws n.group ++ [(w.arc, w.delta)]) else m }
      = r.adding (ws ++ [w]) := by
  have hnetworks : (r.adding ws).networks.map (fun m =>
        if m.group = w.group
          then n.adding (changesOf ws n.group ++ [(w.arc, w.delta)]) else m)
      = (r.adding (ws ++ [w])).networks := by
    unfold adding
    rw [List.map_map]
    apply List.map_congr_left
    intro m hm
    show (if m.group = w.group
      then n.adding (changesOf ws n.group ++ [(w.arc, w.delta)])
      else m.adding (changesOf ws m.group))
        = m.adding (changesOf (ws ++ [w]) m.group)
    rw [Round.changesOf_append, Round.changesOf_singleton]
    by_cases hmw : m.group = w.group
    · obtain rfl := hr.eq_of_group hm hn (hmw.trans hg.symm)
      rw [if_pos hmw, if_pos hmw.symm]
    · rw [if_neg hmw, if_neg (Ne.symm hmw), List.append_nil]
  rw [hnetworks]
  rfl

end Registry

-- ============================================================ the loop

namespace Round

variable {r r' : Registry} {ws : List WeightChange}

/-- Adds to the weight of an arc, in the network it is routed to. -/
def addToArc (a : Arc) (delta : Float) : Action PricingError Registry Unit := do
  let r ← get
  match r.networkOfArc a with
  | .error e => throw (.registry e)
  | .ok n =>
      Registry.changeNetwork n.group (fun n =>
        match n.addWeight a delta with
        | .ok n' => .ok ((), n')
        | .error e => .error (.network e)) .registry

/-- Pushes the price of one constraint onto its arcs, if it is not within
the tolerance of zero. -/
def pushPrice (tolerance : Float) (c : Constraint) (value : Float) :
    Action PricingError Registry Unit :=
  if (-value).abs ≤ tolerance then return ()
  else c.arcs.forM fun e => addToArc e.1 (e.2 * -value)

/-- Pushes the prices of constraints onto their arcs, one at a time. -/
def plainLoop (tolerance : Float) (cs : List (Constraint × Float)) :
    Action PricingError Registry Unit :=
  cs.forM fun cv => pushPrice tolerance cv.1 cv.2

/-- The registry with a weight of zero on every arc. -/
def unweighted (r : Registry) : Registry :=
  { r with networks := r.networks.map fun n => .ofTopology n.topology }

/-- Setting all weights to zero leaves the networks as built. -/
theorem zeroWeights_eq_unweighted (hr : r.Sound) :
    zeroWeights r = unweighted r := by
  unfold zeroWeights unweighted
  congr 1
  apply List.map_congr_left
  intro n hn
  unfold Network.resetWeights Network.ofTopology Table.mapValues Table.fill
  rw [← (hr.networks n hn).keys]
  simp [Table.keys, Function.comp_def]

/-- Once changes `ws` were made, an addition to an arc is one more change,
meant for the network the arc is routed to. -/
theorem addToArc_eq_ok (hr : r.Sound) {price : Float} {e : Arc × Float}
    {u : Unit} :
    addToArc e.1 (e.2 * price) (r.adding ws) = .ok u r'
      ↔ ∃ w, weightChange r price e = .ok w ∧ r.Accepts w
        ∧ r' = r.adding (ws ++ [w]) := by
  unfold addToArc weightChange
  rw [Action.get_bind, Registry.networkOfArc_adding]
  cases hroute : r.networkOfArc e.1 with
  | error err =>
      refine ⟨fun h => absurd h Action.throw_ne_ok, ?_⟩
      rintro ⟨w, hw, -⟩
      exact nomatch hw
  | ok n =>
      have hfound := Registry.network?_of_networkOfArc hroute
      have hn : n ∈ r.networks := List.mem_of_find?_eq_some hfound
      show Registry.changeNetwork n.group _ _ (r.adding ws) = _ ↔ _
      rw [Registry.changeNetwork_eq_ok]
      simp only [Registry.network?_adding, hfound, Option.map_some,
        Option.some.injEq, Except.ok.injEq]
      constructor
      · rintro ⟨_, n', rfl, hadd, rfl⟩
        cases hw : (n.adding (changesOf ws n.group)).addWeight e.1
          (e.2 * price) with
        | error err =>
            rw [hw] at hadd
            exact nomatch hadd
        | ok m =>
            rw [hw] at hadd
            obtain rfl := (Prod.mk.inj (Except.ok.inj hadd)).2
            obtain ⟨hknown, rfl⟩ := Network.addWeight_adding.1 hw
            refine ⟨_, rfl, ?_, ?_⟩
            · intro m hm hg
              rw [hr.eq_of_group hm hn hg]
              exact hknown
            · exact Registry.adding_concat (w := ⟨n.group, e.1, e.2 * price⟩) hr
                hn rfl
      · rintro ⟨w, rfl, haccepts, rfl⟩
        have hadd : (n.adding (changesOf ws n.group)).addWeight e.1
            (e.2 * price)
            = .ok (n.adding (changesOf ws n.group ++ [(e.1, e.2 * price)])) :=
          Network.addWeight_adding.2 ⟨haccepts n hn rfl, rfl⟩
        refine ⟨_, n.adding (changesOf ws n.group ++ [(e.1, e.2 * price)]),
          rfl, ?_, ?_⟩
        · rw [hadd]
        · exact (Registry.adding_concat (w := ⟨n.group, e.1, e.2 * price⟩) hr
            hn rfl).symm

/-- The terms of a constraint, one after another, are the changes the
constraint makes. -/
theorem forM_addToArc_eq_ok (hr : r.Sound) {price : Float}
    {es : List (Arc × Float)} :
    es.forM (fun e => addToArc e.1 (e.2 * price)) (r.adding ws) = .ok () r'
      ↔ ∃ ws', es.mapM (weightChange r price) = .ok ws'
        ∧ (∀ w ∈ ws', r.Accepts w)
          ∧ r' = r.adding (ws ++ ws') := by
  simp only [Action.except_mapM_eq_ok]
  induction es generalizing ws with
  | nil =>
      rw [Action.forM_nil_eq_ok]
      simp [eq_comm]
  | cons e es ih =>
      rw [Action.forM_cons_eq_ok]
      simp only [List.forall₂_cons_left_iff, addToArc_eq_ok hr]
      constructor
      · rintro ⟨_, ⟨w, hw, haccepts, rfl⟩, hrest⟩
        obtain ⟨ws', hws', hall, rfl⟩ := ih.1 hrest
        refine ⟨w :: ws', ⟨w, ws', hw, hws', rfl⟩, ?_, ?_⟩
        · exact List.forall_mem_cons.2 ⟨haccepts, hall⟩
        · rw [List.append_assoc]
          rfl
      · rintro ⟨_, ⟨w, ws', hw, hws', rfl⟩, hall, rfl⟩
        obtain ⟨haccepts, hall⟩ := List.forall_mem_cons.1 hall
        refine ⟨_, ⟨w, hw, haccepts, rfl⟩, ih.2 ⟨ws', hws', hall, ?_⟩⟩
        rw [List.append_assoc]
        rfl

/-- The loop pushes a price exactly as the round computes its changes. -/
theorem pushPrice_eq_ok (hr : r.Sound) {c : Constraint} {value : Float} :
    pushPrice tolerance c value (r.adding ws) = .ok () r'
      ↔ ∃ ws', changesFor r tolerance c value = .ok ws'
        ∧ (∀ w ∈ ws', r.Accepts w)
          ∧ r' = r.adding (ws ++ ws') := by
  unfold pushPrice changesFor
  by_cases hle : (-value).abs ≤ tolerance
  · rw [if_pos hle, if_pos hle, Action.pure_eq_ok]
    simp [eq_comm]
  · rw [if_neg hle, if_neg hle]
    exact forM_addToArc_eq_ok hr

/-- The loop over all constraints makes the changes of all constraints. -/
theorem plainLoop_eq_ok (hr : r.Sound) {cs : List (Constraint × Float)} :
    plainLoop tolerance cs (r.adding ws) = .ok () r'
      ↔ ∃ changes, List.Forall₂ (fun cv ws' =>
        changesFor r tolerance cv.1 cv.2 = .ok ws')
            cs changes
          ∧ (∀ w ∈ changes.flatten, r.Accepts w)
            ∧ r' = r.adding (ws ++ changes.flatten) := by
  unfold plainLoop
  induction cs generalizing ws with
  | nil =>
      rw [Action.forM_nil_eq_ok]
      simp [eq_comm]
  | cons cv cs ih =>
      rw [Action.forM_cons_eq_ok]
      simp only [List.forall₂_cons_left_iff, pushPrice_eq_ok hr]
      constructor
      · rintro ⟨_, ⟨ws', hws', hall, rfl⟩, hrest⟩
        obtain ⟨changes, hchanges, hall', rfl⟩ := ih.1 hrest
        refine ⟨ws' :: changes, ⟨ws', changes, hws', hchanges, rfl⟩, ?_, ?_⟩
        · rw [List.flatten_cons, List.forall_mem_append]
          exact ⟨hall, hall'⟩
        · rw [List.flatten_cons, List.append_assoc]
      · rintro ⟨_, ⟨ws', changes, hws', hchanges, rfl⟩, hall, rfl⟩
        rw [List.flatten_cons, List.forall_mem_append] at hall
        refine ⟨_, ⟨ws', hws', hall.1, rfl⟩,
          ih.2 ⟨changes, hchanges, hall.2, ?_⟩⟩
        rw [List.flatten_cons, List.append_assoc]

-- ========================================================= in batches

/-- The batches of all networks are made exactly if every change is
accepted. -/
theorem addWeights_batches {ns : List Network} :
    List.Forall₂ (fun n n' => n.addWeights (changesOf ws n.group) = .ok n')
      r.networks ns
      ↔ (∀ w ∈ ws, r.Accepts w) ∧ ns = (r.adding ws).networks := by
  have hmem : ∀ g c, c ∈ changesOf ws g
      ↔ ∃ w ∈ ws, w.group = g ∧ (w.arc, w.delta) = c := by
    intro g c
    simp [changesOf, and_assoc]
  have heach : (∀ w ∈ ws, r.Accepts w)
      ↔ ∀ n ∈ r.networks, ∀ c ∈ changesOf ws n.group, n.containsArc c.1
        = true := by
    constructor
    · intro h n hn c hc
      obtain ⟨w, hw, hg, rfl⟩ := (hmem _ _).1 hc
      exact h w hw n hn hg.symm
    · intro h w hw n hn hg
      exact h n hn _ ((hmem _ _).2 ⟨w, hw, hg.symm, rfl⟩)
  rw [heach]
  unfold Registry.adding
  simp only
  generalize r.networks = ms
  induction ms generalizing ns with
  | nil => simp
  | cons n ms ih =>
      rw [List.forall₂_cons_left_iff, List.map_cons, List.forall_mem_cons]
      constructor
      · rintro ⟨n', ns', hn, hns, rfl⟩
        obtain ⟨hknown, rfl⟩ := Network.addWeights_eq_ok.1 hn
        obtain ⟨hall, rfl⟩ := ih.1 hns
        exact ⟨⟨hknown, hall⟩, rfl⟩
      · rintro ⟨⟨hknown, hall⟩, rfl⟩
        exact ⟨_, _, Network.addWeights_eq_ok.2 ⟨hknown, rfl⟩,
          ih.2 ⟨hall, rfl⟩, rfl⟩

end Round

-- ============================================================ the round

namespace Network

/-- All of a network but the path that it remembers. -/
def weighting (n : Network) : Topology × Table Arc Float :=
  (n.topology, n.weights)

/-- Asking for a path changes no weight. -/
theorem weighting_of_shortestPath {n n' : Network} {p : Path}
    (h : n.shortestPath = .ok (p, n')) : n'.weighting = n.weighting := by
  unfold shortestPath at h
  cases hc : n.cached with
  | some q =>
      rw [hc] at h
      obtain ⟨-, rfl⟩ := Prod.mk.inj (Except.ok.inj h)
      rfl
  | none =>
      rw [hc] at h
      obtain ⟨q, -, h⟩ := Action.except_bind_eq_ok.1 h
      obtain ⟨-, rfl⟩ := Prod.mk.inj (Except.ok.inj h)
      rfl

end Network

namespace Registry

/-- The weightings of all networks. -/
def weightings (r : Registry) : List (Topology × Table Arc Float) :=
  r.networks.map Network.weighting

/-- Acting on every network leaves the weightings alone if it does so on
each. -/
theorem leaves_eachNetwork {ε β : Type} {f : Network → Except ε (β × Network)}
    (hf : ∀ n b n', f n = .ok (b, n') → n'.weighting = n.weighting) :
    Action.Leaves weightings (eachNetwork f) := by
  apply Action.moves_focus
  intro r
  obtain ⟨ns, hns, hall⟩ := Action.each_step_after f r.networks ()
  rw [hns]
  show ns.map Network.weighting = r.networks.map Network.weighting
  rw [← List.forall₂_eq_eq_eq, List.forall₂_map_left_iff,
    List.forall₂_map_right_iff]
  refine hall.flip.imp ?_
  rintro n' n (rfl | ⟨b, hb⟩)
  · rfl
  · exact hf n b n' hb

end Registry

namespace Solve

variable [MasterProblem μ] {s t : Solve μ}

/-- The weights a round makes are those of the loop. It makes them exactly
if all multipliers are there and finite and the loop succeeds. -/
theorem weigh_eq_ok (hr : s.problem.registry.Sound) {u : Unit} :
    weigh kind tolerance s = .ok u t
      ↔ ∃ values m r,
          (s.problem.registry.constraints.map Constraint.handle).mapM
            (Round.multiplier kind)
              s.problem.master = .ok values m
          ∧ (∀ x ∈ values, x.isFinite = true)
          ∧ Round.plainLoop tolerance
            (s.problem.registry.constraints.zip values)
              (Round.unweighted s.problem.registry) = .ok () r
          ∧ t = { s with problem := ⟨r, m⟩ } := by
  have hzero : (Round.zeroWeights s.problem.registry).Sound := by
    apply hr.later
    rw [List.forall₂_map_right_iff]
    exact List.forall₂_same.2 fun n _ => .single (.reset n)
  have hstart : Round.unweighted s.problem.registry
      = (Round.zeroWeights s.problem.registry).adding [] := by
    rw [Round.zeroWeights_eq_unweighted hr]
    unfold Registry.adding Round.unweighted
    rw [List.map_map]
    rfl
  have hphases : weigh kind tolerance s = .ok u t
      ↔ ∃ q, Round.reweight kind tolerance
            { s.problem with registry := Round.zeroWeights s.problem.registry }
              = .ok u q
          ∧ t = { s with problem := q } := onProblem_eq_ok
  rw [hphases, hstart]
  simp only [Round.reweight_eq_ok, Round.plainLoop_eq_ok hzero, List.nil_append,
    Round.addWeights_batches]
  constructor
  · rintro ⟨_, ⟨values, m, changes, _, hread, hfinite, hchanges,
      ⟨haccepts, rfl⟩, rfl⟩, rfl⟩
    exact ⟨values, m, _, hread, hfinite,
      ⟨changes, hchanges, haccepts, rfl⟩, rfl⟩
  · rintro ⟨values, m, _, hread, hfinite,
      ⟨changes, hchanges, haccepts, rfl⟩, rfl⟩
    exact ⟨_, ⟨values, m, changes, _, hread, hfinite, hchanges,
      ⟨haccepts, rfl⟩, rfl⟩, rfl⟩

/-- What the rest of a round leaves alone. -/
abbrev SameWeightings : Solve μ → Solve μ → Prop :=
  Action.Same fun s => s.problem.registry.weightings

omit [MasterProblem μ] in
/-- Asking for paths leaves the weights alone. -/
theorem leaves_choose (pricer : Pricer) :
    Action.Moves (SameWeightings (μ := μ)) (choose pricer) := by
  have hregistry : Action.Leaves Registry.weightings Round.shortestPaths := by
    apply Registry.leaves_eachNetwork
    intro n p n' h
    cases hn : n.shortestPath with
    | ok x =>
        rw [hn] at h
        obtain rfl := Except.ok.inj h
        exact Network.weighting_of_shortestPath hn
    | error e =>
        rw [hn] at h
        exact nomatch h
  refine Action.moves_bind (Action.moves_focus fun s => ?_) fun _ =>
    Action.moves_pure _
  unfold Problem.onRegistry
  rw [Action.after_focus]
  exact hregistry s.problem.registry

theorem leaves_generate (pricer : Pricer) (chosen : List Path) :
    Action.Moves (SameWeightings (μ := μ)) (generate pricer chosen) := by
  have hproblem : Action.Leaves (fun p : Problem μ => p.registry.weightings)
      (Round.addColumns pricer.tolerance pricer.nextColumn chosen) :=
    Round.moves_addColumns_of (fun _ => Action.moves_focus fun _ => rfl)
      (fun _ _ _ => Action.moves_focus fun _ => rfl) (fun _ =>
        Action.moves_focus fun _ => rfl)
      (fun _ _ => Action.moves_modify fun _ => rfl) _ _ _
  refine Action.moves_bind (Action.moves_modify fun _ => rfl) fun _ => ?_
  refine Action.moves_bind (Action.moves_focus fun s => hproblem s.problem)
    fun columns => ?_
  exact Action.moves_bind (Action.moves_modify fun _ => rfl) fun _ =>
    Action.moves_pure _

/-- A round fails if its weights do. -/
theorem price_of_weigh_error (h : s.pricer.state = .ready) {e : PricingError}
    (hweigh : weigh kind s.pricer.tolerance s = .error e t) :
    price kind s = .error e t := by
  rw [price_of_ready h]
  exact Action.bind_eq_error.2 (.inl (Action.bind_eq_error.2 (.inl hweigh)))

/-- Once the weights are there, nothing in a round touches them, however it
ends. -/
theorem weightings_after_price (h : s.pricer.state = .ready)
    (hweigh : weigh kind s.pricer.tolerance s = .ok () t) :
    ((price kind).after s).problem.registry.weightings
      = t.problem.registry.weightings := by
  have hrest : Action.Moves SameWeightings
      (choose s.pricer >>= generate (μ := μ) s.pricer) :=
    Action.moves_bind (leaves_choose _) fun chosen => leaves_generate _ chosen
  have hprice : (survey kind s.pricer >>= generate s.pricer) s
      = (weigh kind s.pricer.tolerance >>= fun _ =>
        choose s.pricer >>= generate s.pricer) s := by
    simp only [survey, bind_assoc]
  rw [Action.after_congr ((price_of_ready h).trans hprice),
    Action.after_bind, hweigh]
  exact hrest t

/-- A round makes its weights as a plain loop does: with the same
multipliers both succeed or both fail, and where they succeed every network
has the same weights, to the last bit. A round whose weights fail ends there;
what comes after the weights leaves them alone. -/
theorem weighs_plainly (hr : s.problem.registry.Reachable)
    (hready : s.pricer.state = .ready) (kind : PricingKind) :
    (∀ t, weigh kind s.pricer.tolerance s = .ok () t
      ↔ ∃ values m r,
          (s.problem.registry.constraints.map Constraint.handle).mapM
            (Round.multiplier kind)
              s.problem.master = .ok values m
          ∧ (∀ x ∈ values, x.isFinite = true)
          ∧ Round.plainLoop s.pricer.tolerance
            (s.problem.registry.constraints.zip values)
              (Round.unweighted s.problem.registry) = .ok () r
          ∧ t = { s with problem := ⟨r, m⟩ })
    ∧ (∀ e t, weigh kind s.pricer.tolerance s = .error e t →
      price kind s = .error e t)
    ∧ ∀ t, weigh kind s.pricer.tolerance s = .ok () t →
        ((price kind).after s).problem.registry.weightings
          = t.problem.registry.weightings :=
  ⟨fun _ => weigh_eq_ok hr.sound, fun _ _ => price_of_weigh_error hready,
    fun _ => weightings_after_price hready⟩

/-- Two constraints meet in the second network, and in the first they weigh
on different routes. -/
theorem weighs_plainly_sample :
    ∃ (s : Solve (Recorded MemoryMaster)) (values : List Float) (r : Registry),
      Round.plainLoop s.pricer.tolerance
        (s.problem.registry.constraints.zip values)
          (Round.unweighted s.problem.registry) = .ok () r
        ∧ (r.networks.map fun n => n.weights.values)
          = [[-1.0, 0.0, 0.0, -3.0], [-2.5]] := by
  have hrun : Session.passes Session.sampleDescriptions []
      { inner := Session.sampleModel }
      (Session.changeInner MemoryMaster.transform) (fun _ t =>
        decide (t.pricer.state = .ready)
          && Action.passes (weigh .reducedCost t.pricer.tolerance) (fun _ u =>
            decide ((u.problem.registry.networks.map fun n => n.weights.values)
              = [[-1.0, 0.0, 0.0, -3.0], [-2.5]]))
            (Session.withDuals t)) = true := by
    decide +kernel
  obtain ⟨q, t, hsession, hrun⟩ := Session.exists_of_passes hrun
  rw [Bool.and_eq_true, decide_eq_true_iff] at hrun
  obtain ⟨hready, hrun⟩ := hrun
  obtain ⟨⟨⟩, u, hweigh, hweights⟩ := Action.exists_of_passes hrun
  obtain ⟨values, m, r, -, -, hloop, rfl⟩ :=
    ((weighs_plainly (s := Session.withDuals t) hsession.reachable hready
      .reducedCost).1 u).1 hweigh
  exact ⟨_, values, r, hloop, of_decide_eq_true hweights⟩

end Solve

end FlowPricing
