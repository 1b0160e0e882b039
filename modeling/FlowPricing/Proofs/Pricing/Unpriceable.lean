/-
A round that meets a multiplier that is not finite. The prices of all
constraints are computed before the first of them is pushed onto an arc, so a
constraint that cannot be priced keeps every other price from the arcs, those
of the constraints before it included. But all weights have been set to zero
by then. So such a round leaves no weight of its own behind, and none of the
round before it either: the weights are kept if and only if they were all
zero (`unpriceable_round`). It is reported under the operation that read the
multiplier, and apart from the reads nothing else has happened.
-/
import FlowPricing.Proofs.Pricing.PlainLoop
import FlowPricing.Proofs.Setup.Prepared

namespace FlowPricing

namespace Round

variable {μ : Type} [MasterProblem μ] {kind : PricingKind} {p q : Problem μ}

/-- The report of a multiplier that is not finite. -/
def notFinite (kind : PricingKind) (c : ConstraintId) (value : Float) :
    MasterError :=
  ⟨operation kind,
    s!"non-finite value {Positional.text value} for constraint {c.text}"⟩

/-- A constraint has no price if the master does not answer, or if its
multiplier is not finite. -/
theorem price_eq_error {c : ConstraintId} {e : PricingError} :
    price kind c p = .error e q
      ↔ ∃ m, q = { p with master := m }
          ∧ ((∃ e', multiplier kind c p.master = .error e' m ∧ e = .master e')
            ∨ ∃ value, multiplier kind c p.master = .ok value m
              ∧ value.isFinite = false
                ∧ e = .master (notFinite kind c value)) := by
  unfold price
  rw [Action.bind_eq_error]
  constructor
  · intro h
    rcases h with h | ⟨value, t, hread, h⟩
    · obtain ⟨m, hm, rfl⟩ := Action.focus_eq_error.1 h
      obtain ⟨e', he', rfl⟩ := Action.mapError_eq_error.1 hm
      exact ⟨m, rfl, .inl ⟨e', he', rfl⟩⟩
    · obtain ⟨m, hm, rfl⟩ := Problem.onMaster_eq_ok.1 hread
      split at h
      · exact absurd h Action.pure_ne_error
      · next hfinite =>
          obtain ⟨rfl, rfl⟩ := EStateM.Result.error.inj h
          exact ⟨m, rfl,
            .inr ⟨value, hm, Bool.eq_false_of_not_eq_true hfinite, rfl⟩⟩
  · intro h
    obtain ⟨m, rfl, h⟩ := h
    rcases h with ⟨e', he', rfl⟩ | ⟨value, hm, hfinite, rfl⟩
    · exact .inl (Action.focus_eq_error.2
        ⟨m, Action.mapError_eq_error.2 ⟨e', he', rfl⟩, rfl⟩)
    · refine .inr ⟨value, _, Problem.onMaster_eq_ok.2 ⟨m, hm, rfl⟩, ?_⟩
      rw [hfinite]
      rfl

end Round

namespace Solve

variable {μ : Type} [MasterProblem μ] {kind : PricingKind}

/-- For the constraint `c` the round of a ready pricer meets the multiplier
`value`, which is not finite: the constraints before `c` are priced, by finite
multipliers and with all their arcs routed. The master is `m` by then. -/
structure Meets (kind : PricingKind) (s : Solve μ) (before : List Constraint)
    (c : Constraint) (value : Float) (m : μ) : Prop where
  ready : s.pricer.state = .ready
  constraints : ∃ after, s.problem.registry.constraints = before ++ c :: after
  priced : ∃ values changes m₁,
    (before.map Constraint.handle).mapM (Round.multiplier kind) s.problem.master
      = .ok values m₁
      ∧ (∀ x ∈ values, x.isFinite = true)
      ∧ List.Forall₂ (fun cv ws =>
        Round.changesFor (Round.zeroWeights s.problem.registry)
          s.pricer.tolerance cv.1 cv.2 = .ok ws) (before.zip values) changes
      ∧ Round.multiplier kind c.handle m₁ = .ok value m
  infinite : value.isFinite = false

variable {before : List Constraint} {c : Constraint} {value : Float}

/-- The round ends there. All that has changed are the weights, which are
zero, and the master by what reading does to it. -/
theorem Meets.price_eq {s : Solve μ} {m : μ}
    (h : Meets kind s before c value m) :
    price kind s = .error (.master (Round.notFinite kind c.handle value))
      { s with problem := ⟨Round.zeroWeights s.problem.registry, m⟩ } := by
  obtain ⟨values, changes, m₁, hread, hfinite, hchanges, hvalue⟩ := h.priced
  obtain ⟨after, hconstraints⟩ := h.constraints
  have hbefore : before.mapM (Round.constraintChanges kind s.pricer.tolerance)
        ⟨Round.zeroWeights s.problem.registry, s.problem.master⟩
      = .ok changes ⟨Round.zeroWeights s.problem.registry, m₁⟩ :=
    Round.mapM_constraintChanges_eq_ok.2 ⟨values, m₁, hread, hfinite,
      hchanges, rfl⟩
  have hprice : Round.constraintChanges kind s.pricer.tolerance c
        ⟨Round.zeroWeights s.problem.registry, m₁⟩
      = .error (.master (Round.notFinite kind c.handle value))
        ⟨Round.zeroWeights s.problem.registry, m⟩ :=
    Action.bind_eq_error.2 (.inl (Round.price_eq_error.2
      ⟨m, rfl, .inr ⟨value, hvalue, h.infinite, rfl⟩⟩))
  have hall := Action.mapM_eq_error.2
    ⟨before, c, after, changes, _, hconstraints, hbefore, hprice⟩
  apply price_of_weigh_error h.ready
  rw [weigh_eq_reweight]
  refine Action.focus_eq_error.2 ⟨_, ?_, rfl⟩
  unfold Round.reweight
  rw [Action.get_bind]
  exact Action.bind_eq_error.2 (.inl hall)

/-- The weights of all networks. -/
def weights (s : Solve μ) : List (Table Arc Float) :=
  s.problem.registry.networks.map Network.weights

end Solve

/-- Setting all values to one that they all have changes nothing, and only
then. -/
theorem Table.mapValues_const_eq_iff {α β : Type} (t : Table α β) (v : β) :
    (t.mapValues fun _ => v) = t ↔ ∀ w ∈ t.values, w = v := by
  obtain ⟨es⟩ := t
  unfold mapValues values
  rw [Table.mk.injEq, List.forall_mem_map]
  induction es with
  | nil => simp
  | cons e es ih =>
      rw [List.map_cons, List.cons.injEq, List.forall_mem_cons, ih]
      simp [Prod.ext_iff, eq_comm]

namespace Solve

variable {μ : Type} [MasterProblem μ] {kind : PricingKind}
  {before : List Constraint} {c : Constraint} {value : Float}

/-- A round that meets a multiplier that is not finite fails, and names the
operation that read it. No column is recorded and nothing is counted; the
master was asked for the multipliers up to that one, and for nothing else. But
every weight has become zero, so the weights are as they were if and only if
they were all zero before. -/
theorem unpriceable_round {s : Solve (Recorded μ)} {m : Recorded μ}
    (h : Meets kind s before c value m) :
    ∃ t, price kind s = .error (.master (Round.notFinite kind c.handle value)) t
      ∧ t.problem.registry = Round.zeroWeights s.problem.registry
      ∧ t.pricer = s.pricer
      ∧ t.problem.master.calls = s.problem.master.calls
          ++ Round.succeeded ((before ++ [c]).map fun d =>
            Round.readCall kind d.handle)
      ∧ (∀ call ∈ (before ++ [c]).map fun d => Round.readCall kind d.handle,
          call.isMutating = false)
      ∧ (∀ ws ∈ t.weights, ∀ w ∈ ws.values, w = 0.0)
      ∧ (t.weights = s.weights
        ↔ ∀ ws ∈ s.weights, ∀ w ∈ ws.values, w = 0.0) := by
  have hweights : (s.problem.registry.networks.map Network.resetWeights).map
      Network.weights
      = s.weights.map fun ws => ws.mapValues fun _ => 0.0 := by
    unfold weights
    rw [List.map_map, List.map_map]
    rfl
  refine ⟨_, h.price_eq, rfl, rfl, ?_, ?_, ?_, ?_⟩
  · -- the read that ends the round is one more of the same kind
    obtain ⟨values, changes, m₁, hread, -, -, hvalue⟩ := h.priced
    have hlast := Action.mapM_cons_eq_ok.2
      ⟨value, m, [], hvalue, Action.mapM_nil_eq_ok.2 ⟨rfl, rfl⟩, rfl⟩
    have hcalls :=
      Round.mapM_multiplier_calls (Action.mapM_append_of_ok hread hlast)
    rw [List.map_append, List.map_map] at hcalls
    rw [List.map_append]
    exact hcalls
  · intro call hcall
    obtain ⟨d, -, rfl⟩ := List.mem_map.1 hcall
    cases kind <;> rfl
  · show ∀ ws ∈ (s.problem.registry.networks.map
      Network.resetWeights).map Network.weights, _
    rw [hweights, List.forall_mem_map]
    intro ws _ w hw
    obtain ⟨e, he, rfl⟩ := List.mem_map.1 hw
    obtain ⟨e, -, rfl⟩ := List.mem_map.1 he
    rfl
  · have hkept := List.map_inj_left (l := s.weights)
      (f := fun ws : Table Arc Float => ws.mapValues fun _ => 0.0) (g := id)
    rw [List.map_id] at hkept
    show (s.problem.registry.networks.map Network.resetWeights).map
      Network.weights = s.weights ↔ _
    rw [hweights, hkept]
    exact forall₂_congr fun ws _ => ws.mapValues_const_eq_iff 0.0

/-- A solve of one arc and two constraints that has priced a round, before the
dual value of the second constraint is lost. -/
def sampleRounded : Solve (Recorded MemoryMaster) :=
  let registry := (Setup.addDescriptions [Session.sampleDescription]).after {}
  let problem : Problem (Recorded MemoryMaster) :=
    (Setup.indexConstraints []).after
      ⟨registry, { inner := Setup.sampleMaster }⟩
  let duals : Table ConstraintId Float := ⟨[(⟨0⟩, 1.0), (⟨1⟩, 1.0)]⟩
  let master := Session.changeInner (fun m => { m with duals }) problem.master
  (price .reducedCost).after
    (Action.after start (Setup.solveOf { problem with master }))

/-- The same solve once it is lost. -/
def sampleLost : Solve (Recorded MemoryMaster) :=
  let duals : Table ConstraintId Float := ⟨[(⟨0⟩, 1.0), (⟨1⟩, 0.0 / 0.0)]⟩
  let master :=
    Session.changeInner (fun m => { m with duals }) sampleRounded.problem.master
  { sampleRounded with problem := { sampleRounded.problem with master } }

/-- The arc of that solve. -/
def sampleLostArc : Arc :=
  ⟨⟨0, 0, -2, -1, 0, false, 0⟩, ⟨0, 0, 35, -1, 0, false, 0⟩⟩

/-- The second of two constraints reports no number, and the weights of a
former round are lost. -/
theorem unpriceable_round_sample :
    ∃ m t, Meets .reducedCost sampleLost [⟨⟨0⟩, [(sampleLostArc, 1.0)]⟩]
        ⟨⟨1⟩, [(sampleLostArc, 2.0)]⟩ (0.0 / 0.0) m
      ∧ price .reducedCost sampleLost
        = .error (.master (Round.notFinite .reducedCost ⟨1⟩ (0.0 / 0.0))) t
      ∧ t.pricer = sampleLost.pricer ∧ t.weights ≠ sampleLost.weights := by
  have hrun : Action.passes (Round.multiplier .reducedCost ⟨0⟩) (fun x m₁ =>
      Action.passes (Round.multiplier .reducedCost ⟨1⟩)
        (fun y _ => decide (x = 1.0) && decide (y = 0.0 / 0.0)) m₁)
          sampleLost.problem.master = true := by
    decide +kernel
  have hchanges :
      Action.yields (Round.changesFor
        (Round.zeroWeights sampleLost.problem.registry)
      sampleLost.pricer.tolerance ⟨⟨0⟩, [(sampleLostArc, 1.0)]⟩ 1.0)
        (fun _ => true) = true := by
    decide +kernel
  obtain ⟨x, m₁, hfirst, hrun⟩ := Action.exists_of_passes hrun
  obtain ⟨y, m, hsecond, hrun⟩ := Action.exists_of_passes hrun
  simp only [Bool.and_eq_true, decide_eq_true_iff] at hrun
  obtain ⟨rfl, rfl⟩ := hrun
  obtain ⟨changes, hchanges, -⟩ := Action.exists_of_yields hchanges
  have hmeets : Meets .reducedCost sampleLost [⟨⟨0⟩, [(sampleLostArc, 1.0)]⟩]
      ⟨⟨1⟩, [(sampleLostArc, 2.0)]⟩ (0.0 / 0.0) m :=
    { ready := by decide +kernel
      constraints := ⟨[], by decide +kernel⟩
      priced := ⟨[1.0], [changes], m₁, Action.mapM_cons_eq_ok.2
        ⟨1.0, m₁, [], hfirst, Action.mapM_nil_eq_ok.2 ⟨rfl, rfl⟩,
          rfl⟩, by decide,
        .cons hchanges .nil, hsecond⟩
      infinite := by decide }
  obtain ⟨t, hprice, -, hpricer, -, -, -, hkept⟩ := unpriceable_round hmeets
  refine ⟨m, t, hmeets, hprice, hpricer, ?_⟩
  rw [Ne, hkept]
  decide +kernel

/-- The weight that the round before has left is lost. -/
theorem unpriceable_round_forgets :
    sampleLost.pricer.state = .ready
      ∧ sampleLost.weights.map Table.values = [[-3.0]]
      ∧ (price .reducedCost).result sampleLost
        = .error (.master (Round.notFinite .reducedCost ⟨1⟩ (0.0 / 0.0)))
      ∧ ((price .reducedCost).after sampleLost).weights.map Table.values
        = [[0.0]] := by
  decide +kernel

end Solve

end FlowPricing
