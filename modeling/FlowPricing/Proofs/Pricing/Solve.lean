/-
A whole round of a solve, taken apart (`Solve.Run`, `Solve.price_spec`):
the multipliers it read, the changes they made, what the networks
answered, and the columns that came of the answers. The registry comes
out of it with the weights the round has left and the columns recorded;
everything else in it is as it was.
-/
import FlowPricing.Proofs.Pricing.Attempt
import FlowPricing.Proofs.Pricing.Selection

namespace FlowPricing.Solve

variable {μ α : Type} {kind : PricingKind} {out : RoundOutcome}

-- =============================================================== parts

/-- An action on the problem changes the problem only. -/
theorem onProblem_eq_ok {act : Action PricingError (Problem μ) α}
    {s t : Solve μ} {a : α} :
    onProblem act s = .ok a t ↔ ∃ p, act s.problem = .ok a p ∧ t = { s with
      problem := p } := by
  unfold onProblem
  rw [Action.focus_eq_ok]
  constructor
  · intro h
    obtain ⟨p, h, rfl⟩ := h
    exact ⟨p, h, rfl⟩
  · intro h
    obtain ⟨p, h, rfl⟩ := h
    exact ⟨p, h, rfl⟩

theorem modifyPricer_eq_ok {f : Pricer → Pricer} {s t : Solve μ} {u : Unit} :
    modifyPricer f s = .ok u t ↔ t = { s with pricer := f s.pricer } := by
  unfold modifyPricer
  rw [Action.modify_eq_ok, eq_comm]

/-- An operation is let through exactly in a state that allows it. -/
theorem require_eq_ok {op : PricerOperation} {allowed : PricerState → Bool}
    {s t : Solve μ} {u : Unit} :
    require op allowed s = .ok u t ↔ allowed s.pricer.state = true ∧ s = t := by
  unfold require
  rw [Action.get_bind]
  by_cases h : allowed s.pricer.state = true
  · rw [if_pos h, Action.pure_eq_ok]
    simp [h]
  · rw [if_neg h]
    exact ⟨fun hok => absurd hok Action.throw_ne_ok, fun hok => absurd hok.1 h⟩

/-- In any other state it is refused, and changes nothing. -/
theorem require_of_false {op : PricerOperation} {allowed : PricerState → Bool}
    {s : Solve μ} (h : allowed s.pricer.state = false) :
    require op allowed s = .error (.invalidState op s.pricer.state) s := by
  unfold require
  rw [Action.get_bind]
  simp only [h]
  rfl

-- ============================================================= a round

/-- What a network goes through in a round: its weights are zeroed and
changed, and it is asked for its path. -/
structure Served (changes : List WeightChange) (n : Network)
    (x : Path × Network) : Prop where
  weights : x.2.weights = (Round.changesOf changes n.group).foldl
    (fun t c => t.modify c.1 (· + c.2)) (n.weights.mapValues fun _ => 0.0)
  topology : x.2.topology = n.topology
  answer : x.2.findPath = .ok x.1
  sound : x.2.Sound

/-- A network that was zeroed, changed and asked has been served. -/
theorem served_of_addWeights {changes : List WeightChange} {n n' : Network}
    {x : Path × Network} (hn : n.Sound)
    (h : n.resetWeights.addWeights (Round.changesOf changes n.group) = .ok n')
    (hx : n'.findPath = .ok x.1 ∧ x.2 = { n' with cached := some x.1 }) :
    Served changes n x := by
  obtain ⟨hpath, hset⟩ := hx
  have hsound := (Network.sound_of_addWeights hn.resetWeights h).1
  rw [Network.addWeights_eq h] at hsound hpath hset
  exact {
    weights := by rw [hset]; rfl
    topology := by rw [hset]; rfl
    answer := by rw [hset]; exact hpath
    sound := by rw [hset]; exact hsound.remembering hpath }

/-- So have all networks of a registry. -/
theorem serves_of_addWeights {changes : List WeightChange}
    {ns ms : List Network} {served : List (Path × Network)}
    (hsound : ∀ n ∈ ns, n.Sound) (hns : List.Forall₂ (fun n n' =>
      n.resetWeights.addWeights (Round.changesOf changes n.group) = .ok n')
        ns ms)
    (hserved : List.Forall₂ (fun (n : Network) (x : Path × Network) =>
      n.findPath = .ok x.1 ∧ x.2 = { n with cached := some x.1 }) ms served) :
    List.Forall₂ (Served changes) ns served := by
  induction hns generalizing served with
  | nil =>
      cases hserved
      exact .nil
  | cons h _ ih =>
      obtain ⟨x, xs, hx, hxs, rfl⟩ := List.forall₂_cons_left_iff.1 hserved
      exact .cons (served_of_addWeights (hsound _ List.mem_cons_self) h hx)
        (ih (fun n hn => hsound n (List.mem_cons_of_mem _ hn)) hxs)

/-- What a successful round read, computed and did. -/
structure Run [MasterProblem μ] (kind : PricingKind) (s t : Solve (Recorded μ))
    (out : RoundOutcome) (values : List Float) (m : Recorded μ)
    (changes : List (List WeightChange)) (served : List (Path × Network))
    (columns : List AddedColumn) : Prop where
  ready : s.pricer.state = .ready
  /-- The multipliers of the constraints are read first, in their order. -/
  reads : (s.problem.registry.constraints.map Constraint.handle).mapM
    (Round.multiplier kind) s.problem.master = .ok values m
  finite : ∀ x ∈ values, x.isFinite = true
  changed : List.Forall₂
    (fun cv ws => Round.changesFor (Round.zeroWeights s.problem.registry)
      s.pricer.tolerance cv.1 cv.2 = .ok ws)
    (s.problem.registry.constraints.zip values) changes
  serves : List.Forall₂ (Served changes.flatten)
    s.problem.registry.networks served
  chosen : columns.map AddedColumn.path
    = s.pricer.selection.select s.pricer.tolerance (served.map Prod.fst)
  named : columns.map AddedColumn.name
    = (List.range' s.pricer.nextColumn columns.length).map columnName
  reported : out = { columns := columns.length, status := .success }
  registry : t.problem.registry = AddedColumn.recordAll columns
    { s.problem.registry with networks := served.map Prod.snd }
  calls : t.problem.master.calls = m.calls ++ Round.succeeded
    (columns.flatMap (AddedColumn.calls (Round.entriesIn s.problem.registry)))
  pricer : t.pricer = { s.pricer with
    rounds := s.pricer.rounds + 1
    generated := s.pricer.generated + columns.length
    nextColumn := s.pricer.nextColumn + columns.length }

variable [MasterProblem μ] {s t : Solve (Recorded μ)}

section Recording

variable {values : List Float} {m : Recorded μ}
  {changes : List (List WeightChange)} {served : List (Path × Network)}
  {columns : List AddedColumn}

/-- The networks a round leaves are those that were served. -/
theorem Run.networks (run : Run kind s t out values m changes served columns) :
    t.problem.registry.networks = served.map Prod.snd := by
  rw [run.registry, AddedColumn.recordAll_eq]

/-- No two columns of a round share a name. -/
theorem Run.nodup_names
    (run : Run kind s t out values m changes served columns) :
    (columns.map AddedColumn.name).Nodup := by
  rw [run.named]
  apply List.Nodup.map
  · intro i j h
    exact columnName_injective h
  · exact List.nodup_range' _

/-- Every column is recorded with its path. -/
theorem Run.recorded (run : Run kind s t out values m changes served columns)
    {c : AddedColumn} (hc : c ∈ columns) :
    t.problem.registry.path? c.name = some c.path := by
  rw [run.registry]
  exact AddedColumn.path?_recordAll run.nodup_names hc _

end Recording

/-- Every round that succeeds runs as described. -/
theorem price_spec (hs : s.problem.registry.Sound)
    (h : price kind s = .ok out t) :
    ∃ values m changes served columns, Run kind s t out values m changes
      served columns := by
  unfold price at h
  obtain ⟨_, s₀, hrequire, h⟩ := Action.bind_eq_ok.1 h
  obtain ⟨hready, rfl⟩ := require_eq_ok.1 hrequire
  rw [Action.get_bind] at h
  obtain ⟨_, s₁, hzero, h⟩ := Action.bind_eq_ok.1 h
  obtain ⟨p₁, hp₁, rfl⟩ := onProblem_eq_ok.1 hzero
  obtain rfl := Problem.modifyRegistry_eq_ok.1 hp₁
  obtain ⟨_, s₂, hreweight, h⟩ := Action.bind_eq_ok.1 h
  obtain ⟨p₂, hp₂, rfl⟩ := onProblem_eq_ok.1 hreweight
  obtain ⟨values, m, changes, ns, hreads, hfinite, hchanged, hns, rfl⟩ :=
    Round.reweight_eq_ok.1 hp₂
  have hns' : List.Forall₂ (fun n n' =>
      n.resetWeights.addWeights (Round.changesOf changes.flatten n.group)
        = .ok n')
      s.problem.registry.networks ns := List.forall₂_map_left_iff.1 hns
  have hsound : ∀ n ∈ ns, n.Sound := by
    intro n hn
    obtain ⟨n₀, hn₀, hadd⟩ := Action.exists_of_mem_right hns' hn
    exact (Network.sound_of_addWeights (hs.networks n₀ hn₀).resetWeights hadd).1
  obtain ⟨candidates, s₃, hpaths, h⟩ := Action.bind_eq_ok.1 h
  obtain ⟨p₃, hp₃, rfl⟩ := onProblem_eq_ok.1 hpaths
  obtain ⟨r₃, hr₃, rfl⟩ := Problem.onRegistry_eq_ok.1 hp₃
  obtain ⟨served, hserved, rfl, rfl⟩ := (Round.shortestPaths_eq_ok hsound).1 hr₃
  obtain ⟨_, s₄, hnumber, h⟩ := Action.bind_eq_ok.1 h
  obtain rfl := modifyPricer_eq_ok.1 hnumber
  obtain ⟨k, s₅, hcolumns, h⟩ := Action.bind_eq_ok.1 h
  obtain ⟨p₅, hp₅, rfl⟩ := onProblem_eq_ok.1 hcolumns
  obtain ⟨columns, hchosen, hnamed, rfl, hregistry, hcalls⟩ :=
    Round.addColumns_spec (fun path hp => (Selection.of_mem_select hp).2) hp₅
  obtain ⟨_, s₆, hcount, h⟩ := Action.bind_eq_ok.1 h
  obtain rfl := modifyPricer_eq_ok.1 hcount
  obtain ⟨rfl, rfl⟩ := Action.pure_eq_ok.1 h
  have hlength : columns.length
      = (s.pricer.selection.select s.pricer.tolerance
        (served.map Prod.fst)).length := by
    rw [← hchosen, List.length_map]
  refine ⟨values, m, changes, served, columns, ?_⟩
  exact {
    ready := by simpa using hready
    reads := hreads
    finite := hfinite
    changed := hchanged
    serves := serves_of_addWeights hs.networks hns' hserved
    chosen := hchosen
    named := by rw [hnamed, hlength]
    reported := rfl
    registry := hregistry
    calls := hcalls
    pricer := by rw [hlength] }

end FlowPricing.Solve
