/-
A configuration that was accepted makes a pricer that only adds columns that
improve (`Solve.configured_adds_improving`). Its tolerance is a number that is
not negative, so a path that is shorter than zero by more than that is shorter
than zero; and no query answers with minus infinity, so its length is finite.
What the registry holds besides does not matter, nor what becomes of it between
the rounds: a round asks every network afresh, once it has changed its weights.

A round chooses among one path from each network, at most as many as it is
configured to, and tries a column for each in turn (`Solve.price_tried`). So the
same numbers bound the variables it creates in the master, also if it fails.
-/
import FlowPricing.Proofs.Pricing.LifeCycle
import FlowPricing.Proofs.Pricing.Naming

namespace FlowPricing

-- ======================================================== configurations

namespace Config

/-- Settings that make sense. -/
structure Sensible (c : Config) : Prop where
  finite : c.tolerance.isFinite = true
  nonneg : 0.0 ≤ c.tolerance
  substrings : "" ∉ c.unneeded

/-- The check lets sensible settings through, and no others. -/
theorem validate_eq_ok {c : Config} : c.validate = .ok () ↔ c.Sensible := by
  unfold validate
  constructor
  · intro h
    split at h
    · exact nomatch h
    next htolerance =>
      split at h
      · exact nomatch h
      next hparts =>
        simp only [Bool.or_eq_true, Bool.not_eq_true',
          decide_eq_true_iff, not_or, Bool.not_eq_false] at htolerance
        obtain ⟨hfinite, hnot⟩ := htolerance
        refine ⟨hfinite, Weight.le_of_not_lt (Weight.isNaN_of_isFinite hfinite)
          rfl hnot, ?_⟩
        simpa using hparts
  · intro h
    obtain ⟨hfinite, hnonneg, hparts⟩ := h
    have hnot : ¬c.tolerance < 0.0 := by
      rw [Weight.le_iff] at hnonneg
      rw [Weight.lt_iff]
      omega
    rw [if_neg (by simp [hfinite, hnot]), if_neg (by simpa using hparts)]

/-- What is read has been checked. -/
theorem sensible_of_ofJson {text : Json.Bytes} {c : Config}
    (h : ofJson text = .ok c) :
    c.Sensible := by
  unfold ofJson at h
  split at h
  · exact nomatch h
  · split at h
    · exact nomatch h
    · next hvalid =>
        obtain rfl := Except.ok.inj h
        exact validate_eq_ok.1 hvalid

/-- How many columns a round may add if so many networks are registered. -/
def quota (c : Config) (networks : Nat) : Nat :=
  if 0 < c.pricingStrategy then c.pricingStrategy else networks

end Config

-- ================================================================= paths

/-- An improving path that was found has a finite length. -/
theorem Network.isFinite_of_findPath {n : Network} {p : Path}
    {tolerance : Float} (hp : n.findPath = .ok p)
    (h : p.isImproving tolerance = true) :
    p.length.isFinite = true := by
  obtain ⟨hnumber, hnear⟩ := Path.length_of_isImproving h
  rcases findPath_cases hp with rfl | ⟨arcs, hfinite, -, rfl⟩
  · exact absurd rfl hnear
  · exact Weight.isFinite_of_not_isInf hnumber hfinite

/-- A network whose weights were changed is asked afresh. -/
theorem Network.shortestPath_of_addWeights {n n' : Network}
    {ws : List (Arc × Float)} {x : Path × Network}
    (hn : n.addWeights ws = .ok n') (hx : n'.shortestPath = .ok x) :
    n'.findPath = .ok x.1 ∧ x.1.group = n.group := by
  rw [addWeights_eq hn] at hx ⊢
  obtain ⟨p, hp, hx⟩ := Action.except_bind_eq_ok.1 hx
  obtain rfl := Action.except_pure_eq_ok.1 hx
  refine ⟨hp, ?_⟩
  rcases findPath_cases hp with rfl | ⟨arcs, -, -, rfl⟩
  · rfl
  · rfl

/-- So each of the answers is a path that was found, one for each network. -/
theorem Network.answers_of_addWeights (ws : Network → List (Arc × Float))
    {ns ms : List Network} {served : List (Path × Network)}
    (hns : List.Forall₂ (fun n n' => n.addWeights (ws n) = .ok n') ns ms)
    (hserved : List.Forall₂ (fun (n : Network) x => n.shortestPath = .ok x)
      ms served) :
    (served.map Prod.fst).map Path.group = ns.map Network.group
      ∧ ∀ p ∈ served.map Prod.fst, ∃ n : Network, n.findPath = .ok p := by
  induction hns generalizing served with
  | nil =>
      cases hserved
      exact ⟨rfl, fun p hp => absurd hp List.not_mem_nil⟩
  | cons hn _ ih =>
      obtain ⟨x, rest, hx, hrest, rfl⟩ := List.forall₂_cons_left_iff.1 hserved
      obtain ⟨hfound, hgroup⟩ := shortestPath_of_addWeights hn hx
      obtain ⟨hgroups, hall⟩ := ih hrest
      refine ⟨?_, ?_⟩
      · rw [List.map_cons, List.map_cons, List.map_cons, hgroup, hgroups]
      · intro p hp
        rcases List.mem_cons.1 hp with rfl | hp
        · exact ⟨_, hfound⟩
        · exact hall p hp

namespace Solve

variable {μ : Type} [MasterProblem μ] {kind : PricingKind}
  {s t u : Solve (Recorded μ)} {chosen : List Path} {pricer : Pricer}
  {c : Config} {tried done : List AddedColumn}

-- ================================================================ a round

/-- The paths a round chooses among: one from each network. -/
theorem candidates_of_survey (h : survey kind pricer s = .ok chosen u) :
    ∃ candidates, chosen = pricer.selection.select pricer.tolerance candidates
      ∧ candidates.map Path.group
        = s.problem.registry.networks.map Network.group
      ∧ ∀ p ∈ candidates, ∃ n : Network, n.findPath = .ok p := by
  obtain ⟨_, t, hweigh, hchoose⟩ := Action.bind_eq_ok.1 h
  rw [weigh_eq_reweight] at hweigh
  obtain ⟨q, hq, rfl⟩ := onProblem_eq_ok.1 hweigh
  obtain ⟨_, _, changes, ns, -, -, -, hns, rfl⟩ := Round.reweight_eq_ok.1 hq
  obtain ⟨candidates, _, hpaths, hselect⟩ := Action.bind_eq_ok.1 hchoose
  obtain ⟨q', hq', rfl⟩ := onProblem_eq_ok.1 hpaths
  obtain ⟨r, hr, rfl⟩ := Problem.onRegistry_eq_ok.1 hq'
  obtain ⟨rfl, -⟩ := Action.pure_eq_ok.1 hselect
  obtain ⟨served, hserved, rfl, -⟩ := Registry.eachNetwork_eq_ok.1 hr
  have hasked : List.Forall₂ (fun (n : Network) x =>
      n.shortestPath = .ok x) ns served := by
    refine hserved.imp fun n x hx => ?_
    cases hn : n.shortestPath with
    | ok y =>
        rw [hn] at hx
        exact congrArg Except.ok (Except.ok.inj hx)
    | error e =>
        rw [hn] at hx
        exact nomatch hx
  obtain ⟨hgroups, hall⟩ := Network.answers_of_addWeights
    (fun n => Round.changesOf changes.flatten n.group) hns hasked
  refine ⟨_, rfl, ?_, hall⟩
  rw [hgroups]
  show (s.problem.registry.networks.map Network.resetWeights).map
    Network.group = _
  rw [List.map_map]
  rfl

/-- What a configured pricer chooses improves, is from different networks, and
is not more than it may add. -/
structure Choice (c : Config) (s : Solve (Recorded μ)) (chosen : List Path) :
    Prop where
  improving : ∀ p ∈ chosen, p.length.isFinite = true ∧ p.length < 0.0
  distinct : (chosen.map Path.group).Subperm
    (s.problem.registry.networks.map Network.group)
  bounded : chosen.length ≤ c.quota s.problem.registry.networks.length

/-- What a configured pricer chooses is what its settings allow. -/
theorem choice_of_survey (hc : c.Sensible)
    (hselection : pricer.selection = c.selection)
    (htolerance : pricer.tolerance = c.tolerance)
    (h : survey kind pricer s = .ok chosen u) :
    Choice c s chosen := by
  obtain ⟨candidates, hchosen, hgroups, hfound⟩ := candidates_of_survey h
  rw [hselection, htolerance] at hchosen
  have hdistinct : (chosen.map Path.group).Subperm
      (s.problem.registry.networks.map Network.group) := by
    obtain ⟨taken, hperm, htaken⟩ :=
      Selection.select_subperm c.selection c.tolerance candidates
    rw [← hgroups, hchosen]
    exact ⟨taken.map Path.group, hperm.map _, htaken.map _⟩
  refine ⟨?_, hdistinct, ?_⟩
  · intro p hp
    rw [hchosen] at hp
    obtain ⟨hin, himproving⟩ := Selection.of_mem_select hp
    obtain ⟨n, hn⟩ := hfound p hin
    exact ⟨n.isFinite_of_findPath hn himproving,
      Weight.lt_zero_of_lt_neg hc.nonneg (of_decide_eq_true himproving)⟩
  · unfold Config.quota
    split
    · next hpositive =>
        rw [hchosen]
        exact Selection.length_select_ofCount hpositive _ _
    · have hle := hdistinct.length_le
      rwa [List.length_map, List.length_map] at hle

omit [MasterProblem μ] in
/-- A beginning of what may be chosen may be chosen. -/
theorem Choice.mono {more : List Path} (h : Choice c s more)
    (hbegins : chosen <+: more) :
    Choice c s chosen where
  improving := fun p hp => h.improving p (hbegins.subset hp)
  distinct := (hbegins.map Path.group).sublist.subperm.trans h.distinct
  bounded := hbegins.length_le.trans h.bounded

omit [MasterProblem μ] in
/-- To choose nothing is always allowed. -/
theorem choice_nil (c : Config) (s : Solve (Recorded μ)) : Choice c s [] where
  improving := fun _ hp => absurd hp List.not_mem_nil
  distinct := List.nil_subperm
  bounded := Nat.zero_le _

/-- What a round of a configured pricer adds: these columns are recorded, and
these calls were made. -/
structure Adds (c : Config) (s t : Solve (Recorded μ))
    (added : List AddedColumn) (made : List RecordedCall) : Prop where
  columns : t.problem.registry.columns = added.foldl
    (fun columns column => columns.insert column.name column.path)
      s.problem.registry.columns
  calls : t.problem.master.calls = s.problem.master.calls ++ made
  choice : Choice c s (added.map AddedColumn.path)
  created : (createdNames made).length
    ≤ c.quota s.problem.registry.networks.length

/-- A round that succeeds reports the columns it added. -/
theorem Left.reported (hleft : Left kind s t tried done) {out : RoundOutcome}
    (h : price kind s = .ok out t) : out.columns = done.length := by
  have hfails : ¬FailsGenerating kind s := by
    intro hfails
    obtain ⟨e, u, he⟩ := hfails.fails
    exact nomatch h.symm.trans he
  obtain ⟨rfl, -, hgenerated⟩ := hleft.counted hfails
  have hround : obey (.round kind) s = .ok (some out) t :=
    Action.bind_eq_ok.2 ⟨out, t, h, rfl⟩
  have heffect := effect_obey (.round kind) s
  rw [Action.result_of_ok hround, Action.after_of_ok hround] at heffect
  generalize t.pricer = q at heffect hgenerated
  cases heffect with
  | priced next columns => exact Nat.add_left_cancel hgenerated

/-- What is recorded after the columns of a round was among them, or recorded
before. -/
theorem get?_foldl_insert {columns : Table String Path}
    {added : List AddedColumn} {name : String} {p : Path}
    (h : (added.foldl (fun columns column =>
      columns.insert column.name column.path) columns).get? name = some p) :
    p ∈ added.map AddedColumn.path ∨ columns.get? name = some p := by
  induction added generalizing columns with
  | nil => exact .inr h
  | cons column added ih =>
      rw [List.foldl_cons] at h
      rcases ih h with hin | hold
      · exact .inl (List.mem_cons_of_mem _ hin)
      · rw [Table.get?_insert] at hold
        split at hold
        · exact .inl (Option.some.inj hold ▸ List.mem_cons_self)
        · exact .inr hold

/-- A round adds no more than it may, however it ends. -/
theorem adds_price (hc : c.Sensible)
    (hselection : s.pricer.selection = c.selection)
    (htolerance : s.pricer.tolerance = c.tolerance) (kind : PricingKind) :
    ∃ added made, Adds c s ((price kind).after s) added made
      ∧ ∀ out t, price kind s = .ok out t → out.columns = added.length := by
  obtain ⟨tried, done, hleft, htried⟩ := price_tried kind s
  have hchoice : Choice c s (tried.map AddedColumn.path) := by
    rcases htried with rfl | ⟨chosen, u, hsurvey, hbegins⟩
    · exact choice_nil c s
    · exact (choice_of_survey hc hselection htolerance hsurvey).mono hbegins
  obtain ⟨made, n, hcalls, hnames, hle⟩ := hleft.created
  refine ⟨done, made, ⟨hleft.columns, hcalls, ?_, ?_⟩, ?_⟩
  · exact hchoice.mono (hleft.completed.map _)
  · have hbounded := hchoice.bounded
    rw [List.length_map] at hbounded
    rw [hnames, List.length_map, List.length_range']
    exact hle.trans hbounded
  · intro out t h
    rw [Action.after_of_ok h] at hleft
    exact hleft.reported h

-- ================================================================= a run

/-- A run of a solve: its pricer is told things, and in between anything may
become of the registry and the master, but nobody else records columns. -/
inductive Course (s : Solve (Recorded μ)) : Solve (Recorded μ) → Prop
  | begun : Course s s
  | called {t : Solve (Recorded μ)} (c : Command) (h : Course s t) :
      Course s ((obey c).after t)
  | meanwhile {t : Solve (Recorded μ)} (problem : Problem (Recorded μ))
      (hcolumns : problem.registry.columns = t.problem.registry.columns)
      (h : Course s t) :
      Course s { t with problem }

/-- No command changes the settings. -/
theorem Effect.settings {command : Command} {p q : Pricer}
    {answer : Except PricingError (Option RoundOutcome)}
    (h : Effect command p answer q) :
    q.selection = p.selection ∧ q.tolerance = p.tolerance := by
  cases h <;> exact ⟨rfl, rfl⟩

/-- A pricer keeps its configuration, and what it has recorded improves. -/
structure Configured (c : Config) (s : Solve (Recorded μ)) : Prop where
  selection : s.pricer.selection = c.selection
  tolerance : s.pricer.tolerance = c.tolerance
  recorded : ∀ name p, s.problem.registry.path? name = some p →
    p.length.isFinite = true ∧ p.length < 0.0

/-- A command leaves a configured pricer. -/
theorem Configured.called (h : Configured c s) (hc : c.Sensible)
    (command : Command) :
    Configured c ((obey command).after s) := by
  obtain ⟨hselection, htolerance⟩ := (effect_obey command s).settings
  refine ⟨hselection.trans h.selection, htolerance.trans h.tolerance, ?_⟩
  have hquiet : Quiet s ((obey command).after s) → ∀ name p,
      ((obey command).after s).problem.registry.path? name = some p →
        p.length.isFinite = true ∧ p.length < 0.0 := by
    intro hquiet name p hp
    apply h.recorded name p
    unfold Registry.path? at hp ⊢
    rw [← hquiet.columns]
    exact hp
  cases command with
  | start =>
      exact hquiet (Action.moves_bind quiet_start (fun _ =>
        Action.moves_pure _) s)
  | terminate =>
      exact hquiet (Action.moves_bind quiet_terminate (fun _ =>
        Action.moves_pure _) s)
  | round kind =>
      have hreport : ∀ out : RoundOutcome, Action.Leaves id
          (pure (some out) : Action PricingError (Solve (Recorded μ)) _) :=
        fun _ => Action.moves_pure _
      have hround : (obey (.round kind)).after s = (price kind).after s :=
        Action.view_after_bind hreport s
      obtain ⟨added, made, hadds, -⟩ :=
        adds_price hc h.selection h.tolerance kind
      rw [hround]
      intro name p hp
      unfold Registry.path? at hp
      rw [hadds.columns] at hp
      rcases get?_foldl_insert hp with hin | hold
      · exact hadds.choice.improving p hin
      · exact h.recorded name p hold

/-- No course of calls changes the settings. -/
theorem Course.configured (hrun : Course s t) (hc : c.Sensible)
    (h : Configured c s) :
    Configured c t := by
  induction hrun with
  | begun => exact h
  | called command _ ih => exact ih.called hc command
  | meanwhile problem hcolumns _ ih =>
      refine ⟨ih.selection, ih.tolerance, ?_⟩
      intro name p hp
      apply ih.recorded name p
      unfold Registry.path? at hp ⊢
      rw [← hcolumns]
      exact hp

/-- A pricer made from a configuration that was accepted only adds columns that
improve. Its tolerance is finite and not negative, and none of the substrings
it was given is empty. Let it be told anything in any order, on any registry
without columns and with any master; between the calls everything may change,
as long as nobody else records columns. Then every recorded path has a finite
length below zero. Every round, however it ends, adds such columns only, from
different networks; it adds at most as many as configured if that is a positive
number, and at most one for each registered network otherwise, and creates no
more variables than that. If it succeeds, it reports how many it added. -/
theorem configured_adds_improving (μ : Type) [MasterProblem μ]
    {text : Json.Bytes} {c : Config} (hread : Config.ofJson text = .ok c) :
    c.tolerance.isFinite = true ∧ 0.0 ≤ c.tolerance ∧ "" ∉ c.unneeded
      ∧ ∀ (problem : Problem (Recorded μ)) (s : Solve (Recorded μ)),
          problem.registry.columns = .empty → Course ⟨problem, .ofConfig c⟩ s →
          (∀ name p, s.problem.registry.path? name = some p →
            p.length.isFinite = true ∧ p.length < 0.0)
          ∧ ∀ kind, ∃ added made, Adds c s ((price kind).after s) added made
            ∧ ∀ out t, price kind s = .ok out t →
              out.columns = added.length := by
  have hc := Config.sensible_of_ofJson hread
  refine ⟨hc.finite, hc.nonneg, hc.substrings, ?_⟩
  intro problem s hempty hrun
  have hnew : Configured c ⟨problem, .ofConfig c⟩ := by
    refine ⟨rfl, rfl, ?_⟩
    intro name p hp
    unfold Registry.path? at hp
    rw [hempty] at hp
    exact nomatch hp
  have hconfigured := hrun.configured hc hnew
  exact ⟨hconfigured.recorded,
    adds_price hc hconfigured.selection hconfigured.tolerance⟩

/-- A configuration as an array, with a tolerance of minus zero. -/
def sampleText : Json.Bytes := "[0, 1, -0.0, [\"fix\"]]".toUTF8.toList

/-- A start and a round of a new pricer with a configuration. -/
def sampleRun (c : Config) : Solve (Recorded (Failing MemoryMaster)) :=
  told none (.round .reducedCost)
    (told none .start ⟨sampleNew.problem, .ofConfig c⟩)

/-- A call while the master fails so is a call after a change. -/
theorem Course.told {s t : Solve (Recorded (Failing MemoryMaster))}
    (h : Course s t) (injection : Option Injection) (command : Command) :
    Course s (told injection command t) :=
  .called command (.meanwhile (t := t) (withInjection injection t) rfl h)

/-- Even with that tolerance, the column added is shorter than zero, and another
round adds at most one. -/
theorem configured_adds_improving_sample :
    ∃ c s p, Config.ofJson sampleText = .ok c ∧ 0.0 ≤ c.tolerance
      ∧ Course ⟨sampleNew.problem, .ofConfig c⟩ s
      ∧ s.problem.registry.path? (columnName 0) = some p ∧ p.length < 0.0
      ∧ ∃ added made, Adds c s ((price .farkas).after s) added made
        ∧ added.length ≤ 1 := by
  have hrun : Action.yields (Config.ofJson sampleText) (fun c =>
      decide (c.pricingStrategy = 1)
        && ((sampleRun c).problem.registry.path? (columnName 0)).isSome)
          = true := by
    decide +kernel
  have hempty : sampleNew.problem.registry.columns = .empty := by decide +kernel
  obtain ⟨c, hread, hrun⟩ := Action.exists_of_yields hrun
  obtain ⟨hone, hrecorded⟩ := Bool.and_eq_true_iff.1 hrun
  have hcourse : Course ⟨sampleNew.problem, .ofConfig c⟩ (sampleRun c) :=
    (Course.begun.told none .start).told none (.round .reducedCost)
  -- from here on it does not matter what the problem was
  generalize sampleRun c = s at hrecorded hcourse
  generalize sampleNew.problem = problem at hempty hcourse ⊢
  obtain ⟨p, hp⟩ := Option.isSome_iff_exists.1 hrecorded
  obtain ⟨-, hnonneg, -, hall⟩ :=
    configured_adds_improving (Failing MemoryMaster) hread
  obtain ⟨himproving, hrounds⟩ := hall problem s hempty hcourse
  obtain ⟨added, made, hadds, -⟩ := hrounds .farkas
  have hbounded := hadds.choice.bounded
  rw [List.length_map, Config.quota, of_decide_eq_true hone] at hbounded
  exact ⟨c, s, p, hread, hnonneg, hcourse, hp, (himproving _ p hp).2, added,
    made, hadds, hbounded⟩

end Solve

end FlowPricing
