/-
Column names are never used again, and records are permanent, whoever adds
the columns. A round takes the numbers it hands out before it tries the
first column, and never gives them back; so along a whole run no name is
used twice, whatever fails in between and in whatever order the workers take
their turns, and nothing recorded is ever replaced. The numbers of a later
round are above those of an earlier one. Within a round the order is that of
the workers, so it ascends only if there is one (`Solve.priceOn_nil`).

What a round does to the names is said once, in `Solve.Handed`. Along a run
it becomes an invariant of the calls (`Solve.Created`), one of the records
(`Solve.Filed`), and, while no round fails with a column, one of both: what
is recorded has the numbers from zero on (`Solve.Gapless`).
-/
import FlowPricing.Proofs.Pricing.Naming
import FlowPricing.Proofs.Pricing.Workers

namespace FlowPricing

/-- A call that changes nothing creates nothing. -/
theorem MasterCall.creates?_of_not_mutating {c : MasterCall}
    (h : c.isMutating = false) :
    c.creates? = none := by
  cases c with
  | addPricedVariable => exact nomatch h
  | _ => rfl

/-- Recording columns takes the registry onward. -/
theorem AddedColumn.onward_recordAll (columns : List AddedColumn)
    (r : Registry) :
    Registry.Onward r (recordAll columns r) := by
  induction columns generalizing r with
  | nil => exact .refl
  | cons c columns ih => exact .head (.column r c.name c.path) (ih _)

namespace Solve

section Rounds

variable {μ : Type} [MasterProblem μ] {kind : PricingKind} {schedule : List Nat}
  {s : Solve μ}

/-- A round whose columns are added in the order of a schedule. -/
def priceOn (schedule : List Nat) (kind : PricingKind) :
    Action PricingError (Solve μ) RoundOutcome := do
  require .price (· == .ready)
  let pricer := (← get).pricer
  let chosen ← survey kind pricer
  generateBy (Round.addColumnsOn schedule) pricer chosen

/-- A pricer that is ready looks first, and then hands the columns to the
workers. -/
theorem priceOn_of_ready (h : s.pricer.state = .ready) : priceOn schedule kind s
    = (survey kind s.pricer
      >>= generateBy (Round.addColumnsOn schedule) s.pricer) s := by
  have hrequire : require .price (· == .ready) s = .ok () s :=
    require_eq_ok.2 ⟨by simp [h], rfl⟩
  unfold priceOn
  show EStateM.bind _ _ s = _
  unfold EStateM.bind
  rw [hrequire]
  rfl

/-- One that is not refuses, whatever the schedule. -/
theorem priceOn_of_not_ready (h : s.pricer.state ≠ .ready) :
    priceOn schedule kind s = .error (.invalidState .price s.pricer.state) s :=
  Action.bind_eq_error.2 (.inl (require_of_false (by simpa using h)))

/-- With a single worker it is a round as it is run. -/
theorem priceOn_nil (kind : PricingKind) :
    priceOn (μ := μ) [] kind = price kind := by
  funext s
  by_cases hready : s.pricer.state = .ready
  · have hadd : Round.addColumnsOn (μ := μ) [] = Round.addColumns := by
      funext tolerance first chosen
      exact Round.addColumnsOn_nil tolerance first chosen
    rw [priceOn_of_ready hready, price_of_ready hready, hadd]
    rfl
  · rw [priceOn_of_not_ready hready, price_of_not_ready hready]

/-- Until it has chosen, a round takes the solve onward. -/
theorem moves_survey (kind : PricingKind) (pricer : Pricer) :
    Action.Moves (Onward (μ := μ)) (survey kind pricer) := by
  have hzero : Action.Moves (Onward (μ := μ))
      (onProblem (Problem.modifyRegistry Round.zeroWeights)) :=
    moves_onProblem (Action.moves_modify fun p =>
      Round.onward_zeroWeights p.registry)
  have hpaths : Action.Moves (Onward (μ := μ))
      (onProblem (Problem.onRegistry Round.shortestPaths)) :=
    moves_onProblem (Round.moves_onRegistry Round.moves_shortestPaths)
  refine Action.moves_bind (Action.moves_bind hzero fun _ => ?_) fun _ => ?_
  · exact moves_onProblem (Round.moves_reweight _ _)
  · exact Action.moves_bind hpaths fun _ => Action.moves_pure _

end Rounds

variable {μ : Type} {kind : PricingKind} {schedule : List Nat}
  {s t u : Solve (Recorded μ)} {numbers : List Nat} {done : List AddedColumn}

-- ================================================================= calls

/-- From `s` to `t` variables were created under these numbers, and all of
them were handed out meanwhile. Earlier and later ones are related by `R`. -/
structure Created (R : Nat → Nat → Prop) (s t : Solve (Recorded μ))
    (numbers : List Nat) :
    Prop where
  calls : ∃ later, t.problem.master.calls = s.problem.master.calls ++ later
    ∧ createdNames later = numbers.map columnName
  numbered : s.pricer.nextColumn ≤ t.pricer.nextColumn
  issued : ∀ i ∈ numbers, s.pricer.nextColumn ≤ i ∧ i < t.pricer.nextColumn
  related : numbers.Pairwise R

section Calls

variable {R : Nat → Nat → Prop}

/-- If nothing was created, it was created under no number. -/
theorem Created.of_none (R : Nat → Nat → Prop)
    (hcalls : Recorded.CreatesNone s.problem.master t.problem.master)
    (hnext : t.pricer.nextColumn = s.pricer.nextColumn) : Created R s t [] where
  calls := hcalls
  numbered := Nat.le_of_eq hnext.symm
  issued := fun _ hi => absurd hi List.not_mem_nil
  related := .nil

/-- Numbers that are handed out later are greater. -/
theorem Created.trans {more : List Nat} (hR : ∀ i j, i < j → R i j)
    (h : Created R s t numbers) (h' : Created R t u more) :
    Created R s u (numbers ++ more) where
  calls := by
    obtain ⟨later, hcalls, hnames⟩ := h.calls
    obtain ⟨later', hcalls', hnames'⟩ := h'.calls
    refine ⟨later ++ later', ?_, ?_⟩
    · rw [hcalls', hcalls, List.append_assoc]
    · rw [createdNames_append, hnames, hnames', List.map_append]
  numbered := h.numbered.trans h'.numbered
  issued := by
    intro i hi
    have hfirst := h.numbered
    have hsecond := h'.numbered
    rcases List.mem_append.1 hi with hi | hi
    · have := h.issued i hi
      omega
    · have := h'.issued i hi
      omega
  related := by
    refine List.pairwise_append.2 ⟨h.related, h'.related, fun i hi j hj =>
      hR i j ?_⟩
    exact Nat.lt_of_lt_of_le (h.issued i hi).2 (h'.issued j hj).1

/-- Calls that were made have created what they have created. -/
theorem Created.unique {R' : Nat → Nat → Prop} {more : List Nat}
    (h : Created R s t numbers) (h' : Created R' s t more) :
    more = numbers := by
  obtain ⟨later, hcalls, hnames⟩ := h.calls
  obtain ⟨later', hcalls', hnames'⟩ := h'.calls
  obtain rfl := List.append_cancel_left (hcalls.symm.trans hcalls')
  exact List.map_injective_iff.2 (fun _ _ => columnName_injective)
    (hnames'.symm.trans hnames)

end Calls

-- ================================================================ rounds

variable [MasterProblem μ]

/-- The round chooses its paths and then fails with one of the columns. -/
def FailsGeneratingOn (schedule : List Nat) (kind : PricingKind)
    (s : Solve (Recorded μ)) : Prop :=
  ∃ chosen s' e u, s.pricer.state = .ready
    ∧ survey kind s.pricer s = .ok chosen s'
    ∧ generateBy (Round.addColumnsOn schedule) s.pricer chosen s' = .error e u

/-- Such a round fails. -/
theorem FailsGeneratingOn.fails (h : FailsGeneratingOn schedule kind s) :
    ∃ e u, priceOn schedule kind s = .error e u := by
  obtain ⟨chosen, s', e, u, hready, hsurvey, hgenerate⟩ := h
  rw [priceOn_of_ready hready]
  exact ⟨e, u, Action.bind_eq_error.2 (.inr ⟨chosen, s', hsurvey, hgenerate⟩)⟩

/-- What a round has done to the names, however it ended and whoever added
its columns. Variables were created under some of the numbers it has handed
out, in some order, and some of the columns are recorded; all of them unless
it fails with one. -/
structure Handed (schedule : List Nat) (kind : PricingKind)
    (s t : Solve (Recorded μ)) (numbers : List Nat) (done : List AddedColumn) :
    Prop where
  created : Created (· ≠ ·) s t numbers
  names : (done.map AddedColumn.name).Subperm ((List.range' s.pricer.nextColumn
    (t.pricer.nextColumn - s.pricer.nextColumn)).map columnName)
  surveyed : ∀ c ∈ done, ∃ chosen s', survey kind s.pricer s = .ok chosen s'
    ∧ c.path ∈ chosen
  columns : t.problem.registry.columns
    = done.foldl (fun t c => t.insert c.name c.path) s.problem.registry.columns
  onward : Registry.Onward s.problem.registry t.problem.registry
  tolerance : t.pricer.tolerance = s.pricer.tolerance
  counted : ¬FailsGeneratingOn schedule kind s →
    t.pricer.nextColumn = s.pricer.nextColumn + done.length
      ∧ t.pricer.generated = s.pricer.generated + done.length

omit [MasterProblem μ] in
/-- Looking creates no variable. -/
theorem Looked.createsNone (h : Looked s t) :
    Recorded.CreatesNone s.problem.master t.problem.master := by
  obtain ⟨reads, hcalls, hreads⟩ := h.problem.reads
  refine ⟨reads, hcalls, ?_⟩
  unfold createdNames
  rw [List.filterMap_map]
  exact List.filterMap_eq_nil_iff.2 fun c hc =>
    MasterCall.creates?_of_not_mutating (hreads c hc)

/-- A round that only looked has handed out nothing. -/
theorem Handed.nothing (hlooked : Looked s t)
    (honward : Registry.Onward s.problem.registry t.problem.registry) :
    Handed schedule kind s t [] [] where
  created :=
    .of_none _ hlooked.createsNone (congrArg Pricer.nextColumn hlooked.pricer)
  names := List.nil_subperm
  surveyed := fun _ hc => absurd hc List.not_mem_nil
  columns := hlooked.problem.columns
  onward := honward
  tolerance := congrArg Pricer.tolerance hlooked.pricer
  counted := fun _ => by
    rw [hlooked.pricer]
    exact ⟨rfl, rfl⟩

omit [MasterProblem μ] in
/-- Adding columns does not change the tolerance. -/
theorem leaves_tolerance_generateBy
    (add : Float → Nat → List Path →
      Action PricingError (Problem (Recorded μ)) Nat)
    (pricer : Pricer) (chosen : List Path) :
    Action.Leaves (fun s : Solve (Recorded μ) => s.pricer.tolerance)
      (generateBy add pricer chosen) := by
  refine Action.moves_bind (Action.moves_modify fun _ => rfl) fun _ => ?_
  refine Action.moves_bind (Action.moves_focus fun _ => rfl) fun _ => ?_
  exact Action.moves_bind (Action.moves_modify fun _ => rfl) fun _ =>
    Action.moves_pure _

/-- Once it has chosen, a round hands out one number for each path. -/
theorem handed_of_survey {chosen : List Path} (hready : s.pricer.state = .ready)
    (hsurvey : survey kind s.pricer s = .ok chosen u) :
    ∃ numbers done, Handed schedule kind s
      ((generateBy (Round.addColumnsOn schedule) s.pricer chosen).after u)
        numbers done := by
  have hlooked : Looked s u := (looked_survey kind s.pricer).of_ok hsurvey
  have honward : Onward s u := (moves_survey kind s.pricer).of_ok hsurvey
  obtain ⟨numbers, done, hworked, hall⟩ := Round.addColumnsOn_worked
    (isImproving_of_survey hsurvey) schedule s.pricer.nextColumn u.problem
  obtain ⟨hproblem, hnext⟩ :=
    after_generateBy (Round.addColumnsOn schedule) chosen u
  rw [hlooked.pricer] at hproblem hnext
  rw [← hproblem] at hworked
  refine ⟨numbers, done, ?_⟩
  exact {
    created := by
      obtain ⟨reads, hreads, hnone⟩ := hlooked.createsNone
      obtain ⟨later, hcalls, hnames⟩ := hworked.created
      refine ⟨⟨reads ++ later, ?_, ?_⟩, by omega, ?_, hworked.different⟩
      · rw [hcalls, hreads, List.append_assoc]
      · rw [createdNames_append, hnone, hnames, List.nil_append]
      · intro i hi
        have := hworked.issued i hi
        omega
    names := by
      rw [hnext, Nat.add_sub_cancel_left]
      exact hworked.names
    surveyed := fun c hc => ⟨chosen, u, hsurvey, hworked.paths c hc⟩
    columns := by
      rw [hworked.registry, AddedColumn.recordAll_eq, hlooked.problem.columns]
    onward := by
      rw [hworked.registry]
      exact honward.registry.trans (AddedColumn.onward_recordAll done _)
    tolerance :=
      (leaves_tolerance_generateBy _ s.pricer chosen u).trans
        (congrArg Pricer.tolerance hlooked.pricer)
    counted := by
      intro hfails
      cases hgenerate : generateBy (Round.addColumnsOn schedule) s.pricer
        chosen u with
      | error e w =>
          exact absurd ⟨chosen, u, e, w, hready, hsurvey, hgenerate⟩ hfails
      | ok out w =>
          obtain ⟨k, q, hcolumns, -, rfl⟩ := generateBy_eq_ok.1 hgenerate
          obtain ⟨rfl, hlength⟩ := hall k q hcolumns
          rw [Action.after_of_ok hgenerate, hlooked.pricer, hlength]
          exact ⟨rfl, rfl⟩ }

/-- Whoever adds the columns of a round, and however it ends, it hands out
names. -/
theorem priceOn_handed (schedule : List Nat) (kind : PricingKind)
    (s : Solve (Recorded μ)) :
    ∃ numbers done, Handed schedule kind s ((priceOn schedule kind).after s)
      numbers done := by
  by_cases hready : s.pricer.state = .ready
  · have hlooked := looked_survey kind s.pricer s
    have honward := moves_survey kind s.pricer s
    rw [Action.after_congr (priceOn_of_ready hready), Action.after_bind]
    cases hsurvey : survey kind s.pricer s with
    | ok chosen u => exact handed_of_survey hready hsurvey
    | error e u =>
        rw [Action.after_of_error hsurvey] at hlooked honward
        exact ⟨[], [], .nothing hlooked honward.registry⟩
  · rw [Action.after_of_error (priceOn_of_not_ready hready)]
    exact ⟨[], [], .nothing (refl_of Looked s) .refl⟩

/-- A single worker creates the variables under ascending numbers. -/
theorem created_price (kind : PricingKind) (s : Solve (Recorded μ)) :
    ∃ numbers, Created (· < ·) s ((price kind).after s) numbers := by
  obtain ⟨tried, done, hleft⟩ := price_left kind s
  obtain ⟨later, n, hcalls, hnames, hle⟩ := hleft.created
  have hnumbered := hleft.numbered
  refine ⟨_, ⟨later, hcalls, hnames⟩, by omega, ?_, List.pairwise_lt_range'⟩
  intro i hi
  have := List.mem_range'_1.1 hi
  omega

-- =============================================================== records

omit [MasterProblem μ] in
/-- Names of numbers are pairwise different. -/
theorem nodup_of_subperm {names : List String} {k count : Nat}
    (h : names.Subperm ((List.range' k count).map columnName)) :
    names.Nodup := by
  obtain ⟨names', hperm, hsub⟩ := h
  exact hperm.nodup_iff.1
    (hsub.nodup ((List.nodup_range' _).map fun _ _ => columnName_injective))

/-- The columns recorded have numbers that were handed out. -/
theorem Handed.exists_number (h : Handed schedule kind s t numbers done)
    {c : AddedColumn} (hc : c ∈ done) :
    ∃ i, s.pricer.nextColumn ≤ i ∧ i < t.pricer.nextColumn
      ∧ c.name = columnName i := by
  have hname := h.names.subset (List.mem_map_of_mem (f := AddedColumn.name) hc)
  obtain ⟨i, hi, heq⟩ := List.mem_map.1 hname
  obtain ⟨hle, hlt⟩ := List.mem_range'_1.1 hi
  have hnumbered := h.created.numbered
  exact ⟨i, hle, by omega, heq.symm⟩

/-- A round changes the records by those columns. -/
theorem Handed.path?_eq (h : Handed schedule kind s t numbers done)
    (name : String) :
    t.problem.registry.path? name
      = (AddedColumn.recordAll done s.problem.registry).path? name := by
  unfold Registry.path?
  rw [h.columns, AddedColumn.recordAll_eq]

/-- What was recorded under a number handed out before is recorded still. -/
theorem Handed.path?_kept (h : Handed schedule kind s t numbers done) {i : Nat}
    (hi : i < s.pricer.nextColumn) :
    t.problem.registry.path? (columnName i)
      = s.problem.registry.path? (columnName i) := by
  rw [h.path?_eq]
  apply AddedColumn.path?_recordAll_of_ne
  intro c hc heq
  obtain ⟨j, hj, -, hname⟩ := h.exists_number hc
  have := columnName_injective (hname.symm.trans heq)
  omega

/-- What is recorded after a round is one of its columns, or it was recorded
before. -/
theorem Handed.path?_cases (h : Handed schedule kind s t numbers done)
    {name : String} {p : Path} (hp : t.problem.registry.path? name = some p) :
    (∃ c ∈ done, c.name = name ∧ c.path = p)
      ∨ s.problem.registry.path? name = some p := by
  rw [h.path?_eq] at hp
  by_cases hnew : ∃ c ∈ done, c.name = name
  · obtain ⟨c, hc, rfl⟩ := hnew
    rw [AddedColumn.path?_recordAll (nodup_of_subperm h.names) hc] at hp
    exact .inl ⟨c, hc, rfl, Option.some.inj hp⟩
  · rw [AddedColumn.path?_recordAll_of_ne fun c hc heq =>
      hnew ⟨c, hc, heq⟩] at hp
    exact .inr hp

omit [MasterProblem μ] in
/-- What is so of the records along a run from `s`: their names were all
handed out, and their paths are worth a column. -/
structure Filed (s t : Solve (Recorded μ)) : Prop where
  recorded : ∀ name p, t.problem.registry.path? name = some p →
    (∃ i < t.pricer.nextColumn, name = columnName i)
      ∧ t.problem.registry.Worth s.pricer.tolerance p
  sound : t.problem.registry.Sound
  tolerance : t.pricer.tolerance = s.pricer.tolerance

omit [MasterProblem μ] in
/-- Where nothing is recorded, the records stay in order. -/
theorem Filed.quiet (h : Filed s t) (hquiet : Quiet t u) : Filed s u where
  recorded := by
    intro name p hp
    unfold Registry.path? at hp
    rw [hquiet.columns] at hp
    obtain ⟨hname, hworth⟩ := h.recorded name p hp
    rw [hquiet.nextColumn]
    exact ⟨hname, hworth.of_networks hquiet.networks⟩
  sound := h.sound.of_networks hquiet.networks
  tolerance := hquiet.tolerance.trans h.tolerance

/-- Names that a round hands out are new. -/
theorem Filed.round (h : Filed s t)
    (hround : Handed schedule kind t u numbers done) :
    Filed s u where
  recorded := by
    intro name p hp
    rcases hround.path?_cases hp with ⟨c, hc, rfl, rfl⟩ | hp
    · obtain ⟨i, -, hi, hname⟩ := hround.exists_number hc
      obtain ⟨chosen, v, hsurvey, hin⟩ := hround.surveyed c hc
      have hworth :=
        (worth_of_survey h.sound hsurvey hin).onward h.sound hround.onward
      rw [h.tolerance] at hworth
      exact ⟨⟨i, hi, hname⟩, hworth⟩
    · obtain ⟨⟨i, hi, hname⟩, hworth⟩ := h.recorded name p hp
      have hnumbered := hround.created.numbered
      exact ⟨⟨i, by omega, hname⟩, hworth.onward h.sound hround.onward⟩
  sound := hround.onward.sound h.sound
  tolerance := hround.tolerance.trans h.tolerance

omit [MasterProblem μ] in
/-- The columns recorded have the numbers from zero on, as many as were
generated, and no other number was handed out. -/
structure Gapless (t : Solve (Recorded μ)) : Prop where
  keys : t.problem.registry.columns.keys.Perm
    ((List.range t.pricer.generated).map columnName)
  counted : t.pricer.nextColumn = t.pricer.generated

omit [MasterProblem μ] in
/-- Where nothing is recorded, no gap appears. -/
theorem Gapless.quiet (h : Gapless t) (hquiet : Quiet t u) : Gapless u := by
  obtain ⟨hkeys, hcounted⟩ := h
  refine ⟨?_, ?_⟩
  · rw [hquiet.columns, hquiet.generated]
    exact hkeys
  · rw [hquiet.nextColumn, hquiet.generated, hcounted]

/-- A round that does not fail with a column leaves no gap. -/
theorem Gapless.round (h : Gapless t)
    (hround : Handed schedule kind t u numbers done)
    (hfails : ¬FailsGeneratingOn schedule kind t) : Gapless u := by
  obtain ⟨hnext, hgenerated⟩ := hround.counted hfails
  have hnames : (done.map AddedColumn.name).Perm
      ((List.range' t.pricer.generated done.length).map columnName) := by
    have hsub := hround.names
    rw [hnext, Nat.add_sub_cancel_left, h.counted] at hsub
    exact hsub.perm_of_length_le (by simp)
  have hkeys : (t.problem.registry.columns.keys
      ++ done.map AddedColumn.name).Perm
      ((List.range (t.pricer.generated + done.length)).map columnName) := by
    have happend :=
      List.range'_append_1 (s := 0) (m := t.pricer.generated) (n := done.length)
    rw [Nat.zero_add] at happend
    rw [List.range_eq_range', ← happend, ← List.range_eq_range',
      List.map_append]
    exact h.keys.append hnames
  refine ⟨?_, by rw [hnext, hgenerated, h.counted]⟩
  rw [hround.columns, hgenerated, AddedColumn.keys_foldl_insert]
  · exact hkeys
  · exact hkeys.nodup_iff.2 (List.nodup_range.map fun _ _ =>
      columnName_injective)

-- ================================================================== runs

/-- What an event leaves of a solve. If it is a round, its columns are added
in the order of the schedule. -/
def afterEventOn (s : Solve (Recorded μ)) :
    Event μ × List Nat → Solve (Recorded μ)
  | (.round kind, schedule) => (priceOn schedule kind).after s
  | (e, _) => s.afterEvent e

/-- What events leave of a solve, one after another. -/
def throughOn (s : Solve (Recorded μ)) (events : List (Event μ × List Nat)) :
    Solve (Recorded μ) :=
  events.foldl afterEventOn s

theorem throughOn_append (s : Solve (Recorded μ))
    (events more : List (Event μ × List Nat)) :
    s.throughOn (events ++ more) = (s.throughOn events).throughOn more :=
  List.foldl_append

theorem throughOn_concat (s : Solve (Recorded μ))
    (events : List (Event μ × List Nat)) (e : Event μ × List Nat) :
    s.throughOn (events ++ [e]) = (s.throughOn events).afterEventOn e :=
  throughOn_append s events [e]

/-- With a single worker this is what the events leave. -/
theorem afterEventOn_nil (s : Solve (Recorded μ)) (e : Event μ) :
    s.afterEventOn (e, []) = s.afterEvent e := by
  cases e with
  | round kind =>
      show (priceOn [] kind).after s = (price kind).after s
      rw [priceOn_nil]
  | _ => rfl

/-- An event is quiet or a round. -/
theorem quiet_or_handed (s : Solve (Recorded μ)) (e : Event μ × List Nat) :
    Quiet s (s.afterEventOn e) ∨ ∃ kind numbers done, e.1 = .round kind
      ∧ Handed e.2 kind s (s.afterEventOn e) numbers done := by
  obtain ⟨e, schedule⟩ := e
  cases e with
  | start => exact .inl (quiet_start s)
  | round kind =>
      obtain ⟨numbers, done, hround⟩ := priceOn_handed schedule kind s
      exact .inr ⟨kind, numbers, done, rfl, hround⟩
  | terminate => exact .inl (quiet_terminate s)
  | master change => exact .inl (quiet_withInner s _)

/-- No event creates variables under a number twice. -/
theorem created_afterEventOn (s : Solve (Recorded μ)) (e : Event μ × List Nat) :
    ∃ numbers, Created (· ≠ ·) s (s.afterEventOn e) numbers := by
  rcases quiet_or_handed s e with hquiet | ⟨_, numbers, _, _, hround⟩
  · exact ⟨[], .of_none _ hquiet.calls hquiet.nextColumn⟩
  · exact ⟨numbers, hround.created⟩

/-- With a single worker the numbers ascend. -/
theorem created_afterEvent (s : Solve (Recorded μ)) (e : Event μ) :
    ∃ numbers, Created (· < ·) s (s.afterEvent e) numbers := by
  cases e with
  | round kind => exact created_price kind s
  | start =>
      exact ⟨[], .of_none _ (quiet_start s).calls (quiet_start s).nextColumn⟩
  | terminate =>
      exact ⟨[], .of_none _ (quiet_terminate s).calls
        (quiet_terminate s).nextColumn⟩
  | master change => exact ⟨[], .of_none _ (refl_of Recorded.CreatesNone _) rfl⟩

/-- What each event does to the numbers, a run does. -/
theorem created_throughOn {R : Nat → Nat → Prop} (hR : ∀ i j, i < j → R i j)
    (events : List (Event μ × List Nat))
    (hevents : ∀ e ∈ events, ∀ t : Solve (Recorded μ), ∃ numbers,
      Created R t (t.afterEventOn e) numbers) (s : Solve (Recorded μ)) :
    ∃ numbers, Created R s (s.throughOn events) numbers := by
  induction events generalizing s with
  | nil => exact ⟨[], .of_none R (refl_of Recorded.CreatesNone _) rfl⟩
  | cons e events ih =>
      obtain ⟨numbers, hfirst⟩ := hevents e List.mem_cons_self s
      obtain ⟨more, hrest⟩ :=
        ih (fun e' he' => hevents e' (List.mem_cons_of_mem e he'))
          (s.afterEventOn e)
      exact ⟨numbers ++ more, hfirst.trans hR hrest⟩

/-- The records stay in order, whatever happens next, and stay what they
are. -/
theorem Filed.event (h : Filed s t) (e : Event μ × List Nat) :
    Filed s (t.afterEventOn e)
      ∧ ∀ name p, t.problem.registry.path? name = some p →
      (t.afterEventOn e).problem.registry.path? name = some p := by
  rcases quiet_or_handed t e with hquiet | ⟨kind, numbers, done, -, hround⟩
  · refine ⟨h.quiet hquiet, fun name p hp => ?_⟩
    unfold Registry.path? at hp ⊢
    rw [hquiet.columns]
    exact hp
  · refine ⟨h.round hround, fun name p hp => ?_⟩
    obtain ⟨⟨i, hi, rfl⟩, -⟩ := h.recorded name p hp
    exact (hround.path?_kept hi).trans hp

/-- So they do along a run. -/
theorem Filed.through (h : Filed s t) (events : List (Event μ × List Nat)) :
    Filed s (t.throughOn events)
      ∧ ∀ name p, t.problem.registry.path? name = some p →
      (t.throughOn events).problem.registry.path? name = some p := by
  induction events generalizing t with
  | nil => exact ⟨h, fun _ _ => id⟩
  | cons e events ih =>
      obtain ⟨hnext, hkept⟩ := h.event e
      obtain ⟨hlast, hkept'⟩ := ih hnext
      exact ⟨hlast, fun name p hp => hkept' name p (hkept name p hp)⟩

/-- A run leaves no gap if no round in it fails with a column. -/
theorem Gapless.through (h : Gapless s) {events : List (Event μ × List Nat)}
    (hrounds : ∀ before kind schedule later,
      events = before ++ (.round kind, schedule) :: later →
      ¬FailsGeneratingOn schedule kind (s.throughOn before)) :
        Gapless (s.throughOn events) := by
  induction events using List.reverseRecOn with
  | nil => exact h
  | append_singleton events e ih =>
      have hgapless := ih fun before kind schedule later heq =>
        hrounds before kind schedule (later ++ [e])
          (by rw [heq, List.append_assoc]; rfl)
      rw [throughOn_concat]
      rcases quiet_or_handed (s.throughOn events) e with
        hquiet | ⟨kind, numbers, done, hkind, hround⟩
      · exact hgapless.quiet hquiet
      · obtain ⟨e, schedule⟩ := e
        obtain rfl : e = .round kind := hkind
        exact hgapless.round hround (hrounds events kind schedule [] rfl)

/-- No name is used again, and records are permanent. Whatever a new pricer
is told, whatever calls of the master fail, and in whatever order the workers
take their turns: every variable is created under the name of a number, no
two under one, and the numbers after an event are above those before; with a
single worker they ascend throughout. A recorded path stays recorded under
its name, and is a route of the network of its group, shorter than zero by
more than the tolerance. Until a round fails with one of its columns, the
names recorded are those of the numbers from zero on, as many as the pricer
counts. -/
theorem names_never_reused (hs : s.problem.registry.Reachable)
    (hempty : s.problem.registry.columns = .empty)
    (hnext : s.pricer.nextColumn = 0) (hgenerated : s.pricer.generated = 0)
    (events : List (Event μ × List Nat)) :
    (∃ (calls : List RecordedCall) (numbers : List Nat),
        (s.throughOn events).problem.master.calls
          = s.problem.master.calls ++ calls
          ∧ createdNames calls = numbers.map columnName
          ∧ (createdNames calls).Nodup
          ∧ ((∀ e ∈ events, e.2 = []) → numbers.Pairwise (· < ·)))
      ∧ (∀ before later, events = before ++ later →
          ∃ (calls calls' : List RecordedCall) (numbers numbers' : List Nat),
            (s.throughOn before).problem.master.calls
                = s.problem.master.calls ++ calls
              ∧ (s.throughOn events).problem.master.calls
                = (s.throughOn before).problem.master.calls ++ calls'
              ∧ createdNames calls = numbers.map columnName
              ∧ createdNames calls' = numbers'.map columnName
              ∧ ∀ i ∈ numbers, ∀ j ∈ numbers', i < j)
      ∧ (∀ name p, (s.throughOn events).problem.registry.path? name = some p →
          (s.throughOn events).problem.registry.Worth s.pricer.tolerance p
            ∧ ∀ more,
              (s.throughOn (events ++ more)).problem.registry.path? name
                = some p)
      ∧ ((∀ before kind schedule later,
            events = before ++ (.round kind, schedule) :: later →
            ¬FailsGeneratingOn schedule kind (s.throughOn before)) →
          (s.throughOn events).problem.registry.columns.keys.Perm
              ((List.range (s.throughOn events).pricer.generated).map
                columnName)
            ∧ (s.throughOn events).problem.registry.columns.size
              = (s.throughOn events).pricer.generated) := by
  have hnone : ∀ name, s.problem.registry.path? name = none := by
    intro name
    unfold Registry.path?
    rw [hempty]
    rfl
  have hstart : Filed s s := {
    recorded := fun name p hp => nomatch (hnone name).symm.trans hp
    sound := hs.sound
    tolerance := rfl }
  have hgapless : Gapless s := by
    refine ⟨?_, hnext.trans hgenerated.symm⟩
    rw [hempty, hgenerated]
    exact .refl _
  have hdifferent := fun events : List (Event μ × List Nat) =>
    created_throughOn (fun _ _ => Nat.ne_of_lt) events
      (fun e _ t => created_afterEventOn t e)
  refine ⟨?_, ?_, ?_, ?_⟩
  · obtain ⟨numbers, hcreated⟩ := hdifferent events s
    obtain ⟨calls, hcalls, hnames⟩ := hcreated.calls
    refine ⟨calls, numbers, hcalls, hnames, ?_, fun hsingle => ?_⟩
    · rw [hnames]
      exact List.Nodup.map (fun _ _ => columnName_injective) hcreated.related
    · obtain ⟨ascending, hascending⟩ :=
          created_throughOn (fun _ _ => id) events (fun e he t => by
          obtain ⟨e, schedule⟩ := e
          obtain rfl : schedule = [] := hsingle _ he
          rw [afterEventOn_nil]
          exact created_afterEvent t e) s
      obtain rfl := hcreated.unique hascending
      exact hascending.related
  · rintro before later rfl
    obtain ⟨numbers, hcreated⟩ := hdifferent before s
    obtain ⟨numbers', hcreated'⟩ := hdifferent later (s.throughOn before)
    obtain ⟨calls, hcalls, hnames⟩ := hcreated.calls
    obtain ⟨calls', hcalls', hnames'⟩ := hcreated'.calls
    rw [← throughOn_append] at hcalls'
    refine ⟨calls, calls', numbers, numbers', hcalls, hcalls', hnames,
      hnames', ?_⟩
    intro i hi j hj
    exact Nat.lt_of_lt_of_le (hcreated.issued i hi).2 (hcreated'.issued j hj).1
  · intro name p hp
    obtain ⟨hfiled, -⟩ := hstart.through events
    refine ⟨(hfiled.recorded name p hp).2, fun more => ?_⟩
    rw [throughOn_append]
    exact (hfiled.through more).2 name p hp
  · intro hrounds
    obtain ⟨hkeys, -⟩ := hgapless.through hrounds
    refine ⟨hkeys, ?_⟩
    have hlength := hkeys.length_eq
    rwa [List.length_map, List.length_range, Table.keys,
      List.length_map] at hlength

/-- A start, and a round under dual values, by the schedule. -/
def sampleRound (injection : Option Injection) (schedule : List Nat) :
    List (Event (Failing MemoryMaster) × List Nat) :=
  [(.start, []), (.master (sampleInner injection), []),
    (.round .reducedCost, schedule)]

/-- The master is repaired, and another round run. -/
def sampleRepair : List (Event (Failing MemoryMaster) × List Nat) :=
  [(.master (sampleInner none), []), (.round .reducedCost, []),
    (.terminate, [])]

/-- Two workers begin the second column before the first. The only
coefficient of the first is refused, so its name is lost, but the second is
recorded; the next round gets new names. Without the failure, both are
recorded. -/
theorem names_never_reused_sample :
    ∃ (s : Solve (Recorded (Failing MemoryMaster))) (calls : List RecordedCall)
      (p : Path),
      createdNames calls = [1, 0, 2, 3].map columnName
        ∧ (createdNames calls).Nodup
        ∧ s.problem.registry.columns = .empty
        ∧ (∀ more,
          (s.throughOn (sampleRound (some ⟨.addCoefficient, 2⟩) [1, 0, 1, 1, 0]
            ++ sampleRepair ++ more)).problem.registry.path? (columnName 1)
              = some p)
        ∧ (s.throughOn
          (sampleRound none [1, 0])).problem.registry.columns.keys.Perm
            ([0, 1].map columnName) := by
  have hrun : Session.passes Session.sampleDescriptions []
      ({ inner := { inner := Session.sampleModel } } : Recorded
        (Failing MemoryMaster))
      sampleTransform (fun q _ =>
        let s := Setup.solveOf { q with master := sampleTransform q.master }
        let t := s.throughOn
          (sampleRound (some ⟨.addCoefficient, 2⟩) [1, 0, 1, 1, 0]
            ++ sampleRepair)
        decide (createdNames
          (t.problem.master.calls.drop s.problem.master.calls.length)
            = [1, 0, 2, 3].map columnName)
          && decide (s.problem.registry.columns = .empty)
          && (t.problem.registry.path? (columnName 1)).isSome
          && (priceOn [1, 0] .reducedCost).passes (fun _ _ => true)
            (s.throughOn [(.start, []), (.master (sampleInner none), [])])
          && decide ((s.throughOn (sampleRound none [1, 0])).pricer.generated
            = 2))
      = true := by
    decide +kernel
  obtain ⟨q, t, hsession, hrun⟩ := Session.exists_of_passes hrun
  generalize hs : Setup.solveOf { q with master := sampleTransform q.master }
    = s at hrun
  simp only [Bool.and_eq_true, decide_eq_true_iff] at hrun
  obtain ⟨⟨⟨⟨hcreated, hempty⟩, hrecorded⟩, hpasses⟩, htwo⟩ := hrun
  have hreachable : s.problem.registry.Reachable := by
    rw [← hs]
    exact hsession.reachable_indexed
  have hzero : s.pricer.nextColumn = 0 ∧ s.pricer.generated = 0 := by
    rw [← hs]
    exact ⟨rfl, rfl⟩
  obtain ⟨⟨calls, _, hcalls, -, hnodup, -⟩, -, hpaths, -⟩ :=
    names_never_reused hreachable hempty hzero.1 hzero.2
      (sampleRound (some ⟨.addCoefficient, 2⟩) [1, 0, 1, 1, 0] ++ sampleRepair)
  obtain ⟨p, hp⟩ := Option.isSome_iff_exists.1 hrecorded
  obtain ⟨-, -, -, hgapless⟩ :=
    names_never_reused hreachable hempty hzero.1 hzero.2
      (sampleRound none [1, 0])
  -- the only round of the second run succeeds
  have hrounds : ∀ before kind schedule later,
      sampleRound none [1, 0] = before ++ (.round kind, schedule) :: later →
      ¬FailsGeneratingOn schedule kind (s.throughOn before) := by
    intro before kind schedule later heq hfails
    obtain ⟨out, u, hprice, -⟩ := Action.exists_of_passes hpasses
    obtain ⟨e, w, hfails⟩ := hfails.fails
    rcases before with
      _ | ⟨a, _ | ⟨b, _ | ⟨c, before⟩⟩⟩ <;> simp [sampleRound] at heq
    obtain ⟨rfl, rfl, ⟨rfl, rfl⟩, -⟩ := heq
    exact nomatch hprice.symm.trans hfails
  obtain ⟨hkeys, -⟩ := hgapless hrounds
  rw [htwo] at hkeys
  rw [hcalls, List.drop_left] at hcreated
  exact ⟨s, calls, p, hcreated, hnodup, hempty, (hpaths _ p hp).2, hkeys⟩

/-- Within a round the numbers do not ascend if a second worker is faster
than the first. -/
theorem names_never_reused_differs :
    ∃ (s : Solve (Recorded (Failing MemoryMaster))) (calls : List RecordedCall),
      s.problem.registry.Reachable ∧ s.problem.registry.columns = .empty
        ∧ s.pricer.nextColumn = 0 ∧ s.pricer.generated = 0
        ∧ (s.throughOn (sampleRound none [1, 0])).problem.master.calls
          = s.problem.master.calls ++ calls
        ∧ ¬∃ numbers : List Nat,
          createdNames calls = numbers.map columnName
            ∧ numbers.Pairwise (· < ·) := by
  have hrun : Session.passes Session.sampleDescriptions []
      ({ inner := { inner := Session.sampleModel } } : Recorded
        (Failing MemoryMaster))
      sampleTransform (fun q _ =>
        let s := Setup.solveOf { q with master := sampleTransform q.master }
        let t := s.throughOn (sampleRound none [1, 0])
        decide (s.problem.registry.columns = .empty)
          && decide (createdNames
              (t.problem.master.calls.drop s.problem.master.calls.length)
            = [1, 0].map columnName)) = true := by
    decide +kernel
  obtain ⟨q, t, hsession, hrun⟩ := Session.exists_of_passes hrun
  simp only [Bool.and_eq_true, decide_eq_true_iff] at hrun
  obtain ⟨hempty, hcreated⟩ := hrun
  generalize hs : Setup.solveOf { q with master := sampleTransform q.master }
    = s at *
  obtain ⟨numbers, hnumbers⟩ := created_throughOn (fun _ _ => Nat.ne_of_lt)
    (sampleRound none [1, 0]) (fun e _ t => created_afterEventOn t e) s
  obtain ⟨calls, hcalls, -⟩ := hnumbers.calls
  rw [hcalls, List.drop_left] at hcreated
  refine ⟨s, calls, ?_, hempty, ?_, ?_, hcalls, ?_⟩
  · rw [← hs]
    exact hsession.reachable_indexed
  · rw [← hs]
    rfl
  · rw [← hs]
    rfl
  · rintro ⟨numbers, hnames, hascending⟩
    have hinjective : Function.Injective columnName :=
      fun _ _ => columnName_injective
    obtain rfl :=
      List.map_injective_iff.2 hinjective (hcreated.symm.trans hnames)
    exact absurd hascending (by decide)

end Solve

end FlowPricing
