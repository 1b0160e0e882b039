/-
Recorded means committed. Whatever call of the master fails, in whatever
round: a column is recorded exactly if its variable was committed, and then
the master was told all of it, once and in order (`Solve.Balanced`). An
attempt that broke off leaves nothing recorded, and its name is never used
again.

Until it has chosen its paths a round only looks (`Solve.Looked`), which
settles no name; from then on it makes attempts at the next names. So every
round, failed or not, keeps the accounts.
-/
import FlowPricing.Proofs.Pricing.Accounts
import FlowPricing.Proofs.Pricing.Phases
import FlowPricing.Proofs.Setup.Prepared

namespace FlowPricing

variable {μ : Type}

-- ============================================================ looking

namespace Round

/-- What a problem keeps while it is only looked at: the master was read,
and of the registry only the networks may have changed. -/
structure Looked (p q : Problem (Recorded μ)) : Prop where
  columns : q.registry.columns = p.registry.columns
  index : q.registry.index = p.registry.index
  reads : ∃ reads, q.master.calls = p.master.calls ++ reads
    ∧ ∀ c ∈ reads, c.call.isMutating = false

theorem Looked.refl (p : Problem (Recorded μ)) : Looked p p :=
  ⟨rfl, rfl, [], (List.append_nil _).symm, fun _ hc =>
    absurd hc List.not_mem_nil⟩

instance : IsPreorder (Problem (Recorded μ)) Looked where
  refl := Looked.refl
  trans p q u h₁ h₂ := by
    obtain ⟨reads₁, hcalls₁, hreads₁⟩ := h₁.reads
    obtain ⟨reads₂, hcalls₂, hreads₂⟩ := h₂.reads
    refine ⟨h₂.columns.trans h₁.columns, h₂.index.trans h₁.index,
      reads₁ ++ reads₂, ?_, ?_⟩
    · rw [hcalls₂, hcalls₁, List.append_assoc]
    · intro c hc
      rcases List.mem_append.1 hc with hc | hc
      · exact hreads₁ c hc
      · exact hreads₂ c hc

/-- An action that keeps the records and the index only looks. -/
theorem looked_onRegistry {α : Type} {act : Action PricingError Registry α}
    (h : Action.Leaves (fun r : Registry => (r.columns, r.index)) act) :
    Action.Moves (Looked (μ := μ)) (Problem.onRegistry act) := by
  apply Action.moves_focus
  intro p
  obtain ⟨hcolumns, hindex⟩ := Prod.mk.inj (h p.registry)
  exact ⟨hcolumns, hindex, (Looked.refl p).reads⟩

/-- Acting on the networks touches nothing else. -/
theorem leaves_eachNetwork {β : Type}
    (f : Network → Except PricingError (β × Network)) :
    Action.Leaves (fun r : Registry => (r.columns, r.index))
      (Registry.eachNetwork f) :=
  Action.moves_focus fun _ => rfl

/-- Changing weights counts as looking. -/
theorem looked_applyChanges (ws : List WeightChange) :
    Action.Moves (Looked (μ := μ)) (Problem.onRegistry (applyChanges ws)) :=
  looked_onRegistry (Action.moves_bind (leaves_eachNetwork _) fun _ =>
    Action.moves_pure _)

/-- So does a recorded call that is not meant to change the master. -/
theorem looked_log {α : Type} {c : MasterCall} (hc : c.isMutating = false)
    (act : Action MasterError μ α) :
    Action.Moves Looked (Problem.onMaster (Recorded.log c act)) := by
  have hread : ∀ m : Recorded μ, ∃ reads,
      ((Recorded.log c act).after m).calls = m.calls ++ reads
        ∧ ∀ d ∈ reads, d.call.isMutating = false := by
    intro m
    unfold Action.after
    cases hlog : Recorded.log c act m with
    | ok a m' => exact ⟨_, Recorded.log_eq_ok hlog, by simpa using hc⟩
    | error e m' => exact ⟨_, Recorded.log_eq_error hlog, by simpa using hc⟩
  apply Action.moves_focus
  intro p
  rw [Action.after_mapError]
  exact ⟨rfl, rfl, hread p.master⟩

/-- Reading a multiplier is looking. -/
theorem looked_multiplier [MasterProblem μ] (kind : PricingKind)
    (c : ConstraintId) :
    Action.Moves (Looked (μ := μ)) (Problem.onMaster (multiplier kind c)) := by
  cases kind with
  | reducedCost => exact looked_log (c := .dualValue c) rfl _
  | farkas => exact looked_log (c := .farkasValue c) rfl _

end Round

namespace Solve

/-- A solve is only looked at if its problem is; the pricer stays as it
is. -/
structure Looked (s t : Solve (Recorded μ)) : Prop where
  problem : Round.Looked s.problem t.problem
  pricer : t.pricer = s.pricer

instance : IsPreorder (Solve (Recorded μ)) Looked where
  refl s := ⟨.refl s.problem, rfl⟩
  trans _ _ _ h₁ h₂ :=
    ⟨trans_of Round.Looked h₁.problem h₂.problem, h₂.pricer.trans h₁.pricer⟩

theorem looked_onProblem {α : Type}
    {act : Action PricingError (Problem (Recorded μ)) α}
    (h : Action.Moves Round.Looked act) : Action.Moves Looked (onProblem act) :=
  Action.moves_focus fun s => ⟨h s.problem, rfl⟩

variable [MasterProblem μ] {kind : PricingKind} {s t u : Solve (Recorded μ)}

/-- Before the first column a round only looks. -/
theorem looked_survey (kind : PricingKind) (pricer : Pricer) :
    Action.Moves (Looked (μ := μ)) (survey kind pricer) := by
  refine Action.moves_bind (Action.moves_bind ?_ fun _ => ?_) fun _ => ?_
  · apply looked_onProblem
    exact Action.moves_modify fun p => ⟨rfl, rfl, (Round.Looked.refl p).reads⟩
  · apply looked_onProblem
    exact Round.moves_reweight_of _ (Round.looked_multiplier kind)
      Round.looked_applyChanges
  · refine Action.moves_bind (looked_onProblem ?_) fun _ => Action.moves_pure _
    exact Round.looked_onRegistry (Round.leaves_eachNetwork _)

/-- Only paths worth a column are chosen. -/
theorem isImproving_of_survey {pricer : Pricer} {chosen : List Path}
    (h : survey kind pricer s = .ok chosen t) :
    ∀ path ∈ chosen, path.isImproving pricer.tolerance = true := by
  obtain ⟨_, _, -, h⟩ := Action.bind_eq_ok.1 h
  obtain ⟨candidates, _, -, h⟩ := Action.bind_eq_ok.1 h
  obtain ⟨rfl, -⟩ := Action.pure_eq_ok.1 h
  exact fun path hpath => (Selection.of_mem_select hpath).2

end Solve

-- ============================================================= rounds

namespace Solve

variable [MasterProblem μ] {kind : PricingKind} {s t u : Solve (Recorded μ)}
  {entries : Arc → List IndexEntry} {issued : AddedColumn → Prop}
  {base calls : List RecordedCall}

/-- The numbers a pricer has handed out are accounted for. -/
abbrev Accounted (entries : Arc → List IndexEntry) (issued : AddedColumn → Prop)
    (base : List RecordedCall) (s : Solve (Recorded μ))
    (calls : List RecordedCall) : Prop :=
  Accounts entries issued base s.pricer.nextColumn s.problem calls

omit [MasterProblem μ] in
/-- Looking at a solve settles nothing. -/
theorem accounts_of_looked (h : Accounted entries issued base s calls)
    (hlook : Looked s t) :
    ∃ reads, Accounted entries issued base t (calls ++ reads) := by
  obtain ⟨reads, hcalls, hreads⟩ := hlook.problem.reads
  have hfor : ∀ name, callsFor name (calls ++ reads) = callsFor name calls :=
    fun name => callsFor_append_reads hreads
  have hpath : ∀ name, t.problem.registry.path? name
      = s.problem.registry.path? name := by
    intro name
    unfold Registry.path?
    rw [hlook.problem.columns]
  refine ⟨reads, ?_⟩
  unfold Accounted
  rw [hlook.pricer]
  exact {
    since := by rw [hcalls, h.since, List.append_assoc]
    index := by
      rw [← h.index]
      unfold Round.entriesIn Registry.entriesOf
      rw [hlook.problem.index]
    settled := by
      intro name
      rw [hpath, hfor]
      exact h.settled name
    fresh := by
      intro i hi
      rw [hpath, hfor]
      exact h.fresh i hi
    attributed := by
      intro c hc hmutating
      rcases List.mem_append.1 hc with hc | hc
      · obtain ⟨name, hname⟩ := h.attributed c hc hmutating
        exact ⟨name, (hfor name).symm ▸ hname⟩
      · rw [hreads c hc] at hmutating
        exact nomatch hmutating }

/-- The columns of a round are accounted for, whether they are all added or
not. -/
theorem accounts_generate {chosen : List Path}
    (h : Accounted entries issued base s calls)
    (hall : ∀ path ∈ chosen, path.isImproving s.pricer.tolerance = true)
    (hissued : ∀ c, Accounts.Turn s.pricer.tolerance s.pricer.nextColumn chosen
      s.problem c →
      issued c) :
    ∃ later, Accounted entries issued base ((generate s.pricer chosen).after s)
      (calls ++ later)
      ∧ ∀ e u, generate s.pricer chosen s = .error e u →
        Accounts.Stopped entries s.pricer.nextColumn chosen u.problem.registry
          (calls ++ later) := by
  obtain ⟨later, hlater, hstopped⟩ := Accounts.addColumns hall hissued h
  obtain ⟨hproblem, hnumber⟩ := after_generate chosen s
  refine ⟨later, ?_, ?_⟩
  · unfold Accounted
    rw [hproblem, hnumber]
    exact hlater
  · intro e u hu
    obtain ⟨q, hq, rfl⟩ := generate_eq_error.1 hu
    exact hstopped e q hq

/-- A round keeps the accounts, however it ends; if it fails once it has
chosen, it stopped at one of the chosen paths. -/
theorem accounts_price (h : Accounted entries issued base s calls)
    (kind : PricingKind)
    (hissued : ∀ chosen s', s.pricer.state = .ready →
      survey kind s.pricer s = .ok chosen s' →
      ∀ c, Accounts.Turn s.pricer.tolerance s.pricer.nextColumn chosen
        s'.problem c → issued c) :
    ∃ later, Accounted entries issued base ((price kind).after s)
      (calls ++ later)
      ∧ ∀ chosen s' e u, s.pricer.state = .ready →
        survey kind s.pricer s = .ok chosen s' →
        price kind s = .error e u →
        Accounts.Stopped entries s.pricer.nextColumn chosen u.problem.registry
          (calls ++ later) := by
  by_cases hready : s.pricer.state = .ready
  · have hlooked := looked_survey kind s.pricer s
    unfold Action.after at hlooked
    rw [Action.after_congr (price_of_ready hready), Action.after_bind]
    cases hsurvey : survey kind s.pricer s with
    | ok chosen s' =>
        rw [hsurvey] at hlooked
        obtain ⟨reads, hreads⟩ := accounts_of_looked h hlooked
        have hall := isImproving_of_survey hsurvey
        have hturn := hissued chosen s' hready hsurvey
        rw [← hlooked.pricer] at hall hturn
        obtain ⟨later, hlater, hstopped⟩ := accounts_generate hreads hall hturn
        rw [List.append_assoc] at hlater hstopped
        rw [hlooked.pricer] at hlater hstopped
        refine ⟨reads ++ later, hlater, ?_⟩
        intro chosen' s'' e u _ hsame hprice
        obtain ⟨rfl, -⟩ := EStateM.Result.ok.inj hsame
        rw [price_of_ready hready] at hprice
        rcases Action.bind_eq_error.1 hprice with hprice | ⟨_, _, hok, hprice⟩
        · rw [hsurvey] at hprice
          exact nomatch hprice
        · rw [hsurvey] at hok
          obtain ⟨rfl, rfl⟩ := EStateM.Result.ok.inj hok
          exact hstopped e u hprice
    | error e s' =>
        rw [hsurvey] at hlooked
        obtain ⟨reads, hreads⟩ := accounts_of_looked h hlooked
        exact ⟨reads, hreads, fun _ _ _ _ _ hok => nomatch hok⟩
  · have hafter : (price kind).after s = s := by
      unfold Action.after
      rw [price_of_not_ready hready]
    refine ⟨[], ?_, fun _ _ _ _ h => absurd h hready⟩
    rw [hafter, List.append_nil]
    exact h

omit [MasterProblem μ] in
/-- A pricer that has recorded nothing yet has nothing to account for. -/
theorem accounts_of_empty (h : s.problem.registry.columns = .empty) :
    Accounted (Round.entriesIn s.problem.registry) issued
      s.problem.master.calls s [] := by
  have hnone : ∀ name, s.problem.registry.path? name = none := by
    intro name
    unfold Registry.path?
    rw [h]
    rfl
  exact {
    since := (List.append_nil _).symm
    index := rfl
    settled := by
      intro name
      rw [hnone]
      exact .untried
    fresh := fun i _ => ⟨hnone _, rfl⟩
    attributed := fun c hc => absurd hc List.not_mem_nil }

omit [MasterProblem μ] in
/-- The solve with another master, of which the record goes on. -/
def withInner (s : Solve (Recorded μ)) (m : μ) : Solve (Recorded μ) :=
  { s with problem := { s.problem with
    master := { s.problem.master with inner := m } } }

/-- Any number of rounds of one pricer, each of which may fail; between
them the master may change. -/
inductive Rounds (s : Solve (Recorded μ)) : Solve (Recorded μ) → Prop
  | refl : Rounds s s
  | round {t : Solve (Recorded μ)} (kind : PricingKind) (h : Rounds s t) :
      Rounds s ((price kind).after t)
  | master {t : Solve (Recorded μ)} (m : μ) (h : Rounds s t) :
      Rounds s (t.withInner m)

/-- In some round on the way from `s` to `t`, the path of `c` was chosen, and
when its turn came the master issued a variable for it. -/
def Issued (s t : Solve (Recorded μ)) (c : AddedColumn) : Prop :=
  ∃ r kind chosen r', Rounds s r ∧ r.pricer.state = .ready
    ∧ survey kind r.pricer r = .ok chosen r'
    ∧ Accounts.Turn r.pricer.tolerance r.pricer.nextColumn chosen r'.problem c
    ∧ Rounds ((price kind).after r) t

/-- A column whose turn it is in a round gets the variable the master issues
then. -/
theorem Issued.of_turn (h : Rounds s t) {chosen : List Path}
    {t' : Solve (Recorded μ)} (hready : t.pricer.state = .ready)
    (hsurvey : survey kind t.pricer t = .ok chosen t') {c : AddedColumn}
    (hturn : Accounts.Turn t.pricer.tolerance t.pricer.nextColumn chosen
      t'.problem c) :
    Issued s ((price kind).after t) c :=
  ⟨t, kind, chosen, t', h, hready, hsurvey, hturn, .refl⟩

/-- What was issued stays so in later rounds. -/
theorem Issued.round {c : AddedColumn} (h : Issued s t c) (kind : PricingKind) :
    Issued s ((price kind).after t) c := by
  obtain ⟨r, kind', chosen, r', hr, hready, hsurvey, hturn, ht⟩ := h
  exact ⟨r, kind', chosen, r', hr, hready, hsurvey, hturn, ht.round kind⟩

theorem Issued.master {c : AddedColumn} (h : Issued s t c) (m : μ) :
    Issued s (t.withInner m) c := by
  obtain ⟨r, kind, chosen, r', hr, hready, hsurvey, hturn, ht⟩ := h
  exact ⟨r, kind, chosen, r', hr, hready, hsurvey, hturn, ht.master m⟩

/-- Through all rounds the names are accounted for. -/
theorem Rounds.accounts (h : Rounds s t)
    (hs : s.problem.registry.columns = .empty) :
    ∃ calls, Accounted (Round.entriesIn s.problem.registry)
      (Issued s t) s.problem.master.calls t calls := by
  induction h with
  | refl => exact ⟨[], accounts_of_empty hs⟩
  | round kind hrounds ih =>
      obtain ⟨calls, hcalls⟩ := ih
      obtain ⟨later, hlater, -⟩ :=
        accounts_price (hcalls.mono_issued fun _ hc => hc.round kind) kind
          fun _ _ hready hsurvey _ hturn =>
            .of_turn hrounds hready hsurvey hturn
      exact ⟨calls ++ later, hlater⟩
  | master m _ ih =>
      obtain ⟨calls, hcalls⟩ := ih
      have hcalls' := hcalls.mono_issued fun c hc => hc.master m
      exact ⟨calls, ⟨hcalls'.since, hcalls'.index, hcalls'.settled,
        hcalls'.fresh, hcalls'.attributed⟩⟩

-- ======================================================== the columns

/-- What the registry has recorded since `s` is what the master was told in
`calls`: the names recorded are those committed, and for each of them the
calls are those of its column, all successful and nothing else. -/
structure Balanced (s t : Solve (Recorded μ)) (calls : List RecordedCall) :
    Prop where
  since : t.problem.master.calls = s.problem.master.calls ++ calls
  recorded_iff : ∀ name, (t.problem.registry.path? name).isSome = true
    ↔ ∃ v, ⟨.commitVariable v, true⟩ ∈ callsFor name calls
  told : ∀ name path, t.problem.registry.path? name = some path →
    ∃ v, Issued s t ⟨name, v, path⟩
      ∧ callsFor name calls = Round.succeeded
          (AddedColumn.calls (Round.entriesIn t.problem.registry)
            ⟨name, v, path⟩)
  attributed : ∀ c ∈ calls, c.call.isMutating = true →
    ∃ name, c ∈ callsFor name calls

/-- Accounts that say so of every name are balanced. -/
theorem balanced_of_accounts
    (h : Accounted (Round.entriesIn s.problem.registry) (Issued s t)
      s.problem.master.calls t calls) : Balanced s t calls where
  since := h.since
  recorded_iff := fun name => (h.settled name).isSome_iff
  told := by
    intro name path hpath
    have hsettled := h.settled name
    rw [hpath] at hsettled
    generalize callsFor name calls = made at hsettled ⊢
    cases hsettled with
    | committed v _ hissued => exact ⟨v, hissued, h.index ▸ rfl⟩
  attributed := h.attributed

/-- Recorded means committed, whatever fails. After any rounds, and after
any one more that fails once it has chosen its paths, what is recorded is
what was committed; in the latter the paths before the failing one are
recorded, it is not, and no call is made for those after it. -/
theorem recorded_iff_committed (hs : s.problem.registry.columns = .empty)
    (h : Rounds s t) :
    ∃ calls, Balanced s t calls
      ∧ ∀ kind chosen t' e u, t.pricer.state = .ready →
          survey kind t.pricer t = .ok chosen t' → price kind t = .error e u →
        ∃ later, Balanced s u (calls ++ later)
          ∧ Accounts.Stopped (Round.entriesIn u.problem.registry)
            t.pricer.nextColumn chosen
              u.problem.registry (calls ++ later) := by
  obtain ⟨calls, hcalls⟩ := h.accounts hs
  refine ⟨calls, balanced_of_accounts hcalls, ?_⟩
  intro kind chosen t' e u hready hsurvey hprice
  obtain ⟨later, hlater, hstopped⟩ :=
    accounts_price (hcalls.mono_issued fun _ hc => hc.round kind) kind
      fun _ _ hready hsurvey _ hturn => .of_turn h hready hsurvey hturn
  have hafter : (price kind).after t = u := by
    unfold Action.after
    rw [hprice]
  rw [hafter] at hlater
  refine ⟨later, balanced_of_accounts hlater, ?_⟩
  rw [hlater.index]
  exact hstopped chosen t' e u hready hsurvey hprice

/-- A master with dual values, and perhaps an operation that will fail. -/
def sampleInner (injection : Option Injection) (m : Failing MemoryMaster) :
    Failing MemoryMaster :=
  { inner := { m.inner with duals := Session.sampleDuals }, injection }

/-- The master is transformed. -/
def sampleTransform (m : Recorded (Failing MemoryMaster)) :
    Recorded (Failing MemoryMaster) :=
  { m with inner := { m.inner with inner := m.inner.inner.transform } }

/-- The first column is committed and recorded. The second coefficient of
the second is refused; once the master is repaired, its path becomes the
column with the last number. -/
theorem recorded_iff_committed_sample :
    ∃ (s u w : Solve (Recorded (Failing MemoryMaster)))
      (calls later : List RecordedCall) (chosen : List Path),
      Accounts.Stopped (Round.entriesIn u.problem.registry) 0 chosen
          u.problem.registry calls
        ∧ chosen.length = 2
        ∧ (u.problem.registry.path? (columnName 0)).isSome = true
        ∧ Balanced s w later
        ∧ (w.problem.registry.path? (columnName 3)).isSome = true
        ∧ ∃ v, ⟨.commitVariable v, true⟩ ∈ callsFor (columnName 3) later := by
  have hrun : Session.passes Session.sampleDescriptions []
      ({ inner := { inner := Session.sampleModel } } : Recorded
        (Failing MemoryMaster))
      sampleTransform (fun _ s =>
        let t :=
          s.withInner (sampleInner (some ⟨.addCoefficient, 2⟩)
            s.problem.master.inner)
        let u := (price .reducedCost).after t
        let w := (price .reducedCost).after
          (u.withInner (sampleInner none u.problem.master.inner))
        decide (s.problem.registry.columns = .empty)
          && decide (s.pricer.state = .ready)
          && decide (s.pricer.nextColumn = 0)
          && (survey .reducedCost t.pricer).passes (fun chosen _ =>
            chosen.length = 2) t
          && !(price .reducedCost).passes (fun _ _ => true) t
          && (u.problem.registry.path? (columnName 0)).isSome
          && (w.problem.registry.path? (columnName 3)).isSome) = true := by
    decide +kernel
  obtain ⟨q, s, -, hrun⟩ := Session.exists_of_passes hrun
  simp only [Bool.and_eq_true, decide_eq_true_iff, Bool.not_eq_true'] at hrun
  obtain ⟨⟨⟨⟨⟨⟨hempty, hready⟩, hzero⟩, hsurvey⟩, hfails⟩, hfirst⟩,
    hrecorded⟩ := hrun
  have hstart := Rounds.master
    (sampleInner (some ⟨.addCoefficient, 2⟩) s.problem.master.inner)
      (.refl (s := s))
  obtain ⟨chosen, t', hsurvey, hlength⟩ := Action.exists_of_passes hsurvey
  obtain ⟨calls, -, hstops⟩ := recorded_iff_committed hempty hstart
  unfold Action.passes at hfails
  generalize ht : s.withInner (sampleInner (some ⟨.addCoefficient, 2⟩)
    s.problem.master.inner) = t
    at *
  cases hprice : price .reducedCost t with
  | ok out u =>
      rw [hprice] at hfails
      exact nomatch hfails
  | error e u =>
      obtain ⟨more, -, hstopped⟩ :=
        hstops .reducedCost chosen t' e u (by rw [← ht]; exact hready)
          hsurvey hprice
      have hend := (hstart.round .reducedCost).master
        (sampleInner none ((price .reducedCost).after t).problem.master.inner)
          |>.round .reducedCost
      obtain ⟨later, hbalanced, -⟩ := recorded_iff_committed hempty hend
      have hnext : t.pricer.nextColumn = 0 := by
        rw [← ht]
        exact hzero
      rw [hnext] at hstopped
      rw [Action.after_of_error hprice] at hfirst
      exact ⟨s, u, _, _, later, chosen, hstopped, of_decide_eq_true hlength,
        hfirst, hbalanced, hrecorded, (hbalanced.recorded_iff _).1 hrecorded⟩

end Solve

end FlowPricing
