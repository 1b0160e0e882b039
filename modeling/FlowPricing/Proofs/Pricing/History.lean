/-
One round, however it ends, and what else may happen to a solve.

A round follows a script: it asks for the multipliers of all constraints and
then tells the master one column after another. Wherever it ends, the calls
it made are the beginning of that script (`Solve.Left.calls`). The columns it
tried have the next numbers; those that were completed are the first of them,
and they are what is recorded.
-/
import FlowPricing.Proofs.Pricing.Commitment

namespace FlowPricing

variable {μ α : Type} {kind : PricingKind} {tolerance : Float}

/-- A call adds itself to the record, and does what it does. -/
theorem Recorded.after_log (c : MasterCall) (act : Action MasterError μ α)
    (m : Recorded μ) :
    ∃ b, ((log c act).after m).calls = m.calls ++ [⟨c, b⟩]
      ∧ ((log c act).after m).inner = act.after m.inner := by
  unfold Action.after log
  cases act m.inner with
  | ok a inner => exact ⟨true, List.reverse_cons, rfl⟩
  | error e inner => exact ⟨false, List.reverse_cons, rfl⟩

namespace Round

-- ============================================================= scripts

/-- Calls that succeeded are the calls that were to be made. -/
theorem map_call_succeeded (cs : List MasterCall) :
    (succeeded cs).map RecordedCall.call = cs := by
  unfold succeeded
  rw [List.map_map]
  exact List.map_id cs

/-- Calls that broke off are the beginning of what was to be made. -/
theorem Broken.prefix {cs : List MasterCall} {record : List RecordedCall}
    (h : Broken cs record) :
    record.map RecordedCall.call <+: cs := by
  obtain ⟨done, c, rest, rfl, rfl⟩ := h
  refine ⟨rest, ?_⟩
  rw [List.map_append, map_call_succeeded, List.append_assoc]
  rfl

/-- From `m` to `m'` a beginning of the script was called. -/
def Follows (script : List MasterCall) (m m' : Recorded μ) : Prop :=
  ∃ made, m'.calls = m.calls ++ made ∧ made.map RecordedCall.call <+: script

theorem Follows.refl (script : List MasterCall) (m : Recorded μ) :
    Follows script m m :=
  ⟨[], (List.append_nil _).symm, List.nil_prefix⟩

/-- A beginning of a script is a beginning of any longer one. -/
theorem Follows.append {script : List MasterCall} {m m' : Recorded μ}
    (h : Follows script m m') (more : List MasterCall) :
    Follows (script ++ more) m m' := by
  obtain ⟨made, hcalls, hmade⟩ := h
  exact ⟨made, hcalls, hmade.trans (List.prefix_append script more)⟩

/-- After all of one script, some of the next. -/
theorem Follows.after_all {script next : List MasterCall}
    {made : List RecordedCall} {m m' m'' : Recorded μ}
    (hcalls : m'.calls = m.calls ++ made)
    (hmade : made.map RecordedCall.call = script) (h : Follows next m' m'') :
    Follows (script ++ next) m m'' := by
  obtain ⟨more, hcalls', hmore⟩ := h
  refine ⟨made ++ more, ?_, ?_⟩
  · rw [hcalls', hcalls, List.append_assoc]
  · rw [List.map_append, hmade]
    exact (List.prefix_append_right_inj script).2 hmore

variable [MasterProblem μ]

-- =============================================================== reads

/-- Reading a multiplier is one call. -/
theorem multiplier_after (kind : PricingKind) (c : ConstraintId)
    (m : Recorded μ) :
    ∃ b, ((multiplier kind c).after m).calls
      = m.calls ++ [⟨readCall kind c, b⟩] := by
  cases kind with
  | reducedCost =>
      obtain ⟨b, hcalls, -⟩ :=
        Recorded.after_log (.dualValue c) (MasterProblem.dualValue c) m
      exact ⟨b, hcalls⟩
  | farkas =>
      obtain ⟨b, hcalls, -⟩ :=
        Recorded.after_log (.farkasValue c) (MasterProblem.farkasValue c) m
      exact ⟨b, hcalls⟩

omit [MasterProblem μ] in
/-- What is done to the registry leaves the master alone. -/
theorem leaves_onRegistry (act : Action PricingError Registry α) :
    Action.Leaves Problem.master
      (Problem.onRegistry act : Action _ (Problem μ) α) :=
  Action.moves_focus fun _ => rfl

/-- A constraint makes one call, which reads its multiplier. -/
theorem constraintChanges_after (tolerance : Float) (c : Constraint)
    (p : Problem (Recorded μ)) :
    ((constraintChanges kind tolerance c).after p).master
      = (multiplier kind c.handle).after p.master := by
  unfold constraintChanges price
  refine (Action.view_after_bind (?_ : ∀ _, Action.Leaves Problem.master _)
    p).trans ?_
  · intro x
    split
    · exact Action.moves_pure _
    · exact Action.moves_get_bind fun q => Action.moves_ofExcept _ q
  refine (Action.view_after_bind (?_ : ∀ _, Action.Leaves Problem.master _)
    p).trans ?_
  · intro value
    split
    · exact Action.moves_pure _
    · exact Action.moves_throw _
  unfold Problem.onMaster
  rw [Action.after_focus, Action.after_mapError]

/-- The multipliers are read in the order of the constraints, until one
fails. -/
theorem mapM_constraintChanges_follows (cs : List Constraint)
    (p : Problem (Recorded μ)) :
    Follows ((cs.map Constraint.handle).map (readCall kind)) p.master
      ((cs.mapM (constraintChanges kind tolerance)).after p).master := by
  induction cs generalizing p with
  | nil => exact .refl _ _
  | cons c cs ih =>
      obtain ⟨b, hcall⟩ := multiplier_after kind c.handle p.master
      rw [← constraintChanges_after tolerance] at hcall
      rw [List.mapM_cons, Action.after_bind]
      cases hfirst : constraintChanges kind tolerance c p with
      | ok ws q =>
          rw [Action.after_of_ok hfirst] at hcall
          refine Follows.after_all hcall rfl ?_
          rw [Action.view_after_bind (fun _ =>
            (Action.moves_pure _ : Action.Leaves Problem.master _))]
          exact ih q
      | error e q =>
          rw [Action.after_of_error hfirst] at hcall
          exact ⟨_, hcall, List.prefix_append _ _⟩

/-- Before its first column, a round calls for multipliers and nothing else. -/
theorem reweight_follows (p : Problem (Recorded μ)) :
    Follows ((p.registry.constraints.map Constraint.handle).map (readCall kind))
      p.master ((reweight kind tolerance).after p).master := by
  unfold reweight
  have happly : ∀ changes : List (List WeightChange),
      Action.Leaves Problem.master
      (Problem.onRegistry (applyChanges changes.flatten) : Action _
        (Problem (Recorded μ)) _) :=
    fun _ => leaves_onRegistry _
  exact Action.view_after_bind happly p ▸ mapM_constraintChanges_follows _ p

-- ============================================================= columns

/-- What attempts at columns for the chosen paths, numbered from `first`,
have left behind. They were made for paths from the first on; those that
were completed are the first of them. -/
structure Tried (first : Nat) (chosen : List Path) (p q : Problem (Recorded μ))
    (tried done : List AddedColumn) : Prop where
  named : tried.map AddedColumn.name
    = (List.range' first tried.length).map columnName
  paths : tried.map AddedColumn.path <+: chosen
  completed : done <+: tried
  registry : q.registry = AddedColumn.recordAll done p.registry
  calls : Follows (tried.flatMap (AddedColumn.calls (entriesIn p.registry)))
    p.master q.master

omit [MasterProblem μ] in
theorem Tried.none (first : Nat) (chosen : List Path)
    (p : Problem (Recorded μ)) :
    Tried first chosen p p [] [] where
  named := rfl
  paths := List.nil_prefix
  completed := List.nil_prefix
  registry := rfl
  calls := .refl _ _

omit [MasterProblem μ] in
/-- The first attempt breaks off. -/
theorem Tried.broken {first : Nat} {path : Path} {p q : Problem (Recorded μ)}
    {v : VariableId} {record : List RecordedCall} (chosen : List Path)
    (hregistry : q.registry = p.registry)
    (hcalls : q.master.calls = p.master.calls ++ record)
    (hbroken : Broken
      (AddedColumn.calls (entriesIn p.registry) ⟨columnName first, v, path⟩)
      record) :
    Tried first (path :: chosen) p q [⟨columnName first, v, path⟩] [] where
  named := rfl
  paths := List.prefix_append [path] chosen
  completed := List.nil_prefix
  registry := hregistry
  calls := ⟨record, hcalls, List.flatMap_singleton _ _ ▸ hbroken.prefix⟩

omit [MasterProblem μ] in
/-- The first attempt succeeds, and others follow. -/
theorem Tried.cons {first : Nat} {path : Path} {chosen : List Path}
    {p p' q : Problem (Recorded μ)} {v : VariableId}
    {tried done : List AddedColumn}
    (hregistry : p'.registry = p.registry.recordColumn (columnName first) path)
    (hcalls : p'.master.calls = p.master.calls ++ succeeded
      (AddedColumn.calls (entriesIn p.registry) ⟨columnName first, v, path⟩))
    (h : Tried (first + 1) chosen p' q tried done) :
    Tried first (path :: chosen) p q (⟨columnName first, v, path⟩ :: tried)
      (⟨columnName first, v, path⟩ :: done) where
  named := by
    rw [List.map_cons, h.named, List.length_cons, List.range'_succ,
      List.map_cons]
  paths := (List.prefix_cons_inj path).2 h.paths
  completed := (List.prefix_cons_inj _).2 h.completed
  registry := by
    rw [h.registry, hregistry]
    rfl
  calls := by
    have hnext := h.calls
    rw [hregistry, entriesIn_recordColumn] at hnext
    exact hnext.after_all hcalls (map_call_succeeded _)

/-- The columns for the chosen paths, one attempt after another until one
breaks off. -/
theorem mapM_addColumn_tried {chosen : List Path}
    (hall : ∀ path ∈ chosen, path.isImproving tolerance = true) (first : Nat)
    (p : Problem (Recorded μ)) :
    ∃ q tried done, Tried first chosen p q tried done
      ∧ ((∃ added, (chosen.zipIdx first).mapM
              (fun x => addColumn tolerance (columnName x.2) x.1) p
                = .ok added q
            ∧ added.countP id = tried.length ∧ done = tried
            ∧ tried.map AddedColumn.path = chosen)
        ∨ ∃ e, (chosen.zipIdx first).mapM
            (fun x => addColumn tolerance (columnName x.2) x.1) p
              = .error e q) := by
  induction chosen generalizing first p with
  | nil => exact ⟨p, [], [], .none first [] p, .inl ⟨[], rfl, rfl, rfl, rfl⟩⟩
  | cons path chosen ih =>
      rw [List.zipIdx_cons, List.mapM_cons]
      rcases addColumn_cases (hall path List.mem_cons_self)
        (columnName first) p with
        ⟨v, m, p', -, hadd, hregistry, hcalls⟩
          | ⟨v, e, q, record, hadd, hregistry, hcalls, hbroken⟩
      · obtain ⟨q, tried, done, htried, hend⟩ :=
          ih (fun x hx => hall x (List.mem_cons_of_mem path hx)) (first + 1) p'
        refine ⟨q, _, _, htried.cons hregistry hcalls, ?_⟩
        rcases hend with ⟨added, hadded, hcount, rfl, hpaths⟩ | ⟨e, he⟩
        · refine .inl ⟨true :: added, Action.bind_eq_ok.2 ⟨true, p', hadd,
            Action.bind_eq_ok.2 ⟨added, q, hadded, rfl⟩⟩, ?_, rfl, ?_⟩
          · rw [List.countP_cons_of_pos rfl, hcount, List.length_cons]
          · rw [List.map_cons, hpaths]
        · exact .inr ⟨e, Action.bind_eq_error.2 (.inr ⟨true, p', hadd,
            Action.bind_eq_error.2 (.inl he)⟩)⟩
      · exact ⟨q, _, [], .broken chosen hregistry hcalls hbroken,
          .inr ⟨e, Action.bind_eq_error.2 (.inl hadd)⟩⟩

/-- However the columns of a round end, some were tried; all of them if it
succeeds. -/
theorem addColumns_tried {chosen : List Path}
    (hall : ∀ path ∈ chosen, path.isImproving tolerance = true) (first : Nat)
    (p : Problem (Recorded μ)) :
    ∃ tried done, Tried first chosen p
      ((addColumns tolerance first chosen).after p) tried done
      ∧ ∀ k q, addColumns tolerance first chosen p = .ok k q →
        k = tried.length ∧ done = tried
          ∧ tried.map AddedColumn.path = chosen := by
  obtain ⟨q, tried, done, htried, hend⟩ := mapM_addColumn_tried hall first p
  refine ⟨tried, done, ?_⟩
  unfold addColumns
  rw [Action.after_bind]
  rcases hend with ⟨added, hadded, hcount, hdone, hpaths⟩ | ⟨e, he⟩
  · rw [hadded]
    refine ⟨htried, fun k u hu => ?_⟩
    obtain ⟨added', _, hadded', hu⟩ := Action.bind_eq_ok.1 hu
    obtain ⟨rfl, rfl⟩ := EStateM.Result.ok.inj (hadded.symm.trans hadded')
    obtain ⟨rfl, -⟩ := Action.pure_eq_ok.1 hu
    exact ⟨hcount, hdone, hpaths⟩
  · rw [he]
    refine ⟨htried, fun k u hu => ?_⟩
    obtain ⟨_, _, hadded, -⟩ := Action.bind_eq_ok.1 hu
    rw [he] at hadded
    exact nomatch hadded

end Round

namespace Solve

variable [MasterProblem μ] {s t u : Solve (Recorded μ)} {pricer : Pricer}
  {chosen : List Path}

-- ========================================================== the survey

/-- The calls that read the multipliers of all constraints. -/
def reads (kind : PricingKind) (s : Solve (Recorded μ)) : List MasterCall :=
  (s.problem.registry.constraints.map Constraint.handle).map
    (Round.readCall kind)

omit [MasterProblem μ] in
/-- Choosing paths makes no call. -/
theorem leaves_master_choose (pricer : Pricer) :
    Action.Leaves (fun s : Solve (Recorded μ) => s.problem.master)
      (choose pricer) :=
  Action.moves_bind (Action.moves_focus fun s =>
    Round.leaves_onRegistry _ s.problem) fun _ => Action.moves_pure _

/-- Until it has chosen, a round calls for multipliers and nothing else. -/
theorem survey_follows (kind : PricingKind) (pricer : Pricer)
    (s : Solve (Recorded μ)) :
    Round.Follows (reads kind s) s.problem.master
      ((survey kind pricer).after s).problem.master := by
  have hmaster : ((survey kind pricer).after s).problem.master
      = ((weigh kind pricer.tolerance).after s).problem.master :=
    Action.view_after_bind (fun _ => leaves_master_choose pricer) s
  have hweigh : ((weigh kind pricer.tolerance).after s).problem
      = (Round.reweight kind pricer.tolerance).after
        ⟨Round.zeroWeights s.problem.registry, s.problem.master⟩ := by
    unfold Action.after
    rw [weigh_eq_reweight]
    unfold onProblem Action.focus
    cases Round.reweight kind pricer.tolerance
      ⟨Round.zeroWeights s.problem.registry, s.problem.master⟩ <;> rfl
  rw [hmaster, hweigh]
  exact Round.reweight_follows ⟨Round.zeroWeights s.problem.registry,
    s.problem.master⟩

/-- Once it has chosen, it has read them all. -/
theorem calls_of_survey (h : survey kind pricer s = .ok chosen t) :
    t.problem.master.calls
      = s.problem.master.calls ++ Round.succeeded (reads kind s) := by
  obtain ⟨_, u, hweigh, hchoose⟩ := Action.bind_eq_ok.1 h
  have hmaster : t.problem.master = u.problem.master :=
    (leaves_master_choose pricer).of_ok hchoose
  rw [weigh_eq_reweight] at hweigh
  obtain ⟨q, hq, rfl⟩ := onProblem_eq_ok.1 hweigh
  obtain ⟨values, m, changes, ns, hread, -, -, -, rfl⟩ :=
    Round.reweight_eq_ok.1 hq
  rw [hmaster]
  exact Round.mapM_multiplier_calls hread

-- ======================================================= the whole round

/-- The round chooses its paths and then fails with one of the columns. -/
def FailsGenerating (kind : PricingKind) (s : Solve (Recorded μ)) : Prop :=
  ∃ chosen s' e u, s.pricer.state = .ready
    ∧ survey kind s.pricer s = .ok chosen s'
    ∧ generate s.pricer chosen s' = .error e u

/-- Such a round fails. -/
theorem FailsGenerating.fails (h : FailsGenerating kind s) :
    ∃ e u, price kind s = .error e u := by
  obtain ⟨chosen, s', e, u, hready, hsurvey, hgenerate⟩ := h
  rw [price_of_ready hready]
  exact ⟨e, u, Action.bind_eq_error.2 (.inr ⟨chosen, s', hsurvey, hgenerate⟩)⟩

/-- What a round has left behind, however it ended: columns that were tried,
under the next numbers, of which the first ones were completed and recorded.
Unless it fails with a column, all are, and the counts say so. -/
structure Left (kind : PricingKind) (s t : Solve (Recorded μ))
    (tried done : List AddedColumn) :
    Prop where
  named : tried.map AddedColumn.name
    = (List.range' s.pricer.nextColumn tried.length).map columnName
  numbered : s.pricer.nextColumn + tried.length ≤ t.pricer.nextColumn
  completed : done <+: tried
  columns : t.problem.registry.columns
    = done.foldl (fun t c => t.insert c.name c.path) s.problem.registry.columns
  calls : Round.Follows
    (reads kind s ++ tried.flatMap
      (AddedColumn.calls (Round.entriesIn s.problem.registry)))
    s.problem.master t.problem.master
  counted : ¬FailsGenerating kind s → done = tried
    ∧ t.pricer.nextColumn = s.pricer.nextColumn + tried.length
    ∧ t.pricer.generated = s.pricer.generated + tried.length

/-- A round that only looked has tried nothing. -/
theorem Left.nothing (hlooked : Looked s t)
    (hcalls : Round.Follows (reads kind s) s.problem.master t.problem.master) :
    Left kind s t [] [] where
  named := rfl
  numbered := by rw [hlooked.pricer]; exact Nat.le_refl _
  completed := List.nil_prefix
  columns := hlooked.problem.columns
  calls := hcalls.append _
  counted := fun _ => by
    rw [hlooked.pricer]
    exact ⟨rfl, rfl, rfl⟩

/-- Once it has chosen, a round tries columns. -/
theorem left_of_survey (hready : s.pricer.state = .ready)
    (hsurvey : survey kind s.pricer s = .ok chosen u) :
    ∃ tried done, Left kind s ((generate s.pricer chosen).after u) tried done
      ∧ tried.map AddedColumn.path <+: chosen := by
  have hlooked : Looked s u := (looked_survey kind s.pricer).of_ok hsurvey
  have hentries : Round.entriesIn u.problem.registry
      = Round.entriesIn s.problem.registry := by
    unfold Round.entriesIn Registry.entriesOf
    rw [hlooked.problem.index]
  obtain ⟨tried, done, htried, hall⟩ := Round.addColumns_tried
    (isImproving_of_survey hsurvey) s.pricer.nextColumn u.problem
  obtain ⟨hproblem, hnext⟩ := after_generate chosen u
  rw [hlooked.pricer] at hproblem hnext
  have hlength : tried.length ≤ chosen.length := by
    rw [← List.length_map (f := AddedColumn.path)]
    exact htried.paths.length_le
  refine ⟨tried, done, ?_, htried.paths⟩
  exact {
    named := htried.named
    numbered := by omega
    completed := htried.completed
    columns := by
      rw [hproblem, htried.registry, AddedColumn.recordAll_eq,
        hlooked.problem.columns]
    calls := by
      have hnext := htried.calls
      rw [hentries, ← hproblem] at hnext
      exact hnext.after_all (calls_of_survey hsurvey)
        (Round.map_call_succeeded _)
    counted := by
      intro hfails
      cases hgenerate : generate s.pricer chosen u with
      | error e w =>
          exact absurd ⟨chosen, u, e, w, hready, hsurvey, hgenerate⟩ hfails
      | ok out w =>
          obtain ⟨k, q, hcolumns, -, rfl⟩ := generate_eq_ok.1 hgenerate
          obtain ⟨rfl, rfl, hpaths⟩ := hall k q hcolumns
          rw [Action.after_of_ok hgenerate, hlooked.pricer]
          refine ⟨rfl, ?_, rfl⟩
          rw [← hpaths, List.length_map] }

/-- What a round leaves behind, however it ends. Unless it has tried nothing, it
has chosen some paths and tried the first of them. -/
theorem price_tried (kind : PricingKind) (s : Solve (Recorded μ)) :
    ∃ tried done, Left kind s ((price kind).after s) tried done
      ∧ (tried = [] ∨ ∃ chosen u, survey kind s.pricer s = .ok chosen u
        ∧ tried.map AddedColumn.path <+: chosen) := by
  by_cases hready : s.pricer.state = .ready
  · have hlooked := looked_survey kind s.pricer s
    have hcalls := survey_follows kind s.pricer s
    rw [Action.after_congr (price_of_ready hready), Action.after_bind]
    cases hsurvey : survey kind s.pricer s with
    | ok chosen u =>
        obtain ⟨tried, done, hleft, hpaths⟩ := left_of_survey hready hsurvey
        exact ⟨tried, done, hleft, .inr ⟨chosen, u, rfl, hpaths⟩⟩
    | error e u =>
        rw [Action.after_of_error hsurvey] at hlooked hcalls
        exact ⟨[], [], .nothing hlooked hcalls, .inl rfl⟩
  · rw [Action.after_of_error (price_of_not_ready hready)]
    exact ⟨[], [], .nothing (refl_of Looked s) (.refl _ _), .inl rfl⟩

/-- A round that ends has left columns behind that it tried, maybe none. -/
theorem price_left (kind : PricingKind) (s : Solve (Recorded μ)) :
    ∃ tried done, Left kind s ((price kind).after s) tried done := by
  obtain ⟨tried, done, hleft, -⟩ := price_tried kind s
  exact ⟨tried, done, hleft⟩

end Solve

-- ============================================================== events

/-- One thing that happens to a solve: its pricer is told to do something,
which may fail or be refused, or the master changes in between. -/
inductive Event (μ : Type) where
  | start
  | round (kind : PricingKind)
  | terminate
  | master (change : μ → μ)

namespace Solve

variable [MasterProblem μ]

/-- What an event leaves of a solve. -/
def afterEvent (s : Solve (Recorded μ)) : Event μ → Solve (Recorded μ)
  | .start => start.after s
  | .round kind => (price kind).after s
  | .terminate => terminate.after s
  | .master change => s.withInner (change s.problem.master.inner)

end Solve

end FlowPricing
