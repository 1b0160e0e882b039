/-
The columns of a round in the hands of any number of workers.

A single worker takes the tasks in their order, and each to its end
(`Round.addColumnsOn_nil`): what is left of a task is one attempt at a
column, turn by turn (`ColumnTask.rest`).

With more workers the order is theirs, but a turn still does one of three
things (`ColumnTask.Turned`). So whatever the schedule, the variables that
were created are those of the tasks that were begun, and the columns
recorded are those of the tasks at their end (`Workers.Underway`); only
their orders are not known.
-/
import FlowPricing.Pricing.Workers
import FlowPricing.Proofs.Pricing.History
import Mathlib.Data.List.Perm.Basic

namespace FlowPricing

variable {μ : Type} [MasterProblem μ] {tolerance : Float}

-- ============================================================ one task

namespace ColumnTask

variable {t : ColumnTask} {p q : Problem μ}

/-- A task that has no turn left. -/
def Still (t : ColumnTask) : Prop :=
  (∃ added, t.stage = .ended added) ∨ t.stage = .failed

/-- What a task still does, without a break. -/
def rest (tolerance : Float) (t : ColumnTask) :
    Action PricingError (Problem μ) Bool :=
  match t.stage with
  | .waiting => Round.addColumn tolerance t.name t.path
  | .filling v entries => do
      entries.forM fun e =>
        Problem.onMaster (MasterProblem.addCoefficient e.handle v e.coefficient)
      Problem.onMaster (MasterProblem.commitVariable v)
      Problem.modifyRegistry (·.recordColumn t.name t.path)
      return true
  | .committed => do
      Problem.modifyRegistry (·.recordColumn t.name t.path)
      return true
  | .ended added => return added
  | .failed => return false

/-- The coefficients of a column are those of the entries along its path,
which do not change meanwhile. -/
theorem addCoefficients_eq (v : VariableId) (path : Path) (p : Problem μ) :
    Round.addCoefficients v path p
      = ((entriesAlong p.registry path).forM fun e =>
      Problem.onMaster
        (MasterProblem.addCoefficient e.handle v e.coefficient)) p := by
  unfold Round.addCoefficients entriesAlong
  generalize path.arcs = arcs
  induction arcs generalizing p with
  | nil => rfl
  | cons a arcs ih =>
      rw [List.flatMap_cons, Action.forM_append]
      show EStateM.bind (((p.registry.entriesOf a).getD []).forM fun e =>
        Problem.onMaster
          (MasterProblem.addCoefficient e.handle v e.coefficient)) _ p
          = EStateM.bind _ _ p
      unfold EStateM.bind
      have hkept : Action.Leaves Problem.registry
          (((p.registry.entriesOf a).getD []).forM fun e =>
            Problem.onMaster
              (MasterProblem.addCoefficient e.handle v e.coefficient)
              : Action _ (Problem μ) _) :=
        Action.moves_forM (fun e => Action.moves_focus fun _ => rfl) _
      cases hfirst : ((p.registry.entriesOf a).getD []).forM (fun e =>
          Problem.onMaster
            (MasterProblem.addCoefficient e.handle v e.coefficient)) p with
      | error e q => rfl
      | ok u q =>
          have hregistry : q.registry = p.registry := hkept.of_ok hfirst
          simp only
          rw [← hregistry]
          exact ih q

/-- What is left of a task is its next turn, and then the rest. -/
theorem rest_eq_turn (h : ¬t.Still) (p : Problem μ) :
    t.rest tolerance p
      = (t.turn tolerance >>= fun stage =>
        { t with stage }.rest tolerance) p := by
  obtain ⟨name, path, stage⟩ := t
  cases stage with
  | waiting =>
      unfold rest turn Round.addColumn
      simp only
      split
      · show EStateM.bind _ _ p = EStateM.bind (EStateM.bind _ _) _ p
        unfold EStateM.bind
        cases Problem.onMaster
            (MasterProblem.addPricedVariable name 0.0 Weight.infinity 0.0)
              p with
        | error e q => rfl
        | ok v q =>
            show EStateM.bind _ _ q = EStateM.bind _ _ q
            unfold EStateM.bind
            rw [addCoefficients_eq]
      · rfl
  | filling v entries =>
      cases entries with
      | nil =>
          show EStateM.bind _ _ p = EStateM.bind (EStateM.bind _ _) _ p
          unfold EStateM.bind
          cases Problem.onMaster (MasterProblem.commitVariable v) p <;> rfl
      | cons e entries =>
          show EStateM.bind (EStateM.bind _ _) _ p
            = EStateM.bind (EStateM.bind _ _) _ p
          unfold EStateM.bind
          cases Problem.onMaster
            (MasterProblem.addCoefficient e.handle v e.coefficient) p <;> rfl
  | committed => rfl
  | ended added => exact absurd (.inl ⟨added, rfl⟩) h
  | failed => exact absurd (.inr rfl) h

/-- With every turn a task has one less to come. -/
theorem turns_turn {stage : ColumnStage} (h : ¬t.Still)
    (hturn : t.turn tolerance p = .ok stage q) :
    stage ≠ .failed ∧ turns q.registry { t with stage }
      < turns p.registry t := by
  obtain ⟨name, path, stage'⟩ := t
  cases stage' with
  | waiting =>
      unfold turn at hturn
      simp only at hturn
      split at hturn
      · obtain ⟨v, r, hcreate, hturn⟩ := Action.bind_eq_ok.1 hturn
        obtain ⟨m, -, rfl⟩ := Problem.onMaster_eq_ok.1 hcreate
        obtain ⟨rfl, rfl⟩ := Action.pure_eq_ok.1 hturn
        exact ⟨nofun, Nat.lt_succ_self _⟩
      · obtain ⟨rfl, rfl⟩ := Action.pure_eq_ok.1 hturn
        exact ⟨nofun, Nat.succ_pos _⟩
  | filling v entries =>
      cases entries with
      | nil =>
          obtain ⟨u, r, -, hturn⟩ := Action.bind_eq_ok.1 hturn
          obtain ⟨rfl, rfl⟩ := Action.pure_eq_ok.1 hturn
          exact ⟨nofun, Nat.lt_succ_self _⟩
      | cons e entries =>
          obtain ⟨u, r, -, hturn⟩ := Action.bind_eq_ok.1 hturn
          obtain ⟨rfl, rfl⟩ := Action.pure_eq_ok.1 hturn
          exact ⟨nofun, Nat.lt_succ_self _⟩
  | committed =>
      obtain ⟨u, r, -, hturn⟩ := Action.bind_eq_ok.1 hturn
      obtain ⟨rfl, rfl⟩ := Action.pure_eq_ok.1 hturn
      exact ⟨nofun, Nat.lt_succ_self _⟩
  | ended added => exact absurd (.inl ⟨added, rfl⟩) h
  | failed => exact absurd (.inr rfl) h

theorem still_of_turns {r : Registry} (h : t.turns r = 0) : t.Still := by
  obtain ⟨name, path, stage⟩ := t
  cases stage with
  | waiting => exact absurd h (Nat.succ_ne_zero _)
  | filling v entries => exact absurd h (Nat.succ_ne_zero _)
  | committed => exact absurd h Nat.one_ne_zero
  | ended added => exact .inl ⟨added, rfl⟩
  | failed => exact .inr rfl

end ColumnTask

-- ========================================================== all tasks

namespace Workers

variable {w : Workers μ} {k : Nat} {t : ColumnTask}

/-- What is left when the rest of a task has ended in this way. -/
def outcome (w : Workers μ) (k : Nat) (t : ColumnTask) :
    EStateM.Result PricingError (Problem μ) Bool → Workers μ
  | .ok added problem =>
      { w with
        problem, tasks := w.tasks.set k { t with stage := .ended added } }
  | .error e problem =>
      { problem
        tasks := w.tasks.set k { t with stage := .failed }
        failure := w.failure.or (some e) }

theorem set_of_getElem? {α : Type} {l : List α} {a : α} (h : l[k]? = some a) :
    l.set k a = l := by
  obtain ⟨hlt, rfl⟩ := List.getElem?_eq_some_iff.1 h
  exact List.set_getElem_self hlt

theorem getElem?_set_of {α : Type} {l : List α} {a b : α} (h : l[k]? = some a) :
    (l.set k b)[k]? = some b := by
  obtain ⟨hlt, -⟩ := List.getElem?_eq_some_iff.1 h
  exact List.getElem?_set_self hlt

/-- A task without turns does nothing with one. -/
theorem turn_of_still (ht : w.tasks[k]? = some t) (h : t.Still) :
    turn tolerance w k = w := by
  have hturn : ∀ stage, t.stage = stage → { t with stage } = t := by
    rintro stage rfl
    rfl
  unfold turn
  simp only [ht]
  unfold ColumnTask.turn
  rcases h with ⟨added, h⟩ | h
  · rw [h]
    simp only
    show { w with tasks := w.tasks.set k { t with stage := .ended added } } = w
    rw [hturn _ h, set_of_getElem? ht]
  · rw [h]
    show { w with tasks := w.tasks.set k { t with stage := .failed } } = w
    rw [hturn _ h, set_of_getElem? ht]

/-- Nor does it do anything with more of them. -/
theorem run_replicate_of_still (ht : w.tasks[k]? = some t)
    (h : t.Still) (n : Nat) :
    run tolerance w (List.replicate n k) = w := by
  induction n with
  | zero => rfl
  | succ n ih =>
      rw [List.replicate_succ]
      show run tolerance (turn tolerance w k) _ = w
      rw [turn_of_still ht h, ih]

/-- The rest of a task that has ended is nothing. -/
theorem outcome_of_still (ht : w.tasks[k]? = some t) (h : t.Still)
    (hfailed : t.stage ≠ .failed) :
    w.outcome k t (t.rest tolerance w.problem) = w := by
  obtain ⟨added, h⟩ := h.resolve_right hfailed
  obtain ⟨name, path, stage⟩ := t
  obtain rfl : stage = .ended added := h
  show { w with tasks := w.tasks.set k _ } = w
  rw [set_of_getElem? ht]

/-- Enough turns in a row are the rest of a task. -/
theorem run_replicate (ht : w.tasks[k]? = some t)
    (hfailed : t.stage ≠ .failed) {n : Nat}
    (hn : t.turns w.problem.registry ≤ n) :
    run tolerance w (List.replicate n k)
      = w.outcome k t (t.rest tolerance w.problem) := by
  induction n generalizing w t with
  | zero =>
      have hstill := ColumnTask.still_of_turns (Nat.le_zero.1 hn)
      rw [outcome_of_still ht hstill hfailed]
      rfl
  | succ n ih =>
      by_cases hstill : t.Still
      · rw [run_replicate_of_still ht hstill,
          outcome_of_still ht hstill hfailed]
      rw [List.replicate_succ, ColumnTask.rest_eq_turn hstill]
      show run tolerance (turn tolerance w k) _
        = w.outcome k t (EStateM.bind _ _ w.problem)
      unfold EStateM.bind
      cases hturn : t.turn tolerance w.problem with
      | ok stage q =>
          have hw : turn tolerance w k
              = { w with
                  problem := q, tasks := w.tasks.set k { t with stage } } := by
            unfold turn
            simp only [ht, hturn]
          obtain ⟨hgoes, hless⟩ := ColumnTask.turns_turn hstill hturn
          have hn' := Nat.le_of_lt_succ (Nat.lt_of_lt_of_le hless hn)
          rw [hw, ih (getElem?_set_of ht) hgoes hn']
          simp only
          cases ColumnTask.rest tolerance { t with stage } q <;> simp [outcome]
      | error e q =>
          have hw : turn tolerance w k = w.outcome k t (.error e q) := by
            unfold turn
            simp only [ht, hturn]
            rfl
          rw [hw]
          exact run_replicate_of_still (getElem?_set_of ht) (.inr rfl) n

/-- Finishing a task does the rest of it, unless it is dropped. -/
theorem finish_eq_outcome (tolerance : Float) (ht : w.tasks[k]? = some t)
    (hfailed : t.stage ≠ .failed)
    (hgoes : w.failure = none ∨ t.stage ≠ .waiting) :
    finish tolerance w k = w.outcome k t (t.rest tolerance w.problem) := by
  have hkept : ¬(w.failure.isSome ∧ t.stage = .waiting) := by
    rintro ⟨hsome, hwaiting⟩
    rcases hgoes with hnone | hbegun
    · rw [hnone] at hsome
      exact nomatch hsome
    · exact hbegun hwaiting
  unfold finish
  simp only [ht]
  rw [if_neg hkept, run_replicate ht hfailed (Nat.le_refl _)]

-- ======================================================== one worker

/-- After a failure the tasks that were not begun are dropped. -/
theorem foldl_finish_dropped {ks : List Nat}
    (hfailure : w.failure.isSome = true)
    (hwaiting : ∀ k ∈ ks, ∀ t, w.tasks[k]? = some t → t.stage = .waiting) :
    ks.foldl (finish tolerance) w = w := by
  induction ks with
  | nil => rfl
  | cons k ks ih =>
      have hfirst : finish tolerance w k = w := by
        unfold finish
        cases ht : w.tasks[k]? with
        | none => rfl
        | some t =>
            simp only
            rw [if_pos ⟨hfailure, hwaiting k List.mem_cons_self t ht⟩]
      rw [List.foldl_cons, hfirst]
      exact ih fun j hj => hwaiting j (List.mem_cons_of_mem k hj)

/-- The work is over, and has gone as attempts that were made one after
another. -/
def EndsAs (w : Workers μ) (before : Nat) :
    EStateM.Result PricingError (Problem μ) (List Bool) → Prop
  | .ok bs q => w.failure = none ∧ w.problem = q
    ∧ w.added = before + bs.countP id
  | .error e q => w.failure = some e ∧ w.problem = q

/-- Tasks that are finished in their order are attempts made one after
another. -/
theorem finish_in_order (tolerance : Float) (done ts : List ColumnTask)
    (hw : w.tasks = done ++ ts) (hfailure : w.failure = none)
    (hwaiting : ∀ t ∈ ts, t.stage = .waiting) :
    EndsAs ((List.range' done.length ts.length).foldl (finish tolerance) w)
      (done.countP fun t => t.stage = .ended true)
      ((ts.mapM fun t => Round.addColumn tolerance t.name t.path)
        w.problem) := by
  induction ts generalizing w done with
  | nil =>
      rw [List.append_nil] at hw
      refine ⟨hfailure, rfl, ?_⟩
      show w.tasks.countP _ = _
      rw [hw]
      rfl
  | cons t ts ih =>
      have ht : w.tasks[done.length]? = some t := by
        rw [hw, List.getElem?_append_right (Nat.le_refl _), Nat.sub_self]
        rfl
      have hfirst := hwaiting t List.mem_cons_self
      have hrest : t.rest tolerance w.problem
          = Round.addColumn tolerance t.name t.path w.problem := by
        unfold ColumnTask.rest
        rw [hfirst]
      have hset : ∀ stage, w.tasks.set done.length { t with stage }
          = done ++ { t with stage } :: ts := by
        intro stage
        rw [hw, List.set_append_right _ _ (Nat.le_refl _), Nat.sub_self]
        rfl
      have hfinish := finish_eq_outcome tolerance ht
        (by rw [hfirst]; exact nofun) (.inl hfailure)
      rw [List.length_cons, List.range'_succ, List.foldl_cons, hfinish, hrest,
        List.mapM_cons]
      show EndsAs _ _ (EStateM.bind _ _ w.problem)
      unfold EStateM.bind
      cases Round.addColumn tolerance t.name t.path w.problem with
      | ok b q =>
          have hnext := ih (w := w.outcome done.length t (.ok b q))
            (done ++ [{ t with stage := .ended b }]) (by
              show w.tasks.set _ _ = _
              rw [hset, List.append_assoc]
              rfl) hfailure fun t' ht' =>
                hwaiting t' (List.mem_cons_of_mem t ht')
          have hproblem : (w.outcome done.length t (.ok b q)).problem = q := rfl
          rw [List.length_append, List.countP_append, List.countP_singleton,
            hproblem] at hnext
          show EndsAs _ _ (EStateM.bind _ _ q)
          unfold EStateM.bind
          generalize (ts.mapM fun t =>
            Round.addColumn tolerance t.name t.path) q = r at hnext ⊢
          cases r with
          | ok bs r =>
              obtain ⟨hnone, hproblem, hadded⟩ := hnext
              refine ⟨hnone, hproblem, ?_⟩
              rw [List.countP_cons]
              cases b <;> simp at hadded ⊢ <;> omega
          | error e r => exact hnext
      | error e q =>
          have hfailed : (w.outcome done.length t (.error e q)).failure
              = some e := by
            show w.failure.or (some e) = some e
            rw [hfailure, Option.none_or]
          have hdropped : (List.range' (done.length + 1) ts.length).foldl
              (finish tolerance) (w.outcome done.length t (.error e q))
                = w.outcome done.length t (.error e q) := by
            apply foldl_finish_dropped
            · rw [hfailed]
              rfl
            · intro k hk t' ht'
              obtain ⟨hle, -⟩ := List.mem_range'_1.1 hk
              have hbehind : (done ++ { t with stage := .failed } :: ts)[k]?
                = some t' := by
                rw [← hset]
                exact ht'
              rw [List.append_cons,
                List.getElem?_append_right (by simpa using hle)] at hbehind
              exact hwaiting t'
                (List.mem_cons_of_mem t (List.mem_of_getElem? hbehind))
          rw [hdropped]
          exact ⟨hfailed, rfl⟩

/-- A single worker makes the attempts at the columns one after another. -/
theorem endsAs_finishAll (tolerance : Float) (p : Problem μ) (first : Nat)
    (chosen : List Path) :
    EndsAs (finishAll tolerance (start p first chosen)) 0
      ((chosen.zipIdx first).mapM
        (fun x => Round.addColumn tolerance (columnName x.2) x.1) p) := by
  have hwaiting : ∀ t ∈ (start p first chosen).tasks, t.stage = .waiting := by
    intro t ht
    obtain ⟨x, -, rfl⟩ := List.mem_map.1 ht
    rfl
  have hends := finish_in_order tolerance (w := start p first chosen) []
    (start p first chosen).tasks rfl rfl hwaiting
  have hmap : ((start p first chosen).tasks.mapM fun t =>
        Round.addColumn (μ := μ) tolerance t.name t.path)
      = (chosen.zipIdx first).mapM fun x =>
        Round.addColumn tolerance (columnName x.2) x.1 :=
    List.mapM_map
  rw [hmap, List.length_nil, ← List.range_eq_range'] at hends
  exact hends

end Workers

/-- The empty schedule is that of a single worker, who takes one column after
another. -/
theorem Round.addColumnsOn_nil (tolerance : Float) (first : Nat)
    (chosen : List Path) :
    Round.addColumnsOn (μ := μ) [] tolerance first chosen
      = Round.addColumns tolerance first chosen := by
  funext p
  have hends := Workers.endsAs_finishAll tolerance p first chosen
  unfold addColumns
  show _ = EStateM.bind _ _ p
  unfold EStateM.bind addColumnsOn
  show (Workers.finishAll tolerance (Workers.start p first chosen)).result = _
  generalize Workers.finishAll tolerance (Workers.start p first chosen)
    = w at hends ⊢
  generalize (chosen.zipIdx first).mapM
    (fun x => addColumn (μ := μ) tolerance (columnName x.2) x.1) p
      = r at hends ⊢
  unfold Workers.result
  cases r with
  | ok bs q =>
      obtain ⟨hnone, rfl, hadded⟩ := hends
      rw [hnone, hadded, Nat.zero_add]
      rfl
  | error e q =>
      obtain ⟨hsome, rfl⟩ := hends
      rw [hsome]

-- ======================================================== any schedule

namespace ColumnTask

variable {μ : Type} [MasterProblem μ] {t : ColumnTask}
  {p q : Problem (Recorded μ)}

/-- The stage a turn leads to. -/
def next (tolerance : Float) (t : ColumnTask) (p : Problem (Recorded μ)) :
    ColumnStage :=
  match t.turn tolerance p with
  | .ok stage _ => stage
  | .error _ _ => .failed

/-- What a turn of a task can be. -/
inductive Turned (t : ColumnTask) (p q : Problem (Recorded μ))
    (stage : ColumnStage) : Prop
  /-- The variable is created, or that fails. -/
  | began (hwaiting : t.stage = .waiting) (hstage : stage ≠ .waiting)
      (hnot : ∀ added, stage ≠ .ended added)
      (hregistry : q.registry = p.registry)
      (hcalls : ∃ b, q.master.calls = p.master.calls
        ++ [⟨.addPricedVariable t.name 0.0 Weight.infinity 0.0, b⟩])
  /-- Some other call is made for it, or none. -/
  | went (hbegun : t.stage ≠ .waiting) (hstage : stage ≠ .waiting)
      (hended : ∀ added, stage = .ended added ↔ t.stage = .ended added)
      (hregistry : q.registry = p.registry)
      (hcalls : ∃ later, q.master.calls = p.master.calls ++ later
        ∧ createdNames later = [])
  /-- The column is recorded. -/
  | recorded (hcommitted : t.stage = .committed) (hstage : stage = .ended true)
      (hregistry : q.registry = p.registry.recordColumn t.name t.path)
      (hcalls : q.master.calls = p.master.calls)

omit [MasterProblem μ] in
/-- A call of the master is recorded, and leaves the registry alone. -/
theorem after_onMaster_log {α : Type} (c : MasterCall)
    (act : Action MasterError μ α) (p : Problem (Recorded μ)) :
    ((Problem.onMaster (Recorded.log c act)).after p).registry = p.registry
      ∧ ∃ b, ((Problem.onMaster (Recorded.log c act)).after p).master.calls
        = p.master.calls ++ [⟨c, b⟩] := by
  obtain ⟨b, hcalls, -⟩ := Recorded.after_log c act p.master
  unfold Problem.onMaster
  rw [Action.after_focus, Action.after_mapError]
  exact ⟨rfl, b, hcalls⟩

/-- A turn that makes one call, but not the first, goes on with the task. -/
theorem turned_of_call {c : MasterCall} {act : Action MasterError μ Unit}
    {stage : ColumnStage}
    (hturn : t.turn tolerance p
      = (Problem.onMaster (Recorded.log c act) >>= fun _ => pure stage) p)
    (hc : c.creates? = none) (hbegun : t.stage ≠ .waiting)
    (hnot : ∀ added, t.stage ≠ .ended added) (hstage : stage ≠ .waiting)
    (hgoes : ∀ added, stage ≠ .ended added) :
    Turned t p ((t.turn tolerance).after p) (t.next tolerance p) := by
  obtain ⟨hregistry, b, hcalls⟩ := after_onMaster_log c act p
  have hnone : createdNames [⟨c, b⟩] = [] := List.filterMap_cons_none hc
  unfold next
  cases hcall : Problem.onMaster (Recorded.log c act) p with
  | ok u q =>
      rw [Action.after_of_ok hcall] at hregistry hcalls
      have hok := hturn.trans (Action.bind_eq_ok.2 ⟨u, q, hcall, rfl⟩)
      rw [Action.after_of_ok hok, hok]
      exact .went hbegun hstage
        (fun added => iff_of_false (hgoes added) (hnot added)) hregistry
        ⟨_, hcalls, hnone⟩
  | error e q =>
      rw [Action.after_of_error hcall] at hregistry hcalls
      have herror := hturn.trans (Action.bind_eq_error.2 (.inl hcall))
      rw [Action.after_of_error herror, herror]
      exact .went hbegun nofun
        (fun added => iff_of_false nofun (hnot added)) hregistry
        ⟨_, hcalls, hnone⟩

/-- A turn of a task for a path worth a column is one of the three. -/
theorem turned (hpath : t.path.isImproving tolerance = true)
    (p : Problem (Recorded μ)) :
    Turned t p ((t.turn tolerance).after p) (t.next tolerance p) := by
  obtain ⟨name, path, stage⟩ := t
  cases stage with
  | waiting =>
      obtain ⟨hregistry, b, hcalls⟩ := after_onMaster_log
        (.addPricedVariable name 0.0 Weight.infinity 0.0)
        (MasterProblem.addPricedVariable (μ := μ) name 0.0
          Weight.infinity 0.0) p
      have hturn : turn tolerance ⟨name, path, .waiting⟩ p
          = (Problem.onMaster
            (MasterProblem.addPricedVariable name 0.0 Weight.infinity 0.0)
              >>= fun v => do
                return .filling v (entriesAlong (← get).registry path)) p := by
        unfold turn
        simp only
        rw [if_pos hpath]
      unfold next
      cases hcall : Problem.onMaster (Recorded.log _
          (MasterProblem.addPricedVariable (μ := μ) name 0.0 Weight.infinity
            0.0)) p with
      | ok v q =>
          rw [Action.after_of_ok hcall] at hregistry hcalls
          have hok := hturn.trans (Action.bind_eq_ok.2 ⟨v, q, hcall, rfl⟩)
          rw [Action.after_of_ok hok, hok]
          exact .began rfl nofun nofun hregistry ⟨b, hcalls⟩
      | error e q =>
          rw [Action.after_of_error hcall] at hregistry hcalls
          have herror := hturn.trans (Action.bind_eq_error.2 (.inl hcall))
          rw [Action.after_of_error herror, herror]
          exact .began rfl nofun nofun hregistry ⟨b, hcalls⟩
  | filling v entries =>
      cases entries with
      | nil =>
          exact turned_of_call (c := .commitVariable v) rfl rfl nofun nofun
            nofun nofun
      | cons e entries =>
          exact turned_of_call (c := .addCoefficient e.handle v e.coefficient)
            rfl rfl nofun
            nofun nofun nofun
  | committed => exact .recorded rfl rfl rfl rfl
  | ended added =>
      exact .went nofun nofun (fun _ => .rfl) rfl
        ⟨[], (List.append_nil _).symm, rfl⟩
  | failed =>
      exact .went nofun nofun (fun _ => .rfl) rfl
        ⟨[], (List.append_nil _).symm, rfl⟩

end ColumnTask

namespace ColumnTask

/-- Its variable was created, or that was tried. -/
def isBegun (t : ColumnTask) : Bool := decide (t.stage ≠ .waiting)

/-- Its column is recorded. -/
def isRecorded (t : ColumnTask) : Bool := decide (t.stage = .ended true)

/-- Its column, whatever the handle. -/
def column (t : ColumnTask) : AddedColumn := ⟨t.name, default, t.path⟩

end ColumnTask

namespace Workers

section Lists

variable {α β : Type} {l : List α} {k : Nat} {a b : α} {P : α → Bool}
  {f : α → β}

/-- Up to their order, a change takes one element out and puts another in. -/
theorem perm_set (h : l[k]? = some a) (b : α) :
    (l.set k b).Perm (b :: l.eraseIdx k) ∧ l.Perm (a :: l.eraseIdx k) := by
  obtain ⟨hlt, rfl⟩ := List.getElem?_eq_some_iff.1 h
  exact ⟨List.set_perm_cons_eraseIdx hlt b,
    (List.getElem_cons_eraseIdx_perm hlt).symm⟩

theorem map_set_of_eq (h : l[k]? = some a) (hf : f b = f a) :
    (l.set k b).map f = l.map f := by
  have hget : (l.map f)[k]? = some (f b) := by
    rw [List.getElem?_map, h, hf]; rfl
  rw [List.map_set, set_of_getElem? hget]

/-- A change that keeps an element in or out. -/
theorem perm_filter_set_of_eq (h : l[k]? = some a) (hP : P b = P a)
    (hf : f b = f a) :
    (((l.set k b).filter P).map f).Perm ((l.filter P).map f) := by
  obtain ⟨hafter, hbefore⟩ := perm_set h b
  have hsame : ((b :: l.eraseIdx k).filter P).map f
      = ((a :: l.eraseIdx k).filter P).map f := by
    rw [List.filter_cons, List.filter_cons, hP]
    split
    · rw [List.map_cons, List.map_cons, hf]
    · rfl
  exact ((hafter.filter P).map f).trans
    (hsame ▸ ((hbefore.filter P).map f).symm)

/-- A change that lets an element in. -/
theorem perm_filter_set_of_new (h : l[k]? = some a) (ha : P a = false)
    (hb : P b = true) :
    (((l.set k b).filter P).map f).Perm ((l.filter P).map f ++ [f b]) := by
  obtain ⟨hafter, hbefore⟩ := perm_set h b
  have hnew : ((b :: l.eraseIdx k).filter P).map f
      = f b :: ((a :: l.eraseIdx k).filter P).map f := by
    rw [List.filter_cons_of_pos hb, List.map_cons,
      List.filter_cons_of_neg (by rw [ha]; exact Bool.false_ne_true)]
  refine ((hafter.filter P).map f).trans ?_
  rw [hnew]
  exact (((hbefore.filter P).map f).symm.cons _).trans
    (List.perm_append_singleton _ _).symm

end Lists

variable {μ : Type} [MasterProblem μ] {w : Workers (Recorded μ)} {k : Nat}
  {t : ColumnTask} {first : Nat} {chosen : List Path} {p : Problem (Recorded μ)}

/-- What a turn makes of the whole. -/
theorem turn_eq (tolerance : Float) (ht : w.tasks[k]? = some t) :
    (turn tolerance w k).problem = (t.turn tolerance).after w.problem
      ∧ (turn tolerance w k).tasks
        = w.tasks.set k { t with stage := t.next tolerance w.problem }
      ∧ ((turn tolerance w k).failure = none → w.failure = none
        ∧ (t.stage ≠ .failed → t.next tolerance w.problem ≠ .failed)) := by
  unfold turn ColumnTask.next Action.after
  simp only [ht]
  cases hturn : t.turn tolerance w.problem with
  | ok stage q =>
      refine ⟨rfl, rfl, fun hnone => ⟨hnone, fun hfailed => ?_⟩⟩
      by_cases hstill : t.Still
      · obtain ⟨added, hended⟩ := hstill.resolve_right hfailed
        unfold ColumnTask.turn at hturn
        rw [hended] at hturn
        obtain ⟨rfl, -⟩ := Action.pure_eq_ok.1 hturn
        exact nofun
      · exact (ColumnTask.turns_turn hstill hturn).1
  | error e q =>
      refine ⟨rfl, rfl, fun hnone => ?_⟩
      cases hw : w.failure <;> simp [hw] at hnone

/-- What is so while the workers are at the columns for the chosen paths,
numbered from `first`. -/
structure Underway (first : Nat) (chosen : List Path) (p : Problem (Recorded μ))
    (w : Workers (Recorded μ)) : Prop where
  names : w.tasks.map ColumnTask.name
    = (List.range' first chosen.length).map columnName
  paths : w.tasks.map ColumnTask.path = chosen
  created : ∃ later, w.problem.master.calls = p.master.calls ++ later
    ∧ (createdNames later).Perm
      ((w.tasks.filter ColumnTask.isBegun).map ColumnTask.name)
  recorded : ∃ done, w.problem.registry = AddedColumn.recordAll done p.registry
    ∧ done.Perm ((w.tasks.filter ColumnTask.isRecorded).map ColumnTask.column)
  passed : ∀ t ∈ w.tasks, t.stage ≠ .ended false
  failed : w.failure = none → ∀ t ∈ w.tasks, t.stage ≠ .failed

omit [MasterProblem μ] in
/-- Nothing has happened yet. -/
theorem underway_start (p : Problem (Recorded μ)) (first : Nat)
    (chosen : List Path) :
    Underway first chosen p (start p first chosen) := by
  have hwaiting : ∀ t ∈ (start p first chosen).tasks, t.stage = .waiting := by
    intro t ht
    obtain ⟨x, -, rfl⟩ := List.mem_map.1 ht
    rfl
  have hnone : ∀ {P : ColumnTask → Bool},
      (∀ t : ColumnTask, t.stage = .waiting → P t = false) →
      (start p first chosen).tasks.filter P = [] := by
    intro P hP
    apply List.filter_eq_nil_iff.2
    intro t ht
    rw [hP t (hwaiting t ht)]
    exact Bool.false_ne_true
  refine {
    names := ?_
    paths := ?_
    created := ⟨[], (List.append_nil _).symm, ?_⟩
    recorded := ⟨[], rfl, ?_⟩
    passed := fun t ht => by rw [hwaiting t ht]; exact nofun
    failed := fun _ t ht => by rw [hwaiting t ht]; exact nofun }
  · unfold start
    rw [List.map_map, ← List.zipIdx_map_snd, List.map_map]
    rfl
  · unfold start
    rw [List.map_map]
    exact List.zipIdx_map_fst first chosen
  · rw [hnone fun t ht => by unfold ColumnTask.isBegun; rw [ht]; rfl]
    exact .nil
  · rw [hnone fun t ht => by unfold ColumnTask.isRecorded; rw [ht]; rfl]
    exact .nil

/-- Whoever has the next turn, it stays so. -/
theorem Underway.turn (h : Underway first chosen p w)
    (hall : ∀ path ∈ chosen, path.isImproving tolerance = true) (k : Nat) :
    Underway first chosen p (turn tolerance w k) := by
  cases ht : w.tasks[k]? with
  | none =>
      unfold Workers.turn
      simp only [ht]
      exact h
  | some t =>
      have hmem := List.mem_of_getElem? ht
      have hpath : t.path.isImproving tolerance = true :=
        hall _ (h.paths ▸ List.mem_map_of_mem hmem)
      obtain ⟨hproblem, htasks, hfailure⟩ := turn_eq tolerance ht
      have hturned := ColumnTask.turned hpath w.problem
      generalize t.next tolerance w.problem = stage at htasks hfailure hturned
      generalize (t.turn tolerance).after w.problem = q at hproblem hturned
      obtain ⟨later, hcalls, hcreated⟩ := h.created
      obtain ⟨done, hregistry, hdone⟩ := h.recorded
      refine {
        names := by rw [htasks, map_set_of_eq ht]; exact h.names; rfl
        paths := by rw [htasks, map_set_of_eq ht]; exact h.paths; rfl
        created := ?_
        recorded := ?_
        passed := ?_
        failed := ?_ }
      · rw [hproblem, htasks]
        cases hturned with
        | began hwaiting hstage hnot hregistry hmade =>
            obtain ⟨b, hmade⟩ := hmade
            refine ⟨later ++ _, by rw [hmade, hcalls, List.append_assoc], ?_⟩
            rw [createdNames_append]
            refine (hcreated.append_right _).trans
              (perm_filter_set_of_new (b := { t with stage }) ht ?_ ?_).symm
            · exact decide_eq_false fun hne => hne hwaiting
            · exact decide_eq_true hstage
        | went hbegun hstage hended hregistry hmade =>
            obtain ⟨more, hmade, hnone⟩ := hmade
            refine ⟨later ++ more, by rw [hmade, hcalls, List.append_assoc], ?_⟩
            rw [createdNames_append, hnone, List.append_nil]
            refine hcreated.trans
              (perm_filter_set_of_eq (b := { t with stage }) ht ?_ rfl).symm
            exact (decide_eq_true hstage).trans (decide_eq_true hbegun).symm
        | recorded hcommitted hstage hregistry hmade =>
            refine ⟨later, by rw [hmade, hcalls], ?_⟩
            refine hcreated.trans
              (perm_filter_set_of_eq (b := { t with stage }) ht ?_ rfl).symm
            unfold ColumnTask.isBegun
            rw [hstage, hcommitted]
            rfl
      · rw [hproblem, htasks]
        have hsame : (stage = .ended true ↔ t.stage = .ended true) →
            done.Perm
              (((w.tasks.set k { t with stage }).filter
                ColumnTask.isRecorded).map
              ColumnTask.column) := fun hiff =>
          hdone.trans (perm_filter_set_of_eq (b := { t with stage }) ht
            (decide_eq_decide.2 hiff) rfl).symm
        cases hturned with
        | began hwaiting hstage hnot hkept hmade =>
            refine ⟨done, hkept.trans hregistry,
              hsame (iff_of_false (hnot true) ?_)⟩
            rw [hwaiting]
            exact nofun
        | went hbegun hstage hended hkept hmade =>
            exact ⟨done, hkept.trans hregistry, hsame (hended true)⟩
        | recorded hcommitted hstage hadded hmade =>
            refine ⟨done ++ [t.column], ?_, ?_⟩
            · rw [hadded, hregistry]
              unfold AddedColumn.recordAll
              rw [List.foldl_append]
              rfl
            · refine (hdone.append_right _).trans
                (perm_filter_set_of_new (b := { t with stage }) ht ?_ ?_).symm
              · exact decide_eq_false (by rw [hcommitted]; exact nofun)
              · exact decide_eq_true hstage
      · rw [htasks]
        intro t' ht'
        rcases List.mem_or_eq_of_mem_set ht' with ht' | rfl
        · exact h.passed t' ht'
        · cases hturned with
          | began hwaiting hstage hnot hkept hmade => exact hnot false
          | went hbegun hstage hended hkept hmade =>
              exact fun heq => h.passed t hmem ((hended false).1 heq)
          | recorded hcommitted hstage hadded hmade =>
              show stage ≠ _
              rw [hstage]
              exact nofun
      · rw [htasks]
        intro hnone t' ht'
        obtain ⟨hbefore, hgoes⟩ := hfailure hnone
        rcases List.mem_or_eq_of_mem_set ht' with ht' | rfl
        · exact h.failed hbefore t' ht'
        · exact hgoes (h.failed hbefore t hmem)

/-- So it is along any schedule. -/
theorem Underway.run (h : Underway first chosen p w)
    (hall : ∀ path ∈ chosen, path.isImproving tolerance = true)
    (schedule : List Nat) :
    Underway first chosen p (run tolerance w schedule) := by
  induction schedule generalizing w with
  | nil => exact h
  | cons k schedule ih => exact ih (h.turn hall k)

/-- And when a task is finished. -/
theorem Underway.finish (h : Underway first chosen p w)
    (hall : ∀ path ∈ chosen, path.isImproving tolerance = true) (k : Nat) :
    Underway first chosen p (finish tolerance w k) := by
  unfold Workers.finish
  cases w.tasks[k]? with
  | none => exact h
  | some t =>
      simp only
      split
      · exact h
      · exact h.run hall _

theorem Underway.foldl_finish (h : Underway first chosen p w)
    (hall : ∀ path ∈ chosen, path.isImproving tolerance = true)
    (ks : List Nat) :
    Underway first chosen p (ks.foldl (Workers.finish tolerance) w) := by
  induction ks generalizing w with
  | nil => exact h
  | cons k ks ih => exact ih (h.finish hall k)

-- ======================================================== without failure

/-- What has been achieved is not lost. A failure is not forgotten either. -/
structure Keeps (w w' : Workers (Recorded μ)) : Prop where
  failure : w'.failure = none → w.failure = none
  ended : ∀ (k : Nat) (t : ColumnTask) (added : Bool), w.tasks[k]? = some t →
    t.stage = .ended added → w'.tasks[k]? = some t

omit [MasterProblem μ] in
theorem Keeps.refl (w : Workers (Recorded μ)) : Keeps w w :=
  ⟨id, fun _ _ _ ht _ => ht⟩

omit [MasterProblem μ] in
theorem Keeps.trans {w w' w'' : Workers (Recorded μ)} (h : Keeps w w')
    (h' : Keeps w' w'') :
    Keeps w w'' :=
  ⟨fun hnone => h.failure (h'.failure hnone),
    fun k t added ht hended =>
      h'.ended k t added (h.ended k t added ht hended) hended⟩

/-- A turn touches one task only, and none that has ended. -/
theorem keeps_turn (w : Workers (Recorded μ)) (k : Nat) :
    Keeps w (turn tolerance w k) := by
  cases ht : w.tasks[k]? with
  | none =>
      unfold turn
      simp only [ht]
      exact .refl w
  | some t =>
      by_cases hstill : t.Still
      · rw [turn_of_still ht hstill]
        exact .refl w
      obtain ⟨-, htasks, hfailure⟩ := turn_eq tolerance ht
      refine ⟨fun hnone => (hfailure hnone).1, fun j t' added ht' hended => ?_⟩
      rw [htasks, List.getElem?_set_ne]
      · exact ht'
      · rintro rfl
        obtain rfl := Option.some.inj (ht.symm.trans ht')
        exact hstill (.inl ⟨added, hended⟩)

theorem keeps_run (w : Workers (Recorded μ)) (schedule : List Nat) :
    Keeps w (run tolerance w schedule) := by
  induction schedule generalizing w with
  | nil => exact .refl w
  | cons k schedule ih => exact (keeps_turn w k).trans (ih _)

theorem keeps_finish (w : Workers (Recorded μ)) (k : Nat) :
    Keeps w (finish tolerance w k) := by
  unfold finish
  cases w.tasks[k]? with
  | none => exact .refl w
  | some t =>
      simp only
      split
      · exact .refl w
      · exact keeps_run w _

/-- A task that is finished without a failure has its column recorded. -/
theorem Underway.finish_recorded (h : Underway first chosen p w)
    (hall : ∀ path ∈ chosen, path.isImproving tolerance = true)
    (ht : w.tasks[k]? = some t)
    (hnone : (Workers.finish tolerance w k).failure = none) :
    ∃ t', (Workers.finish tolerance w k).tasks[k]? = some t'
      ∧ t'.stage = .ended true := by
  have hw := (keeps_finish w k).failure hnone
  have hpassed := (h.finish hall k).passed
  rw [finish_eq_outcome tolerance ht (h.failed hw t (List.mem_of_getElem? ht))
    (.inl hw)] at hnone hpassed ⊢
  cases hrest : t.rest tolerance w.problem with
  | ok added q =>
      rw [hrest] at hpassed
      have hget : (w.outcome k t (.ok added q)).tasks[k]?
          = some { t with stage := .ended added } :=
        getElem?_set_of ht
      have hadded := hpassed _ (List.mem_of_getElem? hget)
      cases added with
      | true => exact ⟨_, hget, rfl⟩
      | false => exact absurd rfl hadded
  | error e q =>
      rw [hrest] at hnone
      have hsome : w.failure.or (some e) = none := hnone
      rw [hw] at hsome
      exact nomatch hsome

omit [MasterProblem μ] in
theorem Underway.length_tasks (h : Underway first chosen p w) :
    w.tasks.length = chosen.length := by
  rw [← h.paths, List.length_map]

/-- The first tasks have their columns recorded once they are finished. -/
theorem Underway.foldl_finish_recorded (h : Underway first chosen p w)
    (hall : ∀ path ∈ chosen, path.isImproving tolerance = true) {n : Nat}
    (hn : n ≤ chosen.length)
    (hnone : ((List.range n).foldl (Workers.finish tolerance) w).failure
      = none) :
    ∀ k < n, ∃ t, ((List.range n).foldl (Workers.finish tolerance) w).tasks[k]?
      = some t
      ∧ t.stage = .ended true := by
  induction n with
  | zero => exact fun k hk => absurd hk (Nat.not_lt_zero k)
  | succ n ih =>
      rw [List.range_succ, List.foldl_append] at hnone ⊢
      have hbefore := h.foldl_finish hall (List.range n)
      generalize (List.range n).foldl (Workers.finish tolerance) w = v at *
      intro k hk
      rcases Nat.lt_succ_iff_lt_or_eq.1 hk with hk | rfl
      · obtain ⟨t, ht, hended⟩ :=
          ih (by omega) ((keeps_finish v n).failure hnone) k hk
        exact ⟨t, (keeps_finish v n).ended k t true ht hended, hended⟩
      · have hlt : k < v.tasks.length := by rw [hbefore.length_tasks]; omega
        exact hbefore.finish_recorded hall (List.getElem?_eq_getElem hlt) hnone

/-- If there is no failure to the end, all columns are recorded. -/
theorem Underway.finishAll_recorded (h : Underway first chosen p w)
    (hall : ∀ path ∈ chosen, path.isImproving tolerance = true)
    (hnone : (finishAll tolerance w).failure = none) :
    ∀ t ∈ (finishAll tolerance w).tasks, t.stage = .ended true := by
  have hafter : Underway first chosen p (finishAll tolerance w) :=
    h.foldl_finish hall _
  intro t ht
  obtain ⟨k, hk, rfl⟩ := List.mem_iff_getElem.1 ht
  obtain ⟨t', ht', hended⟩ :=
    h.foldl_finish_recorded hall (Nat.le_of_eq h.length_tasks) hnone k
    (by rw [h.length_tasks, ← hafter.length_tasks]; exact hk)
  obtain rfl := Option.some.inj ((List.getElem?_eq_getElem hk).symm.trans ht')
  exact hended

end Workers

-- ======================================================= what is left

/-- What the columns of a round have left behind, in whatever order the
workers have been at them. Variables were created under some of the numbers
from `first` on, each at most once, and some of the columns are recorded. -/
structure Worked {μ : Type} (first : Nat) (chosen : List Path)
    (p q : Problem (Recorded μ)) (numbers : List Nat)
    (done : List AddedColumn) : Prop where
  created : ∃ later, q.master.calls = p.master.calls ++ later
    ∧ createdNames later = numbers.map columnName
  issued : ∀ i ∈ numbers, first ≤ i ∧ i < first + chosen.length
  different : numbers.Nodup
  registry : q.registry = AddedColumn.recordAll done p.registry
  names : (done.map AddedColumn.name).Subperm
    ((List.range' first chosen.length).map columnName)
  paths : ∀ c ∈ done, c.path ∈ chosen

section

variable {μ : Type} [MasterProblem μ] {p : Problem (Recorded μ)} {first : Nat}
  {chosen : List Path}

/-- Names of some numbers. -/
theorem exists_numbers (names : List String) {P : Nat → Prop}
    (h : ∀ name ∈ names, ∃ i, P i ∧ columnName i = name) :
    ∃ numbers : List Nat, names = numbers.map columnName
      ∧ ∀ i ∈ numbers, P i := by
  induction names with
  | nil => exact ⟨[], rfl, fun i hi => absurd hi List.not_mem_nil⟩
  | cons name names ih =>
      obtain ⟨i, hi, rfl⟩ := h name List.mem_cons_self
      obtain ⟨numbers, rfl, hnumbers⟩ :=
        ih fun n hn => h n (List.mem_cons_of_mem _ hn)
      exact ⟨i :: numbers, rfl, List.forall_mem_cons.2 ⟨hi, hnumbers⟩⟩

omit [MasterProblem μ] in
/-- The columns as the tasks stand. -/
theorem Workers.Underway.worked {w : Workers (Recorded μ)}
    (h : w.Underway first chosen p) :
    ∃ numbers done, Worked first chosen p w.problem numbers done
      ∧ done.length = w.added := by
  obtain ⟨later, hcalls, hcreated⟩ := h.created
  obtain ⟨done, hregistry, hdone⟩ := h.recorded
  have hnodup : (w.tasks.map ColumnTask.name).Nodup := by
    rw [h.names]
    exact (List.nodup_range' _).map fun _ _ => columnName_injective
  have hsub : ∀ P : ColumnTask → Bool,
      ((w.tasks.filter P).map ColumnTask.name).Sublist
        (w.tasks.map ColumnTask.name) :=
    fun P => List.filter_sublist.map _
  obtain ⟨numbers, hnumbers, hissued⟩ := exists_numbers (createdNames later)
    (P := fun i => first ≤ i ∧ i < first + chosen.length) (by
      intro name hname
      have hin := (hsub _).subset (hcreated.subset hname)
      rw [h.names] at hin
      obtain ⟨i, hi, heq⟩ := List.mem_map.1 hin
      exact ⟨i, List.mem_range'_1.1 hi, heq⟩)
  refine ⟨numbers, done, {
    created := ⟨later, hcalls, hnumbers⟩
    issued := hissued
    different := ?_
    registry := hregistry
    names := ?_
    paths := ?_ }, ?_⟩
  · have hdifferent := hcreated.nodup_iff.2 ((hsub _).nodup hnodup)
    rw [hnumbers] at hdifferent
    exact hdifferent.of_map _
  · rw [← h.names]
    refine (hdone.map AddedColumn.name).subperm.trans ?_
    rw [List.map_map]
    exact (hsub _).subperm
  · intro c hc
    obtain ⟨t, ht, rfl⟩ := List.mem_map.1 (hdone.subset hc)
    rw [← h.paths]
    exact List.mem_map_of_mem (List.mem_of_mem_filter ht)
  · rw [hdone.length_eq, List.length_map, ← List.countP_eq_length_filter]
    rfl

/-- However the workers take their turns, the columns are worked at; and if
there is no failure, all of them are recorded. -/
theorem Round.addColumnsOn_worked
    (hall : ∀ path ∈ chosen, path.isImproving tolerance = true)
    (schedule : List Nat) (first : Nat) (p : Problem (Recorded μ)) :
    ∃ numbers done,
      Worked first chosen p
        ((addColumnsOn schedule tolerance first chosen).after p) numbers done
        ∧ ∀ n q, addColumnsOn schedule tolerance first chosen p = .ok n q →
          n = chosen.length ∧ done.length = chosen.length := by
  have hrun := (Workers.underway_start p first chosen).run hall schedule
  have hafter : Workers.Underway first chosen p
      (Workers.finishAll tolerance
        ((Workers.start p first chosen).run tolerance schedule)) :=
    hrun.foldl_finish hall _
  have hrecorded := hrun.finishAll_recorded hall
  have hresult : addColumnsOn schedule tolerance first chosen p
      = (Workers.finishAll tolerance
      ((Workers.start p first chosen).run tolerance schedule)).result := rfl
  generalize Workers.finishAll tolerance
    ((Workers.start p first chosen).run tolerance schedule)
    = w at hafter hrecorded hresult
  obtain ⟨numbers, done, hworked, hcount⟩ := hafter.worked
  refine ⟨numbers, done, ?_, ?_⟩
  · have hproblem : (addColumnsOn schedule tolerance first chosen).after p
        = w.problem := by
      unfold Action.after
      rw [hresult]
      unfold Workers.result
      cases w.failure <;> rfl
    rw [hproblem]
    exact hworked
  · intro n q hok
    rw [hresult] at hok
    unfold Workers.result at hok
    cases hfailure : w.failure with
    | some e =>
        rw [hfailure] at hok
        exact nomatch hok
    | none =>
        rw [hfailure] at hok
        obtain ⟨rfl, -⟩ := EStateM.Result.ok.inj hok
        have hadded : w.added = chosen.length := by
          rw [← hafter.length_tasks]
          exact List.countP_eq_length.2 fun t ht =>
            decide_eq_true (hrecorded hfailure t ht)
        exact ⟨hadded, hcount.trans hadded⟩

end

end FlowPricing
