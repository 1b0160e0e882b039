/-
The life of a pricer. Whatever it is told, in whatever order, on whatever
registry and with a master that fails wherever it likes, what it does depends
on three states only, and the answers it has given so far say in which of
them it is.

What telling it something can do to a pricer is said once (`Solve.Effect`).
From that, one call keeps the books on the calls so far (`Booked.concat`),
and so does any life (`Lives.booked`). Refused is only what the state does not
allow (`refuses_iff`): no other step of a call ends with that error
(`fails_obeying`).
-/
import FlowPricing.Proofs.Pricing.History
import FlowPricing.Proofs.Pricing.Forgetting

namespace FlowPricing

variable {μ α : Type}

-- ============================================================== commands

/-- What a pricer can be told. -/
inductive Command where
  | start
  | round (kind : PricingKind)
  | terminate
deriving DecidableEq, Repr

namespace Command

/-- The operation under which it is refused. -/
def operation : Command → PricerOperation
  | start => .start
  | round _ => .price
  | terminate => .terminate

/-- The states in which a pricer obeys. -/
def allowed : Command → PricerState → Bool
  | start => (· == .uninitialized)
  | round _ => (· == .ready)
  | terminate => (· != .terminated)

end Command

/-- Any error but a refusal. -/
def PricingError.NotRefusal (e : PricingError) : Prop :=
  ∀ op state, e ≠ .invalidState op state

-- ============================================================== failures

namespace Round

variable [MasterProblem μ] {kind : PricingKind} {tolerance : Float}

omit [MasterProblem μ] in
/-- A failure of the master is no refusal. -/
theorem OfMaster.notRefusal {e : PricingError} (h : OfMaster e) :
    e.NotRefusal := by
  obtain ⟨e', rfl⟩ := h
  exact fun _ _ => nofun

omit [MasterProblem μ] in
/-- The networks do not know about states. -/
theorem fails_eachNetwork {β : Type}
    {f : Network → Except PricingError (β × Network)}
    (hf : ∀ n e, f n = .error e → e.NotRefusal) :
    Action.Fails PricingError.NotRefusal (Registry.eachNetwork f) :=
  Action.fails_focus (Action.fails_each (Action.fails_step hf))

/-- Where prices come from, nothing refuses. -/
theorem fails_constraintChanges (c : Constraint) :
    Action.Fails PricingError.NotRefusal
      (constraintChanges (μ := μ) kind tolerance c) := by
  have hread : Action.Fails PricingError.NotRefusal
      (price (μ := μ) kind c.handle) := by
    refine Action.fails_bind ((fails_onMaster _).mono fun _ =>
      OfMaster.notRefusal) fun value => ?_
    split
    · exact Action.fails_pure _
    · exact Action.fails_throw fun _ _ => nofun
  refine Action.fails_bind hread fun x => ?_
  split
  · exact Action.fails_pure _
  · refine Action.fails_get_bind fun p => Action.fails_ofExcept fun e he => ?_
    cases hall : c.arcs.mapM (weightChange p.registry x) with
    | ok ws =>
        rw [hall] at he
        exact nomatch he
    | error e' =>
        rw [hall] at he
        cases he
        exact fun _ _ => nofun

/-- Making the weights never refuses. -/
theorem fails_reweight :
    Action.Fails PricingError.NotRefusal
      (reweight (μ := μ) kind tolerance) := by
  refine Action.fails_get_bind fun p => ?_
  refine Action.fails_bind (Action.fails_mapM fails_constraintChanges _)
    fun changes => ?_
  refine Action.fails_focus
    (Action.fails_bind (fails_eachNetwork fun n e he => ?_)
    fun _ => Action.fails_pure _)
  split at he
  · exact nomatch he
  · cases he
    exact fun _ _ => nofun

theorem fails_shortestPaths :
    Action.Fails PricingError.NotRefusal shortestPaths := by
  refine fails_eachNetwork fun n e he => ?_
  split at he
  · exact nomatch he
  · cases he
    exact fun _ _ => nofun

end Round

namespace Solve

variable [MasterProblem μ] {s t : Solve μ} {c : Command}

/-- So nothing before the columns refuses. -/
theorem fails_survey (kind : PricingKind) (pricer : Pricer) :
    Action.Fails PricingError.NotRefusal (survey (μ := μ) kind pricer) := by
  refine Action.fails_bind (Action.fails_bind ?_ fun _ => ?_) fun _ => ?_
  · exact Action.fails_focus (Action.fails_modify _)
  · exact Action.fails_focus Round.fails_reweight
  · refine Action.fails_bind ?_ fun _ => Action.fails_pure _
    exact Action.fails_focus (Action.fails_focus Round.fails_shortestPaths)

omit [MasterProblem μ] in
/-- What is done to the problem leaves the pricer alone. -/
theorem leaves_pricer_onProblem (act : Action PricingError (Problem μ) α) :
    Action.Leaves Solve.pricer (onProblem act) :=
  Action.moves_focus fun _ => rfl

/-- Until it has chosen, a round leaves the pricer alone. -/
theorem leaves_pricer_survey (kind : PricingKind) (pricer : Pricer) :
    Action.Leaves (Solve.pricer (μ := μ)) (survey kind pricer) := by
  refine Action.moves_bind (Action.moves_bind ?_ fun _ => ?_) fun _ => ?_
  · exact leaves_pricer_onProblem _
  · exact leaves_pricer_onProblem _
  · exact Action.moves_bind (leaves_pricer_onProblem _) fun _ =>
      Action.moves_pure _

-- ============================================================== one call

/-- The pricer does as it is told, if it may. Only a round has something to
report. -/
def obey : Command → Action PricingError (Solve μ) (Option RoundOutcome)
  | .start => do
      start
      return none
  | .round kind => do
      let out ← price kind
      return some out
  | .terminate => do
      terminate
      return none

/-- Out of turn nothing happens at all. -/
theorem obey_of_not_allowed (h : c.allowed s.pricer.state = false) :
    obey c s = .error (.invalidState c.operation s.pricer.state) s := by
  cases c <;>
    exact Action.bind_eq_error.2
      (.inl (Action.bind_eq_error.2 (.inl (require_of_false h))))

/-- What telling a pricer something can do to it, and what answer it gives. -/
inductive Effect :
    Command → Pricer → Except PricingError (Option RoundOutcome) → Pricer → Prop
  | refused {c : Command} {p : Pricer} (h : c.allowed p.state = false) :
      Effect c p (.error (.invalidState c.operation p.state)) p
  | failed {c : Command} {p : Pricer} {e : PricingError} (next : Nat)
      (h : c.allowed p.state = true) (hc : c ≠ .terminate) (he : e.NotRefusal) :
      Effect c p (.error e) { p with nextColumn := next }
  | started {p : Pricer} (h : p.state = .uninitialized) :
      Effect .start p (.ok none) { p with state := .ready }
  | priced {p : Pricer} {kind : PricingKind} (next columns : Nat)
      (h : p.state = .ready) :
      Effect (.round kind) p (.ok (some { columns, status := .success }))
        { p with
          rounds := p.rounds + 1, generated := p.generated + columns,
          nextColumn := next }
  | terminated {p : Pricer} (h : p.state ≠ .terminated) :
      Effect .terminate p (.ok none) { p with state := .terminated }

/-- A start fails only where the constraints are replaced, and that does not
reach the pricer. -/
theorem effect_start (h : s.pricer.state = .uninitialized) :
    Effect .start s.pricer ((obey .start).result s)
      ((obey .start).after s).pricer := by
  generalize hact :
    (Problem.onBoth (Registry.remap MasterProblem.transformedConstraint) :
    Action PricingError (Problem μ) Unit) = act
  have hproblem : Action.Fails PricingError.NotRefusal (onProblem act) := by
    rw [← hact]
    exact Action.fails_focus
      (Action.fails_focus (Action.fails_mapError fun _ _ _ => nofun))
  have hpass : require .start (· == .uninitialized) s = .ok () s :=
    require_eq_ok.2 ⟨by simp [h], rfl⟩
  cases hremap : onProblem act s with
  | ok x t =>
      have hpricer : t.pricer = s.pricer :=
        (leaves_pricer_onProblem act).of_ok hremap
      have hstart : obey .start s
          = .ok none { t with pricer := { t.pricer with state := .ready } } :=
        Action.bind_eq_ok.2 ⟨(), _, Action.bind_eq_ok.2
          ⟨(), s, hpass, Action.bind_eq_ok.2 ⟨x, t, hact ▸ hremap, rfl⟩⟩, rfl⟩
      rw [Action.result_of_ok hstart, Action.after_of_ok hstart, hpricer]
      exact .started h
  | error e t =>
      have hpricer : t.pricer = s.pricer :=
        (leaves_pricer_onProblem act).of_error hremap
      have hstart : obey .start s = .error e t :=
        Action.bind_eq_error.2 (.inl (Action.bind_eq_error.2 (.inr
          ⟨(), s, hpass, Action.bind_eq_error.2 (.inl (hact ▸ hremap))⟩)))
      rw [Action.result_of_error hstart, Action.after_of_error hstart, hpricer]
      exact .failed s.pricer.nextColumn (by simp [Command.allowed, h]) nofun
        (hproblem s e t hremap)

/-- A round that fails while it surveys has used no name; later it may have
used some. -/
theorem effect_round (kind : PricingKind) (h : s.pricer.state = .ready) :
    Effect (.round kind) s.pricer ((obey (.round kind)).result s)
      ((obey (.round kind)).after s).pricer := by
  have hallowed : (Command.round kind).allowed s.pricer.state = true := by
    simp [Command.allowed, h]
  have hfailed : ∀ e t, price kind s = .error e t →
      obey (.round kind) s = .error e t :=
    fun e t hprice => Action.bind_eq_error.2 (.inl hprice)
  have hprice : price kind s = (survey kind s.pricer >>= generate s.pricer) s :=
    price_of_ready h
  cases hsurvey : survey kind s.pricer s with
  | error e t =>
      have hpricer : t.pricer = s.pricer :=
        (leaves_pricer_survey kind s.pricer).of_error hsurvey
      have hround :=
        hfailed e t (hprice.trans (Action.bind_eq_error.2 (.inl hsurvey)))
      rw [Action.result_of_error hround, Action.after_of_error hround, hpricer]
      exact .failed s.pricer.nextColumn hallowed nofun
        (fails_survey _ _ s e t hsurvey)
  | ok chosen u =>
      have hpricer : u.pricer = s.pricer :=
        (leaves_pricer_survey kind s.pricer).of_ok hsurvey
      cases hgenerate : generate s.pricer chosen u with
      | error e t =>
          have hround := hfailed e t
            (hprice.trans (Action.bind_eq_error.2
              (.inr ⟨chosen, u, hsurvey, hgenerate⟩)))
          have hmaster := fails_generate _ _ u e t hgenerate
          obtain ⟨q, -, rfl⟩ := generate_eq_error.1 hgenerate
          rw [Action.result_of_error hround,
            Action.after_of_error hround, hpricer]
          exact .failed _ hallowed nofun hmaster.notRefusal
      | ok out t =>
          have hround : obey (.round kind) s = .ok (some out) t :=
            Action.bind_eq_ok.2 ⟨out, t,
              hprice.trans (Action.bind_eq_ok.2 ⟨chosen, u, hsurvey,
                hgenerate⟩), rfl⟩
          obtain ⟨k, q, -, rfl, rfl⟩ := generate_eq_ok.1 hgenerate
          rw [Action.result_of_ok hround, Action.after_of_ok hround, hpricer]
          exact .priced _ k h

/-- A pricer that is not terminated yet is then. -/
theorem effect_terminate (h : s.pricer.state ≠ .terminated) :
    Effect .terminate s.pricer ((obey .terminate).result s)
      ((obey .terminate).after s).pricer := by
  have hpass : require .terminate (· != .terminated) s = .ok () s :=
    require_eq_ok.2 ⟨by simp [h], rfl⟩
  have hend : obey .terminate s
      = .ok none { s with pricer := { s.pricer with state := .terminated } } :=
    Action.bind_eq_ok.2 ⟨(), _, Action.bind_eq_ok.2 ⟨(), s, hpass, rfl⟩, rfl⟩
  rw [Action.result_of_ok hend, Action.after_of_ok hend]
  exact .terminated h

/-- Nothing else ever happens. -/
theorem effect_obey (c : Command) (s : Solve μ) :
    Effect c s.pricer ((obey c).result s) ((obey c).after s).pricer := by
  cases hallowed : c.allowed s.pricer.state with
  | false =>
      have hrefused := obey_of_not_allowed hallowed
      rw [Action.result_of_error hrefused, Action.after_of_error hrefused]
      exact .refused hallowed
  | true =>
      cases c with
      | start => exact effect_start (by simpa [Command.allowed] using hallowed)
      | round kind =>
          exact effect_round kind (by simpa [Command.allowed] using hallowed)
      | terminate =>
          exact effect_terminate (by simpa [Command.allowed] using hallowed)

end Solve

-- ============================================================== a life

/-- A call of a pricer: what it was told, and what it answered. -/
structure Call where
  command : Command
  answer : Except PricingError (Option RoundOutcome)

namespace Call

/-- The pricer was told `c`, and did it. -/
def Obeyed (c : Command) (call : Call) : Prop :=
  call.command = c ∧ ∃ out, call.answer = .ok out

/-- What the call reported; only a round that succeeds does. -/
def report? (call : Call) : Option RoundOutcome :=
  match call.answer with
  | .ok out => out
  | .error _ => none

end Call

/-- A start has succeeded, and no end since. -/
def Running (calls : List Call) : Prop :=
  ∃ before begun later, calls = before ++ begun :: later ∧ begun.Obeyed .start
    ∧ ∀ call ∈ later, ¬call.Obeyed .terminate

section Booked

variable {calls : List Call} {call : Call} {p q : Pricer}

/-- Whether a pricer runs after one more call depends on that call and on
whether it ran. -/
theorem running_concat : Running (calls ++ [call])
    ↔ call.Obeyed .start ∨ Running calls ∧ ¬call.Obeyed .terminate := by
  constructor
  · rintro ⟨before, begun, later, heq, hbegun, hnone⟩
    -- the start is the last call itself, or one before it
    rcases List.eq_nil_or_concat' later with rfl | ⟨later, last, rfl⟩
    · obtain ⟨-, hlast⟩ := List.append_inj' heq rfl
      obtain ⟨rfl, -⟩ := List.cons.inj hlast
      exact .inl hbegun
    · rw [← List.cons_append, ← List.append_assoc] at heq
      obtain ⟨rfl, hlast⟩ := List.append_inj' heq rfl
      obtain ⟨rfl, -⟩ := List.cons.inj hlast
      refine .inr ⟨⟨before, begun, later, rfl, hbegun, fun call hcall =>
        ?_⟩, ?_⟩
      · exact hnone call (List.mem_append_left _ hcall)
      · exact hnone _ (List.mem_append_right _ List.mem_cons_self)
  · rintro (hstart | ⟨⟨before, begun, later, rfl, hbegun, hnone⟩, hend⟩)
    · exact ⟨calls, call, [], rfl, hstart, fun _ hlater =>
        absurd hlater List.not_mem_nil⟩
    · refine ⟨before, begun, later ++ [call], by simp, hbegun, fun x hx => ?_⟩
      rcases List.mem_append.1 hx with hx | hx
      · exact hnone x hx
      · exact List.mem_singleton.1 hx ▸ hend

/-- What the rounds so far have reported. -/
def reports (calls : List Call) : List RoundOutcome :=
  calls.filterMap Call.report?

/-- The calls so far tell in which state a pricer is, and what its counts
are. -/
structure Booked (calls : List Call) (p : Pricer) : Prop where
  uninitialized : p.state = .uninitialized
    ↔ ∀ call ∈ calls, ¬call.Obeyed .start ∧ ¬call.Obeyed .terminate
  ready : p.state = .ready ↔ Running calls
  terminated : p.state = .terminated ↔ ∃ call ∈ calls, call.Obeyed .terminate
  rounds : p.rounds = (reports calls).length
  generated : p.generated = ((reports calls).map RoundOutcome.columns).sum

/-- One more call may report one more round. -/
theorem reports_concat :
    reports (calls ++ [call]) = reports calls ++ call.report?.toList := by
  unfold reports
  rw [List.filterMap_append]
  cases hreport : call.report? <;> simp [hreport]

/-- The counts after a call that has reported something or nothing. -/
theorem Booked.counts (h : Booked calls p) (call : Call) (q : Pricer)
    (hrounds : q.rounds = p.rounds + call.report?.toList.length)
    (hgenerated : q.generated
      = p.generated + (call.report?.toList.map RoundOutcome.columns).sum) :
    q.rounds = (reports (calls ++ [call])).length
      ∧ q.generated = ((reports (calls ++ [call])).map
        RoundOutcome.columns).sum := by
  rw [reports_concat, List.length_append, List.map_append,
    List.sum_append, ← h.rounds, ← h.generated]
  exact ⟨hrounds, hgenerated⟩

/-- A call that has neither started nor ended the pricer leaves its state. -/
theorem Booked.stays (h : Booked calls p) (hstart : ¬call.Obeyed .start)
    (hend : ¬call.Obeyed .terminate) (hstate : q.state = p.state)
    (hrounds : q.rounds = p.rounds + call.report?.toList.length)
    (hgenerated : q.generated
      = p.generated + (call.report?.toList.map RoundOutcome.columns).sum) :
    Booked (calls ++ [call]) q where
  uninitialized := by
    rw [hstate, h.uninitialized, List.forall_mem_append,
      List.forall_mem_singleton]
    exact (and_iff_left ⟨hstart, hend⟩).symm
  ready := by
    rw [hstate, h.ready, running_concat, or_iff_right hstart, and_iff_left hend]
  terminated := by
    rw [hstate, h.terminated]
    simp [or_and_right, exists_or, hend]
  rounds := (h.counts call q hrounds hgenerated).1
  generated := (h.counts call q hrounds hgenerated).2

/-- One call keeps the books. -/
theorem Booked.concat {c : Command}
    {answer : Except PricingError (Option RoundOutcome)} (h : Booked calls p)
    (heffect : Solve.Effect c p answer q) :
    Booked (calls ++ [⟨c, answer⟩]) q := by
  cases heffect with
  | refused _ => exact h.stays nofun nofun rfl rfl rfl
  | failed next _ _ _ => exact h.stays nofun nofun rfl rfl rfl
  | priced next columns _ => exact h.stays nofun nofun rfl rfl rfl
  | started hnew =>
      have hbegun : Call.Obeyed .start ⟨.start, .ok none⟩ := ⟨rfl, none, rfl⟩
      have hnone := h.uninitialized.1 hnew
      have hcounts :=
        h.counts ⟨.start, .ok none⟩ { p with state := .ready } rfl rfl
      exact {
        uninitialized := by
          refine iff_of_false nofun fun hall => ?_
          exact (hall _ (List.mem_append_right _ List.mem_cons_self)).1 hbegun
        ready := iff_of_true rfl (running_concat.2 (.inl hbegun))
        terminated := by
          refine iff_of_false nofun ?_
          rintro ⟨call, hcall, hend⟩
          rcases List.mem_append.1 hcall with hcall | hcall
          · exact (hnone call hcall).2 hend
          · obtain rfl := List.mem_singleton.1 hcall
            exact nomatch hend.1
        rounds := hcounts.1
        generated := hcounts.2 }
  | terminated _ =>
      have hend : Call.Obeyed .terminate ⟨.terminate, .ok none⟩ :=
        ⟨rfl, none, rfl⟩
      have hcounts :=
        h.counts ⟨.terminate, .ok none⟩ { p with state := .terminated } rfl rfl
      exact {
        uninitialized := by
          refine iff_of_false nofun fun hall => ?_
          exact (hall _ (List.mem_append_right _ List.mem_cons_self)).2 hend
        ready := by
          refine iff_of_false nofun fun hrunning => ?_
          rcases running_concat.1 hrunning with hbegun | ⟨-, hnone⟩
          · exact nomatch hbegun.1
          · exact hnone hend
        terminated :=
          iff_of_true rfl ⟨_, List.mem_append_right _ List.mem_cons_self, hend⟩
        rounds := hcounts.1
        generated := hcounts.2 }

/-- A new pricer has no calls behind it. -/
theorem booked_new (selection : Selection) (tolerance : Float) :
    Booked [] { selection, tolerance } where
  uninitialized := iff_of_true rfl fun _ hcall => absurd hcall List.not_mem_nil
  ready := by
    refine iff_of_false nofun ?_
    rintro ⟨before, begun, later, heq, -⟩
    exact absurd heq.symm (by simp)
  terminated := by
    refine iff_of_false nofun ?_
    rintro ⟨call, hcall, -⟩
    exact absurd hcall List.not_mem_nil
  rounds := rfl
  generated := rfl

end Booked

namespace Solve

variable [MasterProblem μ] {s t : Solve μ} {c : Command} {calls : List Call}

/-- A life of a solve: its pricer is called, and between the calls anything
may happen to the registry and the master. -/
inductive Lives (s : Solve μ) : List Call → Solve μ → Prop
  | born : Lives s [] s
  | called {calls : List Call} {t : Solve μ} (c : Command)
      (h : Lives s calls t) :
      Lives s (calls ++ [⟨c, (obey c).result t⟩]) ((obey c).after t)
  | meanwhile {calls : List Call} {t : Solve μ} (problem : Problem μ)
      (h : Lives s calls t) :
      Lives s calls { t with problem }

/-- Any life keeps the books, whatever happens between its calls. -/
theorem Lives.booked (h : Lives s calls t) (hs : Booked [] s.pricer) :
    Booked calls t.pricer := by
  induction h with
  | born => exact hs
  | called c _ ih => exact ih.concat (effect_obey c _)
  | meanwhile problem _ ih => exact ih

/-- How a call fails: it is refused out of turn, and nothing has happened; or
it is let through, and then the state and the counts stay. -/
theorem obey_error_cases {e : PricingError} (h : obey c s = .error e t) :
    c.allowed s.pricer.state = false
      ∧ e = .invalidState c.operation s.pricer.state ∧ t = s
      ∨ c.allowed s.pricer.state = true ∧ c ≠ .terminate ∧ e.NotRefusal
        ∧ ∃ next, t.pricer = { s.pricer with nextColumn := next } := by
  have heffect := effect_obey c s
  rw [Action.result_of_error h, Action.after_of_error h] at heffect
  cases hallowed : c.allowed s.pricer.state with
  | false =>
      obtain ⟨rfl, rfl⟩ :=
        EStateM.Result.error.inj (h.symm.trans (obey_of_not_allowed hallowed))
      exact .inl ⟨rfl, rfl, rfl⟩
  | true =>
      generalize t.pricer = q at heffect ⊢
      cases heffect with
      | refused hrefused => exact nomatch hallowed.symm.trans hrefused
      | failed next _ hc he => exact .inr ⟨rfl, hc, he, next, rfl⟩

/-- The pricer refuses because of its state. -/
def Refuses (s : Solve μ) (c : Command) : Prop :=
  ∃ op state t, obey c s = .error (.invalidState op state) t

/-- It does so exactly where the state does not allow what it is told. -/
theorem refuses_iff : Refuses s c ↔ c.allowed s.pricer.state = false := by
  constructor
  · rintro ⟨op, state, t, h⟩
    rcases obey_error_cases h with ⟨hrefused, -⟩ | ⟨-, -, he, -⟩
    · exact hrefused
    · exact absurd rfl (he op state)
  · exact fun h => ⟨_, _, _, obey_of_not_allowed h⟩

/-- Ending succeeds wherever it is allowed. -/
theorem terminates_iff :
    (∃ out t, obey .terminate s = .ok out t)
      ↔ s.pricer.state ≠ .terminated := by
  constructor
  · rintro ⟨out, t, h⟩ hstate
    have hrefused := obey_of_not_allowed (c := .terminate) (s := s)
      (by simp [Command.allowed, hstate])
    exact nomatch h.symm.trans hrefused
  · intro hstate
    cases h : obey .terminate s with
    | ok out t => exact ⟨out, t, rfl⟩
    | error e t =>
        rcases obey_error_cases h with ⟨hrefused, -⟩ | ⟨-, hc, -⟩
        · exact absurd (by simpa [Command.allowed] using hrefused) hstate
        · exact absurd rfl hc

/-- The life of a pricer. Let a new pricer be told anything in any order, on
any registry and with a master that may fail at any call; between the calls
both may change. Then

* a round passes the check of the state exactly if a start has succeeded, and
  no end since;
* a start passes it exactly if neither a start nor an end has succeeded;
* an end succeeds exactly if none has before;
* a refused call leaves everything as it was: the registry with its weights,
  remembered paths, handles, index and columns, the master with the record of
  its calls, and the pricer with its state and counts;
* a call that fails leaves the state and both counts;
* the counts are those of the rounds that succeeded and of the columns they
  reported. -/
theorem life_cycle {problem : Problem (Recorded μ)} {selection : Selection}
    {tolerance : Float} {s : Solve (Recorded μ)}
    (h : Lives ⟨problem, { selection, tolerance }⟩ calls s) :
    (∀ kind, ¬Refuses s (.round kind) ↔ Running calls)
      ∧ (¬Refuses s .start ↔ ∀ call ∈ calls, ¬call.Obeyed .start
        ∧ ¬call.Obeyed .terminate)
      ∧ ((∃ out t, obey .terminate s = .ok out t)
        ↔ ∀ call ∈ calls, ¬call.Obeyed .terminate)
      ∧ (∀ c op state t, obey c s = .error (.invalidState op state) t →
          op = c.operation ∧ state = s.pricer.state ∧ t = s)
      ∧ (∀ c e t, obey c s = .error e t → t.pricer.state = s.pricer.state
          ∧ t.pricer.rounds = s.pricer.rounds
          ∧ t.pricer.generated = s.pricer.generated)
      ∧ s.pricer.rounds = (reports calls).length
      ∧ s.pricer.generated
        = ((reports calls).map RoundOutcome.columns).sum := by
  have hbooked : Booked calls s.pricer :=
    h.booked (booked_new selection tolerance)
  refine ⟨fun kind => ?_, ?_, ?_, ?_, ?_, hbooked.rounds, hbooked.generated⟩
  · rw [refuses_iff, ← hbooked.ready]
    simp [Command.allowed]
  · rw [refuses_iff, ← hbooked.uninitialized]
    simp [Command.allowed]
  · rw [terminates_iff, Ne, hbooked.terminated]
    simp
  · intro c op state t hrefused
    rcases obey_error_cases hrefused with ⟨-, he, rfl⟩ | ⟨-, -, he, -⟩
    · obtain ⟨rfl, rfl⟩ := PricingError.invalidState.inj he
      exact ⟨rfl, rfl, rfl⟩
    · exact absurd rfl (he op state)
  · intro c e t hfails
    rcases obey_error_cases hfails with ⟨-, -, rfl⟩ | ⟨-, -, -, next, hpricer⟩
    · exact ⟨rfl, rfl, rfl⟩
    · rw [hpricer]
      exact ⟨rfl, rfl, rfl⟩

/-- A new pricer for a problem of one arc and two constraints. -/
def sampleNew : Solve (Recorded (Failing MemoryMaster)) :=
  let indexed := (Setup.indexConstraints []).after
    ⟨(Setup.addDescriptions [Session.sampleDescription]).after {},
      Setup.sampleMaster⟩
  { problem := ⟨indexed.registry,
    { inner := { inner := indexed.master.transform } }⟩
    pricer := { selection := .full, tolerance := 0.0 } }

/-- The problem with a master that fails at some call of an operation. -/
def withInjection (injection : Option Injection)
    (s : Solve (Recorded (Failing MemoryMaster))) :
    Problem (Recorded (Failing MemoryMaster)) :=
  (s.withInner (sampleInner injection s.problem.master.inner)).problem

/-- The pricer is called while the master fails so. -/
def told (injection : Option Injection) (c : Command)
    (s : Solve (Recorded (Failing MemoryMaster))) :
    Solve (Recorded (Failing MemoryMaster)) :=
  (obey c).after { s with problem := withInjection injection s }

/-- A round too early, a start that fails halfway, and one that succeeds; then
a round that fails with the second coefficient of its column, and one that
succeeds. -/
def sampleUsed : Solve (Recorded (Failing MemoryMaster)) :=
  told none (.round .reducedCost) <|
    told (some ⟨.addCoefficient, 1⟩) (.round .reducedCost) <|
    told none .start <| told (some ⟨.transformedConstraint, 1⟩) .start <|
    told none (.round .reducedCost) sampleNew

/-- Such a life: the pricer is running, and one round with one column counts.
Once it has ended, it refuses rounds, and another end. -/
theorem life_cycle_sample :
    ∃ calls, Lives sampleNew calls sampleUsed
      ∧ calls.map Call.command
        = [.round .reducedCost, .start, .start, .round .reducedCost,
          .round .reducedCost]
      ∧ Running calls ∧ (reports calls).length = 1
      ∧ ((reports calls).map RoundOutcome.columns).sum = 1
      ∧ ¬Refuses sampleUsed (.round .farkas)
      ∧ (∃ out t, obey .terminate sampleUsed = .ok out t)
      ∧ Refuses ((obey .terminate).after sampleUsed) (.round .farkas)
      ∧ ¬∃ out t, obey .terminate ((obey .terminate).after sampleUsed)
        = .ok out t := by
  have hstate : sampleUsed.pricer.state = .ready ∧ sampleUsed.pricer.rounds = 1
      ∧ sampleUsed.pricer.generated = 1 := by
    decide +kernel
  have htold : ∀ {calls s} (injection : Option Injection) (c : Command),
      Lives sampleNew calls s →
      ∃ answer, Lives sampleNew (calls ++ [⟨c, answer⟩]) (told injection c s) :=
    fun injection c h => ⟨_, (h.meanwhile (withInjection injection _)).called c⟩
  have hlives : ∃ calls, Lives sampleNew calls sampleUsed
      ∧ calls.map Call.command
      = [.round .reducedCost, .start, .start, .round .reducedCost,
        .round .reducedCost] := by
    obtain ⟨_, h₁⟩ := htold none (.round .reducedCost) .born
    obtain ⟨_, h₂⟩ := htold (some ⟨.transformedConstraint, 1⟩) .start h₁
    obtain ⟨_, h₃⟩ := htold none .start h₂
    obtain ⟨_, h₄⟩ := htold (some ⟨.addCoefficient, 1⟩) (.round .reducedCost) h₃
    obtain ⟨_, h₅⟩ := htold none (.round .reducedCost) h₄
    exact ⟨_, h₅, rfl⟩
  -- from here on it does not matter how the pricer got there
  generalize sampleUsed = s at hstate hlives ⊢
  obtain ⟨hready, hrounds, hgenerated⟩ := hstate
  obtain ⟨calls, hlives, hcommands⟩ := hlives
  obtain ⟨hround, -, -, -, -, hreports, hcolumns⟩ := life_cycle hlives
  have hpasses : ¬Refuses s (.round .farkas) := by
    rw [refuses_iff, hready]
    decide
  obtain ⟨out, t, hterminate⟩ : ∃ out t, obey .terminate s = .ok out t := by
    rw [terminates_iff, hready]
    decide
  have hobeyed :
      Call.Obeyed .terminate ⟨.terminate, (obey .terminate).result s⟩ :=
    ⟨rfl, out, Action.result_of_ok hterminate⟩
  obtain ⟨hlater, -, hagain, -⟩ := life_cycle (hlives.called .terminate)
  refine ⟨calls, hlives, hcommands, (hround .farkas).1 hpasses,
    hreports.symm.trans hrounds, hcolumns.symm.trans hgenerated, hpasses,
    ⟨out, t, hterminate⟩, ?_, ?_⟩
  · by_contra hlet
    rcases running_concat.1 ((hlater .farkas).1 hlet) with hbegun | ⟨-, hnone⟩
    · exact nomatch hbegun.1
    · exact hnone hobeyed
  · intro htwice
    exact hagain.1 htwice _ (List.mem_append_right _ List.mem_cons_self) hobeyed

end Solve

end FlowPricing
