/-
What indexing leaves behind when it fails. The terms of a constraint are
entered in the arc index one by one, and the constraint is registered when
all of them have been taken out. A failure in between leaves the entries of
this one constraint in the index while the list does not have it
(`Setup.indexing_interrupted`). Those entries are the terms whose variables
were taken out of the constraint, or were to be when the failure struck; so
index and list agree exactly if no variable was touched since the name of the
latest constraint was asked for.

Nothing is asked of the master, which may fail at any call.
-/
import FlowPricing.Proofs.Setup.Constraints

namespace FlowPricing

variable {μ α : Type}

-- =============================================================== calls

/-- Whether a call asks for the name of a constraint, which is where the
constraint is begun. -/
def RecordedCall.isBeginning (x : RecordedCall) : Bool :=
  match x.call with
  | .constraintName _ => true
  | _ => false

/-- The variable that a call takes out of a constraint, or fails to. -/
def RecordedCall.removed? (x : RecordedCall) : Option VariableId :=
  match x.call with
  | .removeCoefficient _ v => some v
  | _ => none

namespace Problem

variable {p q : Problem (Recorded μ)} {call : MasterCall}
  {act : Action MasterError μ α}

/-- A call leaves the registry alone and is recorded. -/
theorem recorded_of_ok (call : MasterCall) {a : α}
    (h : onMaster (Recorded.log call act) p = .ok a q) :
    q.registry = p.registry
      ∧ q.master.calls = p.master.calls ++ [⟨call, true⟩] := by
  obtain ⟨m, hm, rfl⟩ := onMaster_eq_ok.1 h
  exact ⟨rfl, Recorded.log_eq_ok hm⟩

/-- A call that fails is recorded as such, and changes no registry. -/
theorem recorded_of_error (call : MasterCall) {e : PricingError}
    (h : onMaster (Recorded.log call act) p = .error e q) :
    q.registry = p.registry
      ∧ q.master.calls = p.master.calls ++ [⟨call, false⟩] := by
  obtain ⟨m, hm, rfl⟩ := Action.focus_eq_error.1 h
  obtain ⟨e', hlog, rfl⟩ := Action.mapError_eq_error.1 hm
  exact ⟨rfl, Recorded.log_eq_error hlog⟩

end Problem

namespace Registry

variable {r : Registry} {c : Constraint}

/-- An index that shows one constraint more than the list has agrees with the
list only if that constraint has no arcs. -/
theorem transposed_iff_of_pending
    (h : r.Shows (entriesFor (r.constraints ++ [c]))) :
    r.Transposed ↔ c.arcs = [] := by
  constructor
  · intro ht
    rw [List.eq_nil_iff_forall_not_mem]
    rintro ⟨a, x⟩ hax
    have hsame := (Shows.getD ht a).symm.trans (h.getD a)
    rw [entriesFor_concat, List.self_eq_append_right] at hsame
    have hmem : (⟨c.handle, x⟩ : IndexEntry) ∈ c.entriesFor a :=
      List.mem_map.2 ⟨(a, x), List.mem_filter.2 ⟨hax, decide_eq_true rfl⟩, rfl⟩
    rw [hsame] at hmem
    exact List.not_mem_nil hmem
  · intro hnil a
    have hnone : c.entriesFor a = [] := by
      unfold Constraint.entriesFor
      rw [hnil]
      rfl
    rw [h a, entriesFor_concat, hnone, List.append_nil]

end Registry

-- =============================================================== steps

namespace Setup

variable [EditableMaster μ] {p q u : Problem (Recorded μ)} {c : ConstraintId}
  {unneeded : List String} {since since' : List RecordedCall}
  {arcs arcs' : List (Arc × Float)}

/-- In some state the master gives this term when asked for those of a
constraint. -/
def Offered (μ : Type) [EditableMaster μ] (c : ConstraintId)
    (t : VariableId × Float) : Prop :=
  ∃ (m m' : Recorded μ) (terms : List (VariableId × Float)),
    EditableMaster.constraintTerms c m = .ok terms m' ∧ t ∈ terms

/-- In some state the master gives the variable a name that stands for this
arc. -/
def Bears (μ : Type) [EditableMaster μ] (v : VariableId) (a : Arc) : Prop :=
  ∃ (m m' : Recorded μ) (name : String),
    EditableMaster.variableName v m = .ok name m'
      ∧ VariableName.arc? name = .ok (some a)

/-- The variable with this coefficient is a term of the constraint, and has
the name of the arc. -/
structure StandsFor (μ : Type) [EditableMaster μ] (c : ConstraintId)
    (v : VariableId) (x : Arc × Float) : Prop where
  term : Offered μ c (v, x.2)
  name : Bears μ v x.1

/-- From `p` to `q` the calls `since` were made within a constraint, and these
terms of it were entered, one for each variable that was taken out. -/
structure Enters (c : ConstraintId) (since : List RecordedCall)
    (arcs : List (Arc × Float)) (p q : Problem (Recorded μ)) : Prop where
  registry : q.registry = p.registry.addEntries c arcs
  calls : q.master.calls = p.master.calls ++ since
  within : ∀ x ∈ since, x.isBeginning = false
  taken : List.Forall₂ (StandsFor μ c)
    (since.filterMap RecordedCall.removed?) arcs

theorem Enters.refl (c : ConstraintId) (p : Problem (Recorded μ)) :
    Enters c [] [] p p :=
  ⟨rfl, (List.append_nil _).symm, fun _ hx => absurd hx List.not_mem_nil, .nil⟩

theorem Enters.trans (h : Enters c since arcs p q)
    (h' : Enters c since' arcs' q u) :
    Enters c (since ++ since') (arcs ++ arcs') p u where
  registry := by rw [h'.registry, h.registry, Registry.addEntries_addEntries]
  calls := by rw [h'.calls, h.calls, List.append_assoc]
  within := fun x hx => (List.mem_append.1 hx).elim (h.within x) (h'.within x)
  taken := by
    rw [List.filterMap_append]
    exact List.rel_append h.taken h'.taken

/-- A call that takes out no variable enters nothing. -/
theorem Enters.call {x : RecordedCall} (hr : q.registry = p.registry)
    (hcalls : q.master.calls = p.master.calls ++ [x])
    (hx : x.isBeginning = false) (hnone : x.removed? = none) :
    Enters c [x] [] p q where
  registry := hr
  calls := hcalls
  within := fun _ hy => List.mem_singleton.1 hy ▸ hx
  taken := by
    rw [List.filterMap_cons, hnone]
    exact .nil

/-- Some terms of the constraint were entered, in the calls made within it. -/
def Proceeds (c : ConstraintId) (p q : Problem (Recorded μ)) : Prop :=
  ∃ since arcs, Enters c since arcs p q

instance (c : ConstraintId) :
    IsPreorder (Problem (Recorded μ)) (Proceeds c) where
  refl p := ⟨[], [], .refl c p⟩
  trans _ _ _ h h' := by
    obtain ⟨since, arcs, h⟩ := h
    obtain ⟨since', arcs', h'⟩ := h'
    exact ⟨since ++ since', arcs ++ arcs', h.trans h'⟩

/-- A variable was touched, after its term had been entered. -/
theorem Enters.removal {t : VariableId × Float} {a : Arc} {done : Bool}
    (ht : Offered μ c t) (hname : Bears μ t.1 a)
    (hr : q.registry = p.registry.addEntry a ⟨c, t.2⟩)
    (hcalls : q.master.calls
      = p.master.calls ++ [⟨.removeCoefficient c t.1, done⟩]) :
    Enters c [⟨.removeCoefficient c t.1, done⟩] [(a, t.2)] p q where
  registry := hr
  calls := hcalls
  within := fun _ hx => List.mem_singleton.1 hx ▸ rfl
  taken := .cons ⟨ht, hname⟩ .nil

/-- A term is entered before the master is asked to let go of its variable, so
it is entered however that ends. -/
theorem moves_removal {t : VariableId × Float} {a : Arc} (ht : Offered μ c t)
    (hname : Bears μ t.1 a) :
    Action.Moves (Proceeds c) (do
      Problem.modifyRegistry (·.addEntry a ⟨c, t.2⟩)
      Problem.onMaster
        (EditableMaster.removeCoefficient (μ := Recorded μ) c t.1)
      return some (a, t.2)) := by
  intro p
  rw [Action.after_bind]
  show Proceeds c p (Action.after (Problem.onMaster _ >>= _) _)
  rw [Action.after_bind]
  cases hremove :
    Problem.onMaster (EditableMaster.removeCoefficient (μ := Recorded μ) c t.1)
      { p with registry := p.registry.addEntry a ⟨c, t.2⟩ } with
  | error e q =>
      obtain ⟨hr, hcalls⟩ :=
        Problem.recorded_of_error (.removeCoefficient c t.1) hremove
      exact ⟨_, _, .removal ht hname hr hcalls⟩
  | ok _ q =>
      obtain ⟨hr, hcalls⟩ :=
        Problem.recorded_of_ok (.removeCoefficient c t.1) hremove
      exact ⟨_, _, .removal ht hname hr hcalls⟩

/-- However the taking of a term ends, it has been entered if its variable was
touched. -/
theorem moves_takeTerm {t : VariableId × Float} (ht : Offered μ c t) :
    Action.Moves (Proceeds c) (takeTerm (μ := Recorded μ) c t) := by
  intro p
  unfold takeTerm
  rw [Action.after_bind]
  cases hname : Problem.onMaster (EditableMaster.variableName t.1) p with
  | error e q =>
      obtain ⟨hr, hcalls⟩ := Problem.recorded_of_error (.variableName t.1) hname
      exact ⟨_, _, .call hr hcalls rfl rfl⟩
  | ok name q =>
      obtain ⟨hr, hcalls⟩ := Problem.recorded_of_ok (.variableName t.1) hname
      have hread : Proceeds c p q := ⟨_, _, .call hr hcalls rfl rfl⟩
      show Proceeds c p
        (Action.after (_ : Action PricingError (Problem (Recorded μ)) _) q)
      cases harc : VariableName.arc? name with
      | error e => exact hread
      | ok o =>
          cases o with
          | none => exact hread
          | some a =>
              obtain ⟨m, hm, -⟩ := Problem.onMaster_eq_ok.1 hname
              exact trans_of (Proceeds c) hread
                (moves_removal ht ⟨_, _, _, hm, harc⟩ q)

/-- Going through the terms of a constraint proceeds with it. -/
theorem moves_terms {terms : List (VariableId × Float)} {m m' : Recorded μ}
    (hterms : EditableMaster.constraintTerms c m = .ok terms m') :
    Action.Moves (Proceeds c) (terms.mapM (takeTerm (μ := Recorded μ) c)) :=
  Action.moves_mapM_of_mem fun _ ht => moves_takeTerm ⟨m, m', terms, hterms, ht⟩

/-- Where indexing a constraint fails, its name has been asked for, and some of
its terms have been entered since. -/
theorem proceeds_of_indexConstraint {e : PricingError}
    (h : indexConstraint unneeded c p = .error e q) :
    ∃ p₁ named, p₁.registry = p.registry
      ∧ p₁.master.calls = p.master.calls ++ [⟨.constraintName c, named⟩]
      ∧ Proceeds c p₁ q := by
  unfold indexConstraint at h
  rcases Action.bind_eq_error.1 h with h | ⟨name, p₁, hname, h⟩
  · obtain ⟨hr, hcalls⟩ := Problem.recorded_of_error (.constraintName c) h
    exact ⟨q, false, hr, hcalls, refl_of (Proceeds c) q⟩
  obtain ⟨hr, hcalls⟩ := Problem.recorded_of_ok (.constraintName c) hname
  refine ⟨p₁, true, hr, hcalls, ?_⟩
  split at h
  · rcases Action.bind_eq_error.1 h with h | ⟨_, p₂, -, h⟩
    · obtain ⟨hr, hcalls⟩ := Problem.recorded_of_error (.deleteConstraint c) h
      exact ⟨_, _, .call hr hcalls rfl rfl⟩
    · exact absurd h Action.pure_ne_error
  · rcases Action.bind_eq_error.1 h with h | ⟨terms, p₂, hterms, h⟩
    · obtain ⟨hr, hcalls⟩ := Problem.recorded_of_error (.constraintTerms c) h
      exact ⟨_, _, .call hr hcalls rfl rfl⟩
    obtain ⟨hr, hcalls⟩ := Problem.recorded_of_ok (.constraintTerms c) hterms
    refine trans_of (Proceeds c) ⟨_, _, .call hr hcalls rfl rfl⟩ ?_
    obtain ⟨m, hoffered, -⟩ := Problem.onMaster_eq_ok.1 hterms
    rcases Action.bind_eq_error.1 h with h | ⟨taken, p₃, htaken, h⟩
    · exact (moves_terms hoffered).of_error h
    refine trans_of (Proceeds c) ((moves_terms hoffered).of_ok htaken) ?_
    split at h
    · exact absurd h Action.pure_ne_error
    · rcases Action.bind_eq_error.1 h with h | ⟨_, p₄, -, h⟩
      · obtain ⟨hr, hcalls⟩ := Problem.recorded_of_error (.setModifiable c) h
        exact ⟨_, _, .call hr hcalls rfl rfl⟩
      · -- registering cannot fail
        exact nomatch h

-- ========================================================= a failed run

/-- Indexing stopped within the constraint `pending`, after the calls `since`.
It is not registered, but the index has the terms of it that were entered. -/
structure Interrupted (q : Problem (Recorded μ)) (pending : Constraint)
    (since : List RecordedCall) : Prop where
  begun : ∃ before named,
    q.master.calls = before ++ ⟨.constraintName pending.handle, named⟩ :: since
  latest : ∀ x ∈ since, x.isBeginning = false
  taken : List.Forall₂ (StandsFor μ pending.handle)
    (since.filterMap RecordedCall.removed?) pending.arcs
  index : q.registry.Shows
    (Registry.entriesFor (q.registry.constraints ++ [pending]))

/-- Index and list agree exactly if no variable was touched within the pending
constraint. -/
theorem Interrupted.transposed_iff {pending : Constraint}
    (h : Interrupted q pending since) :
    q.registry.Transposed ↔ ∀ x ∈ since, x.removed? = none := by
  rw [Registry.transposed_iff_of_pending h.index, ← List.length_eq_zero_iff,
    ← h.taken.length_eq, List.length_eq_zero_iff, List.filterMap_eq_nil_iff]

/-- A step that fails where index and list agree interrupts the run. -/
theorem interrupted_of_indexConstraint {e : PricingError}
    (hp : p.registry.Transposed)
    (h : indexConstraint unneeded c p = .error e q) :
    ∃ arcs since, Interrupted q ⟨c, arcs⟩ since := by
  obtain ⟨p₁, named, hr, hcalls, since, arcs, henters⟩ :=
    proceeds_of_indexConstraint h
  refine ⟨arcs, since, ⟨p.master.calls, named, ?_⟩, henters.within,
    henters.taken, ?_⟩
  · rw [henters.calls, hcalls, List.append_assoc, List.singleton_append]
  · rw [henters.registry, hr]
    exact hp.pending c arcs

/-- Indexing into an empty registry fails in the middle of one constraint,
whatever the cause. The index then shows the registered constraints and this
one, and agrees with the list exactly if no variable was touched since its
name was asked for. -/
theorem indexing_interrupted {e : PricingError}
    (hc : p.registry.constraints = []) (hi : p.registry.index = .empty)
    (h : indexConstraints unneeded p = .error e q) :
    ∃ pending since, Interrupted q pending since
      ∧ (q.registry.Transposed ↔ ∀ x ∈ since, x.removed? = none) := by
  unfold indexConstraints at h
  rw [Action.get_bind] at h
  rcases Action.bind_eq_error.1 h with h | ⟨bs, p₁, -, h⟩
  · obtain ⟨done, c, rest, bs, p₁, -, hdone, hfail⟩ := Action.mapM_eq_error.1 h
    have hbefore : p₁.registry.Transposed :=
      mapM_indexConstraint_induction (P := Registry.Transposed)
        (fun _ c arcs ht _ => ht.register c arcs)
          (Registry.transposed_of_empty hc hi) hdone
    obtain ⟨arcs, since, hstopped⟩ :=
      interrupted_of_indexConstraint hbefore hfail
    exact ⟨⟨c, arcs⟩, since, hstopped, hstopped.transposed_iff⟩
  · exact absurd h Action.pure_ne_error

/-- The arc of a priced variable. -/
def sampleArc : Arc :=
  ⟨⟨0, 0, -2, -1, 0, false, 0⟩, ⟨0, 0, 35, -1, 0, false, 0⟩⟩

/-- Two constraints with this variable. The second one also has a variable
whose name is malformed. -/
def sampleMalformed : Problem (Recorded MemoryMaster) where
  registry := {}
  master := { inner :=
    { rows := [{ name := "cover", terms := [(⟨0⟩, 1.0)] },
        { name := "limit", terms := [(⟨0⟩, 2.0), (⟨1⟩, 1.0)] }]
      columns :=
        [{ name := "y(0|0|neg2|neg1|0|false|0,0|0|35|neg1|0|false|0)",
           lower := 0.0, upper := 1.0, objective := 0.0, committed := true },
         { name := "y(0|0)", lower := 0.0, upper := 1.0, objective := 0.0,
           committed := true }] } }

/-- What is reported of the malformed name. -/
def sampleFlaw : PricingError := .name ⟨"y(0|0)", .nodeCount⟩

theorem indexConstraints_sampleMalformed : indexConstraints [] sampleMalformed
    = .error sampleFlaw ((indexConstraints []).after sampleMalformed) :=
  Action.eq_error_of_result (by decide +kernel)

/-- A malformed name stops the indexing. -/
theorem indexing_interrupted_sample :
    ∃ q pending since, indexConstraints [] sampleMalformed = .error sampleFlaw q
      ∧ Interrupted q pending since
      ∧ (q.registry.Transposed ↔ ∀ x ∈ since, x.removed? = none) := by
  obtain ⟨pending, since, hstopped⟩ :=
    indexing_interrupted rfl rfl indexConstraints_sampleMalformed
  exact ⟨_, pending, since, indexConstraints_sampleMalformed, hstopped⟩

/-- The index has the arc of the second constraint, which is not registered. -/
theorem indexing_leaves_entry :
    ∃ q, indexConstraints [] sampleMalformed = .error sampleFlaw q
      ∧ q.registry.constraints = [⟨⟨0⟩, [(sampleArc, 1.0)]⟩]
      ∧ q.registry.entriesOf sampleArc = some [⟨⟨0⟩, 1.0⟩, ⟨⟨1⟩, 2.0⟩]
      ∧ ¬q.registry.Transposed := by
  have hconstraints :
      ((indexConstraints []).after sampleMalformed).registry.constraints
      = [⟨⟨0⟩, [(sampleArc, 1.0)]⟩] := by decide +kernel
  have hentries :
      ((indexConstraints []).after sampleMalformed).registry.entriesOf sampleArc
      = some [⟨⟨0⟩, 1.0⟩, ⟨⟨1⟩, 2.0⟩] := by decide +kernel
  refine ⟨_, indexConstraints_sampleMalformed, hconstraints, hentries,
    fun ht => ?_⟩
  have hsame := Registry.Shows.getD ht sampleArc
  rw [hentries, hconstraints] at hsame
  revert hsame
  decide +kernel

end Setup

end FlowPricing
