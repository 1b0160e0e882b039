/-
Calls of a master in memory, one by one. A call that succeeds has been let
through by the injected failure, has done in memory what the operation
does, and stands in the record; nothing else happened (`Ran`). So what a
run of successful calls leaves is known from the calls and from what became
of the registry and of the memory, and a run exists as soon as the failure
lets its calls through. `ran_append` cuts such a run anywhere, which is what
the proofs about loops go by.

A failure that strikes from the first call of its operation on (`Steady`)
lets a call through again whenever it has let one of the same operation
through.
-/
import FlowPricing.Master.Wrapped
import FlowPricing.Proofs.Master.Memory
import FlowPricing.Proofs.Pricing.Round

namespace FlowPricing

variable {α : Type}

/-- The operation that is called. -/
def MasterCall.operation : MasterCall → MasterOperation
  | dualValue _ => .dualValue
  | farkasValue _ => .farkasValue
  | transformedConstraint _ => .transformedConstraint
  | addPricedVariable .. => .addPricedVariable
  | addCoefficient .. => .addCoefficient
  | commitVariable _ => .commitVariable
  | constraintName _ => .constraintName
  | constraintTerms _ => .constraintTerms
  | variableName _ => .variableName
  | deleteConstraint _ => .deleteConstraint
  | removeCoefficient .. => .removeCoefficient
  | setModifiable _ => .setModifiable

-- =========================================================== operations

namespace MemoryMaster

variable {m : MemoryMaster} {c : ConstraintId} {r : Row}

/-- Reading from a live row changes nothing. -/
theorem read_of_row? (h : m.row? c = some r) (op : MasterOperation)
    (read : Row → α) :
    (do let r ← row op c; return read r : Action MasterError MemoryMaster α) m
      = .ok (read r) m :=
  Action.bind_eq_ok.2 ⟨r, m, row_eq_ok.2 ⟨h, rfl⟩, rfl⟩

/-- Changing a live row changes that row only. -/
theorem change_of_row? (h : m.row? c = some r) (op : MasterOperation)
    (f : Row → Row) :
    (do let _ ← row op c; modify (·.modifyRow c f) :
      Action MasterError MemoryMaster Unit) m
      = .ok () (m.modifyRow c f) :=
  Action.bind_eq_ok.2 ⟨r, m, row_eq_ok.2 ⟨h, rfl⟩, rfl⟩

/-- Two changes of a constraint, one after the other, are one. -/
theorem modifyRow_modifyRow (m : MemoryMaster) (c : ConstraintId)
    (f g : Row → Row) :
    (m.modifyRow c f).modifyRow c g = m.modifyRow c (g ∘ f) := by
  unfold modifyRow
  simp only [List.modify_modify_eq]

theorem modifyRow_id (m : MemoryMaster) (c : ConstraintId) :
    m.modifyRow c id = m := by
  unfold modifyRow
  rw [List.modify_id]

/-- Of a change to a constraint only what it makes of that one counts. -/
theorem modifyRow_congr {f g : Row → Row} (h : m.row? c = some r)
    (hfg : f r = g r) :
    m.modifyRow c f = m.modifyRow c g := by
  obtain ⟨hget, -⟩ := row?_eq_some.1 h
  have hrows : m.rows.modify c.index f = m.rows.modify c.index g := by
    apply List.ext_getElem?
    intro i
    rw [List.getElem?_modify, List.getElem?_modify]
    by_cases hi : c.index = i
    · subst hi
      simp [hget, hfg]
    · simp [hi]
  unfold modifyRow
  rw [hrows]

end MemoryMaster

-- ============================================================= failures

namespace Injection

/-- What is left of an injected failure after a call; `none` if it strikes
the call. -/
def pass (injection : Option Injection) (call : MasterCall) :
    Option (Option Injection) :=
  match injection with
  | some ⟨operation, remaining⟩ =>
      if operation = call.operation then
        match remaining with
        | 0 => none
        | n + 1 => some (some ⟨operation, n⟩)
      else some injection
  | none => some injection

/-- A failure that strikes every call of its operation, if there is one at
all. -/
def Steady (injection : Option Injection) : Prop :=
  ∀ i, injection = some i → i.remaining = 0

variable {injection left : Option Injection} {call : MasterCall}
  {calls calls' : List MasterCall}

/-- What a steady failure lets through does not use it up. -/
theorem Steady.pass_eq (h : Steady injection)
    (hpass : pass injection call = some left) :
    left = injection := by
  unfold pass at hpass
  split at hpass
  · next operation remaining =>
      obtain rfl : remaining = 0 := h _ rfl
      split at hpass
      · exact nomatch hpass
      · exact (Option.some.inj hpass).symm
  · exact (Option.some.inj hpass).symm

/-- A run that a steady failure lets through is one of which it lets every
call through. -/
theorem Steady.foldlM_pass (h : Steady injection) :
    calls.foldlM pass injection = some left
      ↔ left = injection ∧ ∀ call ∈ calls, pass injection call
        = some injection := by
  induction calls with
  | nil =>
      rw [List.foldlM_nil]
      show some injection = some left ↔ _
      simp [eq_comm]
  | cons call calls ih =>
      rw [List.foldlM_cons, List.forall_mem_cons]
      cases hpass : pass injection call with
      | none => simp
      | some i =>
          obtain rfl := h.pass_eq hpass
          show calls.foldlM pass i = some left ↔ _
          simp [ih]

/-- What a steady failure has let through, it lets through again, in any
selection and order. -/
theorem Steady.foldlM_pass_of_subset (h : Steady injection)
    (hpass : calls.foldlM pass injection = some left)
    (hsub : ∀ call ∈ calls', call ∈ calls) :
    calls'.foldlM pass left = some left := by
  obtain ⟨rfl, hall⟩ := h.foldlM_pass.1 hpass
  exact h.foldlM_pass.2 ⟨rfl, fun call hcall => hall call (hsub call hcall)⟩

end Injection

/-- A call succeeds exactly if the failure lets it through and the master
behind answers it. -/
theorem Failing.call_eq_ok {μ : Type} {call : MasterCall}
    {act : Action MasterError μ α} {m m' : Failing μ} {a : α} :
    Failing.call call.operation act m = .ok a m'
      ↔ act m.inner = .ok a m'.inner ∧ Injection.pass m.injection call
        = some m'.injection := by
  have hcheck : Failing.check call.operation m
      = match Injection.pass m.injection call with
        | some injection => .ok () { m with injection }
        | none => .error ⟨call.operation, "injected failure"⟩ m := by
    unfold Failing.check Injection.pass
    rw [Action.get_bind]
    obtain ⟨inner, injection⟩ := m
    cases injection with
    | none => rfl
    | some i =>
        obtain ⟨operation, remaining⟩ := i
        simp only
        split
        · cases remaining <;> rfl
        · rfl
  unfold Failing.call
  rw [Action.bind_eq_ok, hcheck]
  cases Injection.pass m.injection call with
  | none => simp
  | some injection =>
      simp only [EStateM.Result.ok.injEq, Option.some.injEq]
      constructor
      · intro h
        obtain ⟨_, _, ⟨-, rfl⟩, h⟩ := h
        obtain ⟨inner, hact, rfl⟩ := Action.focus_eq_ok.1 h
        exact ⟨hact, rfl⟩
      · intro h
        obtain ⟨hact, rfl⟩ := h
        refine ⟨(), { m with injection := m'.injection }, ⟨trivial, rfl⟩, ?_⟩
        exact Action.focus_eq_ok.2 ⟨m'.inner, hact, rfl⟩

/-- A recorded call succeeds exactly as the call behind it, and is noted. -/
theorem Recorded.log_eq_ok_iff {μ : Type} {call : MasterCall}
    {act : Action MasterError μ α} {m m' : Recorded μ} {a : α} :
    Recorded.log call act m = .ok a m'
      ↔ act m.inner = .ok a m'.inner
        ∧ m'.calls = m.calls ++ [⟨call, true⟩] := by
  constructor
  · exact fun h => ⟨Recorded.log_inner h, Recorded.log_eq_ok h⟩
  · intro h
    obtain ⟨hact, hcalls⟩ := h
    obtain ⟨inner, record⟩ := m'
    unfold Recorded.log
    rw [hact]
    have hrecord := congrArg List.reverse hcalls
    unfold Recorded.calls at hrecord
    simp only [List.reverse_reverse, List.reverse_append,
      List.reverse_singleton, List.singleton_append] at hrecord
    rw [hrecord]

-- ================================================================= runs

namespace Problem

variable {p q : Problem (Recorded (Failing MemoryMaster))} {r r' : Registry}
  {m m' : MemoryMaster} {call : MasterCall} {calls calls' : List MasterCall}

/-- What a master in memory holds. -/
def memory (p : Problem (Recorded (Failing MemoryMaster))) : MemoryMaster :=
  p.master.inner.inner

/-- What is left of its injected failure. -/
def injection (p : Problem (Recorded (Failing MemoryMaster))) :
    Option Injection :=
  p.master.inner.injection

/-- From `p` to `q` just these calls were made, all with success, and they
left this registry and this memory. -/
structure Ran (p : Problem (Recorded (Failing MemoryMaster)))
    (calls : List MasterCall) (r : Registry) (m : MemoryMaster)
    (q : Problem (Recorded (Failing MemoryMaster))) : Prop where
  registry : q.registry = r
  memory : q.memory = m
  recorded : q.master.calls = p.master.calls ++ Round.succeeded calls
  passed : calls.foldlM Injection.pass p.injection = some q.injection

/-- What a run leaves is all there is to its outcome. -/
theorem Ran.unique (h : Ran p calls r m q)
    {q' : Problem (Recorded (Failing MemoryMaster))} (h' : Ran p calls r m q') :
    q = q' := by
  have hregistry := h.registry.trans h'.registry.symm
  have hmemory := h.memory.trans h'.memory.symm
  have hcalls := h.recorded.trans h'.recorded.symm
  have hinjection := Option.some.inj (h.passed.symm.trans h'.passed)
  obtain ⟨registry, ⟨⟨inner, injection⟩, record⟩⟩ := q
  obtain ⟨registry', ⟨⟨inner', injection'⟩, record'⟩⟩ := q'
  obtain rfl : registry = registry' := hregistry
  obtain rfl : inner = inner' := hmemory
  obtain rfl : injection = injection' := hinjection
  obtain rfl : record = record' := List.reverse_injective hcalls
  rfl

/-- A run exists as soon as its calls are let through. -/
theorem exists_ran {left : Option Injection}
    (h : calls.foldlM Injection.pass p.injection = some left) (r : Registry)
    (m : MemoryMaster) :
    ∃ q, Ran p calls r m q := by
  refine ⟨⟨r, ⟨⟨m, left⟩, (Round.succeeded calls).reverse ++ p.master.record⟩⟩,
    rfl, rfl, ?_, h⟩
  unfold Recorded.calls
  rw [List.reverse_append, List.reverse_reverse]

theorem ran_nil : Ran p [] r m q ↔ q = { p with
    registry := r,
    master := { p.master with
      inner := { p.master.inner with inner := m } } } := by
  have hself : Ran p [] r m { p with
      registry := r,
      master := { p.master with
        inner := { p.master.inner with inner := m } } } :=
    ⟨rfl, rfl, (List.append_nil _).symm, rfl⟩
  constructor
  · exact fun h => h.unique hself
  · intro h
    rw [h]
    exact hself

/-- Nothing has happened. -/
theorem ran_nil_self : Ran p [] p.registry p.memory q ↔ p = q := by
  rw [ran_nil]
  exact eq_comm

/-- A run over two lists of calls is a run over one and then over the other,
whatever registry and memory there are in between. -/
theorem ran_append (r : Registry) (m : MemoryMaster) :
    Ran p (calls ++ calls') r' m' q
      ↔ ∃ p₁, Ran p calls r m p₁ ∧ Ran p₁ calls' r' m' q := by
  constructor
  · intro h
    have hpassed := h.passed
    rw [List.foldlM_append] at hpassed
    obtain ⟨left, hfirst, hrest⟩ := Option.bind_eq_some_iff.1 hpassed
    obtain ⟨p₁, hp₁⟩ := exists_ran hfirst r m
    obtain rfl := Option.some.inj (hfirst.symm.trans hp₁.passed)
    refine ⟨p₁, hp₁, h.registry, h.memory, ?_, hrest⟩
    rw [h.recorded, hp₁.recorded, List.append_assoc]
    unfold Round.succeeded
    rw [List.map_append]
  · intro h
    obtain ⟨p₁, h₁, h₂⟩ := h
    refine ⟨h₂.registry, h₂.memory, ?_, ?_⟩
    · rw [h₂.recorded, h₁.recorded, List.append_assoc]
      unfold Round.succeeded
      rw [List.map_append]
    · rw [List.foldlM_append, h₁.passed]
      exact h₂.passed

-- ============================================================= programs

/-- Under the condition `C`, and only then, the action succeeds if its calls
are let through: it returns `a`, makes these calls and leaves this registry
and this memory. -/
def Runs (act : Action PricingError
      (Problem (Recorded (Failing MemoryMaster))) α)
    (p : Problem (Recorded (Failing MemoryMaster))) (C : Prop) (a : α)
    (calls : List MasterCall) (r : Registry) (m : MemoryMaster) : Prop :=
  ∀ b q, act p = .ok b q ↔ C ∧ b = a ∧ p.Ran calls r m q

section Runs

variable {β : Type} {a : α} {b : β} {C D : Prop}
  {act : Action PricingError (Problem (Recorded (Failing MemoryMaster))) α}
  {f : α → Action PricingError (Problem (Recorded (Failing MemoryMaster))) β}

theorem runs_pure (a : α) : Runs (pure a) p True a [] p.registry p.memory := by
  intro b q
  rw [Action.pure_eq_ok, ran_nil_self]
  simp [eq_comm]

theorem runs_modifyRegistry (f : Registry → Registry) :
    Runs (modifyRegistry f) p True () [] (f p.registry) p.memory := by
  intro u q
  rw [modifyRegistry_eq_ok, ran_nil]
  simp [memory]

/-- What never succeeds runs under no condition. -/
theorem runs_of_ne (hact : ∀ b q, act p ≠ .ok b q) (hC : ¬C) :
    Runs act p C a calls r m :=
  fun b q => iff_of_false (hact b q) fun h => hC h.1

theorem Runs.congr (h : Runs act p C a calls r m) (hCD : C ↔ D) :
    Runs act p D a calls r m := by
  intro b q
  rw [← hCD]
  exact h b q

/-- A sequence makes the calls of its halves. -/
theorem Runs.bind (hact : Runs act p C a calls r m)
    (hf : ∀ p₁, C → p₁.registry = r → p₁.memory = m →
      Runs (f a) p₁ D b calls' r' m') :
    Runs (act >>= f) p (C ∧ D) b (calls ++ calls') r' m' := by
  intro b' q
  rw [Action.bind_eq_ok, ran_append r m]
  constructor
  · intro h
    obtain ⟨a', p₁, hfirst, hrest⟩ := h
    obtain ⟨hC, rfl, hran⟩ := (hact a' p₁).1 hfirst
    obtain ⟨hD, hb, hran'⟩ := (hf p₁ hC hran.registry hran.memory b' q).1 hrest
    exact ⟨⟨hC, hD⟩, hb, p₁, hran, hran'⟩
  · intro h
    obtain ⟨⟨hC, hD⟩, hb, p₁, hran, hran'⟩ := h
    refine ⟨a, p₁, (hact a p₁).2 ⟨hC, rfl, hran⟩, ?_⟩
    exact (hf p₁ hC hran.registry hran.memory b' q).2 ⟨hD, hb, hran'⟩

/-- A sequence whose first half needs nothing. -/
theorem Runs.then (hact : Runs act p True a calls r m)
    (hf : ∀ p₁, p₁.registry = r → p₁.memory = m →
      Runs (f a) p₁ D b calls' r' m') :
    Runs (act >>= f) p D b (calls ++ calls') r' m' :=
  (hact.bind fun p₁ _ => hf p₁).congr (iff_of_eq (true_and D))

/-- What is made of the result does not matter. -/
theorem Runs.map (h : Runs act p C a calls r m) (f : α → β) :
    Runs (act >>= fun a => pure (f a)) p C (f a) calls r m := by
  intro b q
  rw [Action.bind_eq_ok]
  constructor
  · intro hok
    obtain ⟨a', p₁, hact, hpure⟩ := hok
    obtain ⟨rfl, rfl⟩ := Action.pure_eq_ok.1 hpure
    obtain ⟨hC, rfl, hran⟩ := (h a' p₁).1 hact
    exact ⟨hC, rfl, hran⟩
  · intro hran
    obtain ⟨hC, rfl, hran⟩ := hran
    exact ⟨a, q, (h a q).2 ⟨hC, rfl, hran⟩, rfl⟩

/-- A call that succeeds is a run of its own. -/
theorem runs_call (call : MasterCall) {act : Action MasterError MemoryMaster α}
    {m : MemoryMaster} (hact : act p.memory = .ok a m) :
    Runs (onMaster (Recorded.log call (Failing.call call.operation act))) p
      True a [call] p.registry m := by
  intro b q
  rw [onMaster_eq_ok]
  constructor
  · intro h
    obtain ⟨master, h, rfl⟩ := h
    obtain ⟨hcall, hrecord⟩ := Recorded.log_eq_ok_iff.1 h
    obtain ⟨hb, hpass⟩ := Failing.call_eq_ok.1 hcall
    obtain ⟨rfl, hm⟩ := EStateM.Result.ok.inj (hb.symm.trans hact)
    refine ⟨trivial, rfl, rfl, hm, hrecord, ?_⟩
    rw [List.foldlM_cons]
    exact Option.bind_eq_some_iff.2 ⟨_, hpass, rfl⟩
  · intro h
    obtain ⟨-, rfl, h⟩ := h
    have hpass := h.passed
    rw [List.foldlM_cons] at hpass
    obtain ⟨left, hpass, hleft⟩ := Option.bind_eq_some_iff.1 hpass
    obtain rfl := Option.some.inj hleft
    refine ⟨q.master,
      Recorded.log_eq_ok_iff.2 ⟨Failing.call_eq_ok.2 ⟨?_, hpass⟩,
        h.recorded⟩, ?_⟩
    · rw [← h.memory] at hact
      exact hact
    · rw [← h.registry]

/-- A call succeeds only if the master behind answers it. -/
theorem exists_of_call (call : MasterCall)
    {act : Action MasterError MemoryMaster α}
    (h : onMaster (Recorded.log call (Failing.call call.operation act)) p
      = .ok a q) :
    ∃ m, act p.memory = .ok a m := by
  obtain ⟨master, h, -⟩ := onMaster_eq_ok.1 h
  exact ⟨_, (Failing.call_eq_ok.1 (Recorded.log_inner h)).1⟩

end Runs

-- ================================================================ calls

section Calls

open MemoryMaster

variable {c : ConstraintId} {v : VariableId} {x : Row}

/-- Asking for a name reads it from the row. -/
theorem runs_constraintName (hrow : p.memory.row? c = some x) :
    Runs (onMaster (EditableMaster.constraintName c)) p True x.name
      [.constraintName c] p.registry p.memory :=
  runs_call (.constraintName c) (read_of_row? hrow _ _)

/-- Asking for the terms reads them from the row. -/
theorem runs_constraintTerms (hrow : p.memory.row? c = some x) :
    Runs (onMaster (EditableMaster.constraintTerms c)) p True x.terms
      [.constraintTerms c] p.registry p.memory :=
  runs_call (.constraintTerms c) (read_of_row? hrow _ _)

/-- A deletion marks the row as deleted. -/
theorem runs_deleteConstraint (hrow : p.memory.row? c = some x) :
    Runs (onMaster (EditableMaster.deleteConstraint c)) p True ()
      [.deleteConstraint c]
      p.registry (p.memory.modifyRow c fun x => { x with deleted := true }) :=
  runs_call (.deleteConstraint c) (change_of_row? hrow _ _)

/-- A removal takes the terms of one variable out of the row. -/
theorem runs_removeCoefficient (hrow : p.memory.row? c = some x)
    (v : VariableId) :
    Runs (onMaster (EditableMaster.removeCoefficient c v)) p True ()
      [.removeCoefficient c v] p.registry (p.memory.modifyRow c fun x =>
        { x with terms := x.terms.filter (·.1 ≠ v) }) :=
  runs_call (.removeCoefficient c v) (change_of_row? hrow _ _)

/-- An opening marks the row as modifiable. -/
theorem runs_setModifiable (hrow : p.memory.row? c = some x) :
    Runs (onMaster (EditableMaster.setModifiable c)) p True ()
      [.setModifiable c] p.registry (p.memory.modifyRow c fun x =>
        { x with modifiable := true }) :=
  runs_call (.setModifiable c) (change_of_row? hrow _ _)

/-- Asking a variable for its name reads its column. -/
theorem runs_variableName {x : Column}
    (hcolumn : p.memory.columns[v.index]? = some x) :
    Runs (onMaster (EditableMaster.variableName v)) p True x.name
      [.variableName v] p.registry p.memory := by
  refine runs_call (.variableName v)
    (Action.bind_eq_ok.2 ⟨x, p.memory, ?_, rfl⟩)
  exact column_eq_ok.2 ⟨hcolumn, rfl⟩

end Calls

end Problem

end FlowPricing
