/-
Master problems around other master problems. `Failing` makes one chosen
operation fail for good after a number of further calls; `Recorded` keeps
a record of every call and whether it succeeded.
-/
import FlowPricing.Master.Interface

namespace FlowPricing

variable {μ α : Type}

-- ============================================================ failures

/-- An operation that succeeds `remaining` more times and fails then. -/
structure Injection where
  operation : MasterOperation
  remaining : Nat
deriving DecidableEq, Repr

/-- A master problem with an operation that is made to fail. -/
structure Failing (μ : Type) where
  inner : μ
  injection : Option Injection := none
deriving DecidableEq, Repr

namespace Failing

/-- Counts a call, and fails it if its time has come. -/
def check (op : MasterOperation) : Action MasterError (Failing μ) Unit := do
  let m ← get
  match m.injection with
  | some i =>
      if i.operation = op then
        match i.remaining with
        | 0 => throw ⟨op, "injected failure"⟩
        | n + 1 => set { m with injection := some { i with remaining := n } }
  | none => return ()

/-- A call that reaches the master only if it is not made to fail. -/
def call (op : MasterOperation) (act : Action MasterError μ α) :
    Action MasterError (Failing μ) α := do
  check op
  act.focus Failing.inner fun m inner => { m with inner }

instance [MasterProblem μ] : MasterProblem (Failing μ) where
  dualValue c := call .dualValue (MasterProblem.dualValue c)
  farkasValue c := call .farkasValue (MasterProblem.farkasValue c)
  transformedConstraint c :=
    call .transformedConstraint (MasterProblem.transformedConstraint c)
  addPricedVariable name lower upper objective :=
    call .addPricedVariable
      (MasterProblem.addPricedVariable name lower upper objective)
  addCoefficient c v x :=
    call .addCoefficient (MasterProblem.addCoefficient c v x)
  commitVariable v := call .commitVariable (MasterProblem.commitVariable v)

instance [EditableMaster μ] : EditableMaster (Failing μ) where
  constraints m := EditableMaster.constraints m.inner
  constraintName c := call .constraintName (EditableMaster.constraintName c)
  constraintTerms c := call .constraintTerms (EditableMaster.constraintTerms c)
  variableName v := call .variableName (EditableMaster.variableName v)
  deleteConstraint c :=
    call .deleteConstraint (EditableMaster.deleteConstraint c)
  removeCoefficient c v :=
    call .removeCoefficient (EditableMaster.removeCoefficient c v)
  setModifiable c := call .setModifiable (EditableMaster.setModifiable c)

end Failing

-- ============================================================ records

/-- A call of a master problem with its arguments. -/
inductive MasterCall where
  | dualValue (c : ConstraintId)
  | farkasValue (c : ConstraintId)
  | transformedConstraint (c : ConstraintId)
  | addPricedVariable (name : String) (lower upper objective : Float)
  | addCoefficient (c : ConstraintId) (v : VariableId) (coefficient : Float)
  | commitVariable (v : VariableId)
  | constraintName (c : ConstraintId)
  | constraintTerms (c : ConstraintId)
  | variableName (v : VariableId)
  | deleteConstraint (c : ConstraintId)
  | removeCoefficient (c : ConstraintId) (v : VariableId)
  | setModifiable (c : ConstraintId)
deriving DecidableEq, Repr

/-- Whether the call is meant to change the master. -/
def MasterCall.isMutating : MasterCall → Bool
  | addPricedVariable .. | addCoefficient .. | commitVariable .. => true
  | deleteConstraint .. | removeCoefficient .. | setModifiable .. => true
  | _ => false

/-- A call that was made. -/
structure RecordedCall where
  call : MasterCall
  succeeded : Bool
deriving DecidableEq, Repr

/-- A master problem that keeps a record of its calls. -/
structure Recorded (μ : Type) where
  inner : μ
  /-- The calls made so far, the latest first. -/
  record : List RecordedCall := []
deriving DecidableEq, Repr

namespace Recorded

/-- The calls in the order in which they were made. -/
def calls (m : Recorded μ) : List RecordedCall := m.record.reverse

/-- A call that is recorded, whether it succeeds or fails. -/
def log (c : MasterCall) (act : Action MasterError μ α) :
    Action MasterError (Recorded μ) α := fun m =>
  match act m.inner with
  | .ok a inner => .ok a { inner, record := ⟨c, true⟩ :: m.record }
  | .error e inner => .error e { inner, record := ⟨c, false⟩ :: m.record }

instance [MasterProblem μ] : MasterProblem (Recorded μ) where
  dualValue c := log (.dualValue c) (MasterProblem.dualValue c)
  farkasValue c := log (.farkasValue c) (MasterProblem.farkasValue c)
  transformedConstraint c :=
    log (.transformedConstraint c) (MasterProblem.transformedConstraint c)
  addPricedVariable name lower upper objective :=
    log (.addPricedVariable name lower upper objective)
      (MasterProblem.addPricedVariable name lower upper objective)
  addCoefficient c v x :=
    log (.addCoefficient c v x) (MasterProblem.addCoefficient c v x)
  commitVariable v := log (.commitVariable v) (MasterProblem.commitVariable v)

instance [EditableMaster μ] : EditableMaster (Recorded μ) where
  constraints m := EditableMaster.constraints m.inner
  constraintName c := log (.constraintName c) (EditableMaster.constraintName c)
  constraintTerms c :=
    log (.constraintTerms c) (EditableMaster.constraintTerms c)
  variableName v := log (.variableName v) (EditableMaster.variableName v)
  deleteConstraint c :=
    log (.deleteConstraint c) (EditableMaster.deleteConstraint c)
  removeCoefficient c v :=
    log (.removeCoefficient c v) (EditableMaster.removeCoefficient c v)
  setModifiable c := log (.setModifiable c) (EditableMaster.setModifiable c)

end Recorded

end FlowPricing
