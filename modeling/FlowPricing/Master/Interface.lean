/-
What the library asks of a master problem. It never looks at a concrete
solver: during a round it asks for multipliers and hands over new
columns, and before the first round it reads and prunes the model.

Any operation may fail, and any operation may change the master, the
reading ones included: a master that counts its calls is a master.
-/
import FlowPricing.Action
import FlowPricing.Master.Handle

namespace FlowPricing

/-- The operations of a master problem. -/
inductive MasterOperation where
  | dualValue
  | farkasValue
  | transformedConstraint
  | addPricedVariable
  | addCoefficient
  | commitVariable
  | constraintName
  | constraintTerms
  | variableName
  | deleteConstraint
  | removeCoefficient
  | setModifiable
deriving DecidableEq, Repr

/-- The name under which an operation is reported. -/
def MasterOperation.name : MasterOperation → String
  | dualValue => "dual_value"
  | farkasValue => "farkas_value"
  | transformedConstraint => "transformed_constraint"
  | addPricedVariable => "add_priced_variable"
  | addCoefficient => "add_coefficient"
  | commitVariable => "commit_variable"
  | constraintName => "constraint_name"
  | constraintTerms => "constraint_terms"
  | variableName => "variable_name"
  | deleteConstraint => "delete_constraint"
  | removeCoefficient => "remove_coefficient"
  | setModifiable => "set_modifiable"

/-- All operations. -/
def MasterOperation.all : List MasterOperation :=
  [dualValue, farkasValue, transformedConstraint, addPricedVariable,
    addCoefficient, commitVariable, constraintName, constraintTerms,
    variableName, deleteConstraint, removeCoefficient, setModifiable]

/-- A failed operation, with the master's own words. -/
structure MasterError where
  operation : MasterOperation
  reason : String
deriving DecidableEq, Repr

/-- The failure in words. -/
def MasterError.message (e : MasterError) : String :=
  s!"Master problem failed during {e.operation.name}: {e.reason}"

/-- What a pricing round needs of a master problem. -/
class MasterProblem (μ : Type) where
  /-- The dual value of a constraint in the feasible relaxation. -/
  dualValue : ConstraintId → Action MasterError μ Float
  /-- The Farkas multiplier of a constraint in the infeasible relaxation. -/
  farkasValue : ConstraintId → Action MasterError μ Float
  /-- The handle of a constraint after the master's own transformation. -/
  transformedConstraint : ConstraintId → Action MasterError μ ConstraintId
  /-- Creates a variable with a name, a lower and an upper bound and an
  objective. It counts only once it is committed. -/
  addPricedVariable :
    String → Float → Float → Float → Action MasterError μ VariableId
  /-- Gives a variable a coefficient in a constraint. -/
  addCoefficient : ConstraintId → VariableId → Float → Action MasterError μ Unit
  /-- Makes a created variable count. -/
  commitVariable : VariableId → Action MasterError μ Unit

/-- What is needed to read and prune a master problem before solving. -/
class EditableMaster (μ : Type) extends MasterProblem μ where
  /-- The constraints there are, in model order. -/
  constraints : μ → List ConstraintId
  /-- The name of a constraint. -/
  constraintName : ConstraintId → Action MasterError μ String
  /-- The variables of a constraint with their coefficients. -/
  constraintTerms : ConstraintId →
    Action MasterError μ (List (VariableId × Float))
  /-- The name of a variable. -/
  variableName : VariableId → Action MasterError μ String
  /-- Removes a constraint. -/
  deleteConstraint : ConstraintId → Action MasterError μ Unit
  /-- Removes a variable from a constraint. -/
  removeCoefficient : ConstraintId → VariableId → Action MasterError μ Unit
  /-- Opens a constraint to columns created later. -/
  setModifiable : ConstraintId → Action MasterError μ Unit

end FlowPricing
