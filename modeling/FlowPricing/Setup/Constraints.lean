/-
Indexing the master's constraints before the first round. Constraints
with an unneeded name are deleted. From every other one the pricing
variables are taken out, each recorded against its arc; a constraint that
held one is opened to new columns and registered.
-/
import FlowPricing.Pricing.Problem

namespace FlowPricing.Setup

variable {μ : Type}

/-- Whether one text occurs in another. -/
def occursIn (part : List Char) : List Char → Bool
  | [] => part.isEmpty
  | c :: cs => part.isPrefixOf (c :: cs) || occursIn part cs

/-- Whether a constraint of this name is to be deleted. -/
def isUnneeded (unneeded : List String) (name : String) : Bool :=
  unneeded.any fun part => occursIn part.toList name.toList

/-- Takes one term out of a constraint if it is a pricing variable: the arc
and the coefficient, recorded in the arc's entries. -/
def takeTerm [EditableMaster μ] (c : ConstraintId) (t : VariableId × Float) :
    Action PricingError (Problem μ) (Option (Arc × Float)) := do
  let name ← Problem.onMaster (EditableMaster.variableName t.1)
  match VariableName.arc? name with
  | .error e => throw (.name e)
  | .ok none => return none
  | .ok (some a) =>
      Problem.modifyRegistry (·.addEntry a ⟨c, t.2⟩)
      Problem.onMaster (EditableMaster.removeCoefficient c t.1)
      return some (a, t.2)

/-- Indexes one constraint. Says whether it was registered. -/
def indexConstraint [EditableMaster μ] (unneeded : List String)
    (c : ConstraintId) :
    Action PricingError (Problem μ) Bool := do
  let name ← Problem.onMaster (EditableMaster.constraintName c)
  if isUnneeded unneeded name then
    Problem.onMaster (EditableMaster.deleteConstraint c)
    return false
  else
    let terms ← Problem.onMaster (EditableMaster.constraintTerms c)
    let taken ← terms.mapM (takeTerm c)
    let arcs := taken.filterMap id
    if arcs.isEmpty then return false
    else
      Problem.onMaster (EditableMaster.setModifiable c)
      Problem.modifyRegistry (·.addConstraint ⟨c, arcs⟩)
      return true

/-- Indexes all constraints of the master, in model order, and returns how
many were registered. -/
def indexConstraints [EditableMaster μ] (unneeded : List String) :
    Action PricingError (Problem μ) Nat := do
  let handles := EditableMaster.constraints (← get).master
  let registered ← handles.mapM (indexConstraint unneeded)
  return registered.countP id

end FlowPricing.Setup
