/-
Handles by which a master problem knows its constraints and variables.
The master assigns them; nobody else looks inside.
-/
import FlowPricing.Text.Numeral

namespace FlowPricing

/-- A constraint of the master problem. -/
structure ConstraintId where
  val : UInt32
deriving DecidableEq, Repr, Inhabited

/-- A variable of the master problem. -/
structure VariableId where
  val : UInt32
deriving DecidableEq, Repr, Inhabited

/-- The position a handle stands for. -/
def ConstraintId.index (c : ConstraintId) : Nat := c.val.toNat

/-- The handle of a position. -/
def ConstraintId.ofIndex (i : Nat) : ConstraintId := ⟨UInt32.ofNat i⟩

/-- The handle as messages show it. -/
def ConstraintId.text (c : ConstraintId) : String :=
  s!"ConsId({String.ofList (Numeral.ofNat c.index)})"

/-- The position a handle stands for. -/
def VariableId.index (v : VariableId) : Nat := v.val.toNat

/-- The handle of a position. -/
def VariableId.ofIndex (i : Nat) : VariableId := ⟨UInt32.ofNat i⟩

/-- The handle as messages show it. -/
def VariableId.text (v : VariableId) : String :=
  s!"VarId({String.ofList (Numeral.ofNat v.index)})"

end FlowPricing
