/-
A master problem that lives in memory and solves nothing: its multipliers
are set from outside. Constraints and variables are numbered in the order
of entry, and a deleted constraint keeps its number but is not there any
more.
-/
import FlowPricing.Master.Interface
import FlowPricing.Table
import FlowPricing.Weight

namespace FlowPricing

namespace MemoryMaster

/-- A stored constraint. -/
structure Row where
  name : String
  terms : List (VariableId × Float) := []
  modifiable : Bool := false
  deleted : Bool := false
deriving DecidableEq, Repr, Inhabited

/-- A stored variable. -/
structure Column where
  name : String
  lower : Float
  upper : Float
  objective : Float
  committed : Bool
deriving DecidableEq, Repr, Inhabited

end MemoryMaster

/-- A master problem in memory. -/
structure MemoryMaster where
  rows : List MemoryMaster.Row := []
  columns : List MemoryMaster.Column := []
  duals : Table ConstraintId Float := .empty
  farkas : Table ConstraintId Float := .empty
  transformed : Table ConstraintId ConstraintId := .empty
deriving DecidableEq, Repr

namespace MemoryMaster

-- ============================================================ building

/-- Adds a constraint without terms. -/
def addConstraint (m : MemoryMaster) (name : String) :
    ConstraintId × MemoryMaster :=
  (.ofIndex m.rows.length, { m with rows := m.rows ++ [{ name }] })

/-- Adds a non-negative variable that counts from the start. -/
def addVariable (m : MemoryMaster) (name : String) :
    VariableId × MemoryMaster :=
  let column :=
    { name, lower := 0.0, upper := Weight.infinity, objective := 0.0,
      committed := true }
  (.ofIndex m.columns.length, { m with columns := m.columns ++ [column] })

/-- Changes the stored constraint under a handle. -/
def modifyRow (m : MemoryMaster) (c : ConstraintId) (f : Row → Row) :
    MemoryMaster :=
  { m with rows := m.rows.modify c.index f }

/-- Adds a term to a constraint. -/
def addTerm (m : MemoryMaster) (c : ConstraintId) (v : VariableId) (x : Float) :
    MemoryMaster :=
  m.modifyRow c fun r => { r with terms := r.terms ++ [(v, x)] }

/-- Sets the dual value of a constraint. -/
def setDual (m : MemoryMaster) (c : ConstraintId) (x : Float) : MemoryMaster :=
  { m with duals := m.duals.insert c x }

/-- Sets the Farkas multiplier of a constraint. -/
def setFarkas (m : MemoryMaster) (c : ConstraintId) (x : Float) :
    MemoryMaster :=
  { m with farkas := m.farkas.insert c x }

/-- Gives a constraint a copy under a new handle. -/
def transformRow (m : MemoryMaster) (c : ConstraintId × Row) : MemoryMaster :=
  let copy := ConstraintId.ofIndex m.rows.length
  { m with
    rows := m.rows ++ [c.2],
    transformed := m.transformed.insert c.1 copy }

/-- The constraints that are there, under their handles. -/
def liveRows (m : MemoryMaster) : List (ConstraintId × Row) :=
  (m.rows.zipIdx.map fun r => (ConstraintId.ofIndex r.2, r.1)).filter
    (!·.2.deleted)

/-- Gives every constraint that is there a copy under a new handle, as a
solver does when it transforms its model. -/
def transform (m : MemoryMaster) : MemoryMaster :=
  m.liveRows.foldl transformRow m

-- ============================================================ operations

/-- The constraint under a handle, if it is there. -/
def row? (m : MemoryMaster) (c : ConstraintId) : Option Row :=
  match m.rows[c.index]? with
  | some r => if r.deleted then none else some r
  | none => none

/-- The constraint an operation is about. -/
def row (op : MasterOperation) (c : ConstraintId) :
    Action MasterError MemoryMaster Row := do
  match (← get).row? c with
  | some r => return r
  | none => throw ⟨op, s!"no constraint {c.text}"⟩

/-- The variable an operation is about. -/
def column (op : MasterOperation) (v : VariableId) :
    Action MasterError MemoryMaster Column := do
  match (← get).columns[v.index]? with
  | some x => return x
  | none => throw ⟨op, s!"no variable {v.text}"⟩

instance : MasterProblem MemoryMaster where
  dualValue c := do
    let _ ← row .dualValue c
    return ((← get).duals.get? c).getD 0.0
  farkasValue c := do
    let _ ← row .farkasValue c
    return ((← get).farkas.get? c).getD 0.0
  transformedConstraint c := do
    let _ ← row .transformedConstraint c
    return ((← get).transformed.get? c).getD c
  addPricedVariable name lower upper objective := do
    let m ← get
    let column := { name, lower, upper, objective, committed := false }
    set { m with columns := m.columns ++ [column] }
    return .ofIndex m.columns.length
  addCoefficient c v x := do
    let r ← row .addCoefficient c
    if r.modifiable then modify (·.addTerm c v x)
    else throw ⟨.addCoefficient, s!"constraint {c.text} is not modifiable"⟩
  commitVariable v := do
    let _ ← column .commitVariable v
    modify fun m =>
      { m with columns := m.columns.modify v.index fun x =>
        { x with committed := true } }

instance : EditableMaster MemoryMaster where
  constraints m := m.liveRows.map (·.1)
  constraintName c := do
    let r ← row .constraintName c
    return r.name
  constraintTerms c := do
    let r ← row .constraintTerms c
    return r.terms
  variableName v := do
    let x ← column .variableName v
    return x.name
  deleteConstraint c := do
    let _ ← row .deleteConstraint c
    modify (·.modifyRow c fun r => { r with deleted := true })
  removeCoefficient c v := do
    let _ ← row .removeCoefficient c
    modify (·.modifyRow c fun r => { r with terms := r.terms.filter (·.1 ≠ v) })
  setModifiable c := do
    let _ ← row .setModifiable c
    modify (·.modifyRow c fun r => { r with modifiable := true })

end MemoryMaster

end FlowPricing
