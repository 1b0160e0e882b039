/-
Everything the phases of a solve share: the networks by group, the
routing of arcs to networks, the pricing constraints with the arc index
beside them, and the columns generated so far.

Networks are kept in ascending order of their groups. An arc is routed by
the network field of the node it leaves: the field names a group, and the
group a network. A group is registered once and a field routed once; a
second attempt to do either differently is refused.
-/
import FlowPricing.Action
import FlowPricing.Network.Basic
import FlowPricing.Registry.Constraint

namespace FlowPricing

/-- What the registry refuses. -/
inductive RegistryError where
  | unknownGroup (group : Int32)
  | unknownNetworkForArc (arc : Arc)
  | duplicateGroup (group : Int32)
  | conflictingNetworkField (field existing group : Int32)
deriving DecidableEq, Repr

/-- The refusal in words. -/
def RegistryError.message : RegistryError → String
  | unknownGroup group =>
      s!"No network registered for group {NetworkError.groupText group}"
  | unknownNetworkForArc arc => s!"No network registered for arc {arc.text}"
  | duplicateGroup group =>
      s!"Network group {NetworkError.groupText group} registered twice"
  | conflictingNetworkField field existing group =>
      let field := NetworkError.groupText field
      let existing := NetworkError.groupText existing
      let group := NetworkError.groupText group
      s!"Network field {field} already belongs to group {existing}, "
        ++ s!"cannot map it to group {group}"

/-- The shared data of a solve. -/
structure Registry where
  /-- The pricing constraints in the order of registration. -/
  constraints : List Constraint := []
  /-- The networks in ascending order of their groups. -/
  networks : List Network := []
  /-- For every arc the constraints its variable appeared in. -/
  index : Table Arc (List IndexEntry) := .empty
  /-- The group that owns each network field. -/
  fields : Table Int32 Int32 := .empty
  /-- The path behind each generated column. -/
  columns : Table String Path := .empty
deriving DecidableEq, Repr

instance : Inhabited Registry := ⟨{}⟩

namespace Registry

variable {ε σ α β : Type}

-- ============================================================ networks

/-- The network of a group. -/
def network? (r : Registry) (group : Int32) : Option Network :=
  r.networks.find? (·.group == group)

/-- The network of a group, or the refusal. -/
def network (r : Registry) (group : Int32) : Except RegistryError Network :=
  match r.network? group with
  | some n => .ok n
  | none => .error (.unknownGroup group)

/-- The network an arc is routed to. -/
def networkOfArc (r : Registry) (a : Arc) : Except RegistryError Network :=
  match r.fields.get? a.source.network with
  | some group => r.network group
  | none => .error (.unknownNetworkForArc a)

/-- Enters a network before the first one of a higher group. -/
def enter (n : Network) : List Network → List Network
  | [] => [n]
  | m :: ms => if n.group < m.group then n :: m :: ms else m :: enter n ms

/-- Registers a network under its group. -/
def addNetwork (n : Network) : Action RegistryError Registry Unit := do
  let r ← get
  if (r.network? n.group).isSome then throw (.duplicateGroup n.group)
  else set { r with networks := enter n r.networks }

/-- Routes one arc to a group. -/
def addArc (group : Int32) (a : Arc) : Action RegistryError Registry Unit := do
  let r ← get
  let field := a.source.network
  match r.fields.get? field with
  | some existing =>
      if existing = group then return ()
      else throw (.conflictingNetworkField field existing group)
  | none => set { r with fields := r.fields.insert field group }

/-- Routes arcs to a group, one after another. The routes before a refused
one stay. -/
def addArcs (group : Int32) (arcs : List Arc) :
    Action RegistryError Registry Unit :=
  arcs.forM (addArc group)

/-- Acts on every network, in ascending order of their groups. -/
def eachNetwork (f : Network → Except ε (β × Network)) :
    Action ε Registry (List β) :=
  ((Action.step f : Action ε (Network × Unit) β).each).focus
    (fun r => (r.networks, ())) fun r s => { r with networks := s.1 }

/-- Acts on the network of one group. -/
def changeNetwork (group : Int32) (f : Network → Except ε (β × Network))
    (unknown : RegistryError → ε) : Action ε Registry β := do
  let r ← get
  match r.network group with
  | .error e => throw (unknown e)
  | .ok n =>
      match f n with
      | .error e => throw e
      | .ok (b, n') =>
          let networks :=
            r.networks.map fun m => if m.group = group then n' else m
          set { r with networks }
          return b

-- ============================================================ constraints

/-- Registers a constraint. -/
def addConstraint (r : Registry) (c : Constraint) : Registry :=
  { r with constraints := r.constraints ++ [c] }

/-- Enters a constraint in the entries of an arc. -/
def addEntry (r : Registry) (a : Arc) (e : IndexEntry) : Registry :=
  { r with index := r.index.insert a ((r.index.get? a).getD [] ++ [e]) }

/-- The constraints an arc's variable appeared in; `none` if it appeared in
none. -/
def entriesOf (r : Registry) (a : Arc) : Option (List IndexEntry) :=
  r.index.get? a

/-- Replaces a stored handle. -/
def remapHandle (f : ConstraintId → Action ε σ ConstraintId) :
    Action ε (ConstraintId × σ) Unit := do
  let h ← (f (← get).1).focus Prod.snd fun s t => (s.1, t)
  modify fun s => (h, s.2)

/-- Replaces the handles in the list of constraints. -/
def remapConstraints (f : ConstraintId → Action ε σ ConstraintId) :
    Action ε (Registry × σ) Unit := do
  let one : Action ε (Constraint × σ) Unit := (remapHandle f).focus
    (fun s => (s.1.handle, s.2)) fun s t => ({ s.1 with handle := t.1 }, t.2)
  let _ ← one.each.focus
    (fun s : Registry × σ => (s.1.constraints, s.2))
    fun s t => ({ s.1 with constraints := t.1 }, t.2)

/-- Replaces the handles in the arc index. -/
def remapIndex (f : ConstraintId → Action ε σ ConstraintId) :
    Action ε (Registry × σ) Unit := do
  let one : Action ε (IndexEntry × σ) Unit := (remapHandle f).focus
    (fun s => (s.1.handle, s.2)) fun s t => ({ s.1 with handle := t.1 }, t.2)
  let ofArc : Action ε ((Arc × List IndexEntry) × σ) (List Unit) :=
    one.each.focus (fun s => (s.1.2, s.2)) fun s t => ((s.1.1, t.1), t.2)
  let _ ← ofArc.each.focus
    (fun s : Registry × σ => (s.1.index.entries, s.2))
    fun s t => ({ s.1 with index := ⟨t.1⟩ }, t.2)

/-- Replaces every stored handle, first in the list of constraints and then
in the arc index. The first failure ends it; what was replaced before
stays replaced. -/
def remap (f : ConstraintId → Action ε σ ConstraintId) :
    Action ε (Registry × σ) Unit := do
  remapConstraints f
  remapIndex f

-- ============================================================ columns

/-- Records the path behind a generated column. -/
def recordColumn (r : Registry) (name : String) (p : Path) : Registry :=
  { r with columns := r.columns.insert name p }

/-- The path behind a generated column; `none` for any other name. -/
def path? (r : Registry) (name : String) : Option Path := r.columns.get? name

end Registry

end FlowPricing
