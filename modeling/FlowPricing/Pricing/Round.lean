/-
The phases of a pricing round. All weights are set to zero, the prices of
the constraints are pushed onto the arcs, every network is asked for its
shortest path, and the paths that are chosen become columns.

Prices are negated multipliers, so that the length of a path is the
reduced cost of its column. The changes of all constraints are computed
before the first one is made; each network then gets its changes in the
order of the constraints, so that equal multipliers always give the same
weights to the last bit.
-/
import FlowPricing.Pricing.Problem
import FlowPricing.Pricing.Selection
import FlowPricing.Text.Positional

namespace FlowPricing

/-- Which multipliers of the master drive a round. -/
inductive PricingKind where
  /-- The relaxation is feasible: dual values. -/
  | reducedCost
  /-- The relaxation is infeasible: Farkas multipliers. -/
  | farkas
deriving DecidableEq, Repr

/-- A change of one arc's weight in one network. -/
structure WeightChange where
  group : Int32
  arc : Arc
  delta : Float
deriving DecidableEq, Repr

/-- The name of the column with a number. -/
def columnName (index : Nat) : String :=
  String.ofList ('p' :: '_' :: Numeral.ofNat index)

namespace Round

variable {μ : Type}

-- ============================================================ weights

/-- Makes every arc of every network weigh nothing. -/
def zeroWeights (r : Registry) : Registry :=
  { r with networks := r.networks.map Network.resetWeights }

/-- The operation that reads the multipliers of a kind. -/
def operation : PricingKind → MasterOperation
  | .reducedCost => .dualValue
  | .farkas => .farkasValue

/-- Reads a multiplier of a kind. -/
def multiplier [MasterProblem μ] :
    PricingKind → ConstraintId → Action MasterError μ Float
  | .reducedCost => MasterProblem.dualValue
  | .farkas => MasterProblem.farkasValue

/-- The price of a constraint: its negated multiplier, which has to be
finite. -/
def price [MasterProblem μ] (kind : PricingKind) (c : ConstraintId) :
    Action PricingError (Problem μ) Float := do
  let value ← Problem.onMaster (multiplier kind c)
  if value.isFinite then return -value
  else
    let reason :=
      s!"non-finite value {Positional.text value} for constraint {c.text}"
    throw (.master ⟨operation kind, reason⟩)

/-- The change that a price makes to the weight of one arc, in the network
the arc is routed to. -/
def weightChange (r : Registry) (price : Float) (e : Arc × Float) :
    Except RegistryError WeightChange :=
  match r.networkOfArc e.1 with
  | .ok n => .ok { group := n.group, arc := e.1, delta := e.2 * price }
  | .error err => .error err

/-- The changes one constraint makes. A price within the tolerance of zero
makes none. -/
def constraintChanges [MasterProblem μ] (kind : PricingKind) (tolerance : Float)
    (c : Constraint) : Action PricingError (Problem μ) (List WeightChange) := do
  let price ← price kind c.handle
  if price.abs ≤ tolerance then return []
  else
    let r := (← get).registry
    Action.ofExcept ((c.arcs.mapM (weightChange r price)).mapError .registry)

/-- The changes meant for one network. -/
def changesOf (changes : List WeightChange) (group : Int32) :
    List (Arc × Float) :=
  (changes.filter (·.group = group)).map fun c => (c.arc, c.delta)

/-- Makes the changes, network by network. A network with an arc it does
not know stops it; the networks before keep their changes. -/
def applyChanges (changes : List WeightChange) :
    Action PricingError Registry Unit := do
  let _ ← Registry.eachNetwork fun n =>
    match n.addWeights (changesOf changes n.group) with
    | .ok n' => .ok ((), n')
    | .error e => .error (.network e)

/-- Pushes the prices of all constraints onto the arcs. -/
def reweight [MasterProblem μ] (kind : PricingKind) (tolerance : Float) :
    Action PricingError (Problem μ) Unit := do
  let constraints := (← get).registry.constraints
  let changes ← constraints.mapM (constraintChanges kind tolerance)
  Problem.onRegistry (applyChanges changes.flatten)

-- ============================================================ paths

/-- The shortest path of every network, in ascending order of the groups. -/
def shortestPaths : Action PricingError Registry (List Path) :=
  Registry.eachNetwork fun n =>
    match n.shortestPath with
    | .ok r => .ok r
    | .error e => .error (.network e)

-- ============================================================ columns

/-- Gives a new variable its coefficients on the arcs of a path, in the
order of the path and, for each arc, of its entries. -/
def addCoefficients [MasterProblem μ] (v : VariableId) (p : Path) :
    Action PricingError (Problem μ) Unit :=
  p.arcs.forM fun a => do
    let entries := ((← get).registry.entriesOf a).getD []
    entries.forM fun e =>
      Problem.onMaster (MasterProblem.addCoefficient e.handle v e.coefficient)

/-- Adds a column for a path and records it once it is committed. A path
that is not worth a column is passed over. Says whether a column was
added. -/
def addColumn [MasterProblem μ] (tolerance : Float) (name : String) (p : Path) :
    Action PricingError (Problem μ) Bool := do
  if p.isImproving tolerance then
    let v ← Problem.onMaster
      (MasterProblem.addPricedVariable name 0.0 Weight.infinity 0.0)
    addCoefficients v p
    Problem.onMaster (MasterProblem.commitVariable v)
    Problem.modifyRegistry (·.recordColumn name p)
    return true
  else return false

/-- Adds the columns for the chosen paths, numbered from `first`, and
returns how many were added. One is added after the other, as by a single
worker. -/
def addColumns [MasterProblem μ] (tolerance : Float) (first : Nat)
    (chosen : List Path) : Action PricingError (Problem μ) Nat := do
  let added ← (chosen.zipIdx first).mapM fun p =>
    addColumn tolerance (columnName p.2) p.1
  return added.countP id

end Round

end FlowPricing
