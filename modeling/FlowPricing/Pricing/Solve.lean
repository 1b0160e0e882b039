/-
A pricer drives the rounds of one solve. It is started once, then prices
any number of rounds, and is terminated once; told to do something out of
turn it refuses and changes nothing. A start or a round that fails leaves
its state and its counts as they were, but names once handed out are
never used again.
-/
import FlowPricing.Config
import FlowPricing.Pricing.Round

namespace FlowPricing

/-- The state of a solve's pricing. -/
structure Pricer where
  selection : Selection
  tolerance : Float
  state : PricerState := .uninitialized
  /-- The rounds that succeeded. -/
  rounds : Nat := 0
  /-- The columns that successful rounds added. -/
  generated : Nat := 0
  /-- The number of the next column. -/
  nextColumn : Nat := 0
deriving DecidableEq, Repr

/-- A pricer as configured. -/
def Pricer.ofConfig (c : Config) : Pricer :=
  { selection := c.selection, tolerance := c.tolerance }

/-- How a round ended. A round that returns has succeeded: it added
columns, or it showed that there are none to add. -/
inductive RoundStatus where
  | success
deriving DecidableEq, Repr

/-- The status in words. -/
def RoundStatus.text : RoundStatus → String
  | success => "Success"

/-- What a round reports. -/
structure RoundOutcome where
  columns : Nat
  status : RoundStatus
deriving DecidableEq, Repr

/-- A problem and the pricer that works on it. -/
structure Solve (μ : Type) where
  problem : Problem μ
  pricer : Pricer
deriving DecidableEq, Repr

namespace Solve

variable {μ α : Type}

/-- An action on the problem. -/
def onProblem (act : Action PricingError (Problem μ) α) :
    Action PricingError (Solve μ) α :=
  act.focus Solve.problem fun s problem => { s with problem }

/-- A change of the pricer. -/
def modifyPricer (f : Pricer → Pricer) : Action PricingError (Solve μ) Unit :=
  modify fun s => { s with pricer := f s.pricer }

/-- Refuses an operation in a state that does not allow it. -/
def require (op : PricerOperation) (allowed : PricerState → Bool) :
    Action PricingError (Solve μ) Unit := do
  let state := (← get).pricer.state
  if allowed state then return () else throw (.invalidState op state)

/-- Starts the pricer: every stored constraint handle is replaced by the
one the master uses after its transformation. -/
def start [MasterProblem μ] : Action PricingError (Solve μ) Unit := do
  require .start (· == .uninitialized)
  onProblem (Problem.onBoth
    (Registry.remap MasterProblem.transformedConstraint))
  modifyPricer fun p => { p with state := .ready }

/-- Runs one round. -/
def price [MasterProblem μ] (kind : PricingKind) :
    Action PricingError (Solve μ) RoundOutcome := do
  require .price (· == .ready)
  let pricer := (← get).pricer
  onProblem (Problem.modifyRegistry Round.zeroWeights)
  onProblem (Round.reweight kind pricer.tolerance)
  let candidates ← onProblem (Problem.onRegistry Round.shortestPaths)
  let chosen := pricer.selection.select pricer.tolerance candidates
  modifyPricer fun p => { p with nextColumn := p.nextColumn + chosen.length }
  let columns ← onProblem
    (Round.addColumns pricer.tolerance pricer.nextColumn chosen)
  modifyPricer fun p =>
    { p with rounds := p.rounds + 1, generated := p.generated + columns }
  return { columns, status := .success }

/-- Ends the solve: no round can follow. -/
def terminate : Action PricingError (Solve μ) Unit := do
  require .terminate (· != .terminated)
  modifyPricer fun p => { p with state := .terminated }

end Solve

end FlowPricing
