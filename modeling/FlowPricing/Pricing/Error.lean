/-
All that can end the preparation or a round of a solve.
-/
import FlowPricing.VariableName
import FlowPricing.Master.Interface
import FlowPricing.Registry.Basic

namespace FlowPricing

/-- Where a pricer stands in its life. -/
inductive PricerState where
  | uninitialized
  | ready
  | terminated
deriving DecidableEq, Repr, Inhabited

/-- The state in words. -/
def PricerState.text : PricerState → String
  | uninitialized => "uninitialized"
  | ready => "ready"
  | terminated => "terminated"

/-- What a pricer can be told to do. -/
inductive PricerOperation where
  | start
  | price
  | terminate
deriving DecidableEq, Repr

/-- The operation in words. -/
def PricerOperation.text : PricerOperation → String
  | start => "initialize"
  | price => "price"
  | terminate => "terminate"

/-- Why a solve cannot go on. -/
inductive PricingError where
  | name (e : NameError)
  | network (e : NetworkError)
  | registry (e : RegistryError)
  | master (e : MasterError)
  | invalidState (operation : PricerOperation) (state : PricerState)
  | noNetworks
deriving DecidableEq, Repr

/-- The error in words. -/
def PricingError.message : PricingError → String
  | name e => e.message
  | network e => e.message
  | registry e => e.message
  | master e => e.message
  | invalidState operation state =>
      s!"Cannot {operation.text} while the pricer is {state.text}"
  | noNetworks => "No network descriptions were supplied"

end FlowPricing
