/-
What a solve works on: the registry and the master problem, side by side.
-/
import FlowPricing.Pricing.Error

namespace FlowPricing

/-- A registry and the master problem it belongs to. -/
structure Problem (μ : Type) where
  registry : Registry
  master : μ
deriving DecidableEq, Repr

namespace Problem

variable {μ α : Type}

/-- An action on the master. -/
def onMaster (act : Action MasterError μ α) :
    Action PricingError (Problem μ) α :=
  (act.mapError .master).focus Problem.master fun p master => { p with master }

/-- An action on the registry. -/
def onRegistry (act : Action PricingError Registry α) :
    Action PricingError (Problem μ) α :=
  act.focus Problem.registry fun p registry => { p with registry }

/-- A change of the registry that cannot fail. -/
def modifyRegistry (f : Registry → Registry) :
    Action PricingError (Problem μ) Unit :=
  modify fun p => { p with registry := f p.registry }

/-- An action on both at once. -/
def onBoth (act : Action MasterError (Registry × μ) α) :
    Action PricingError (Problem μ) α :=
  (act.mapError .master).focus
    (fun p => (p.registry, p.master)) fun _ s =>
      { registry := s.1, master := s.2 }

end Problem

end FlowPricing
