/-
Filling a registry with networks, one for each description, and routing
their arcs.
-/
import FlowPricing.Pricing.Error

namespace FlowPricing.Setup

/-- Builds the network of one description, registers it, and routes its
arcs to it. -/
def addDescription (d : Description) : Action PricingError Registry Unit := do
  match Network.ofDescription d with
  | .error e => throw (.network e)
  | .ok n =>
      (Registry.addNetwork n).mapError .registry
      (Registry.addArcs n.group n.topology.arcs).mapError .registry

/-- Registers the networks of all descriptions, in their order, and returns
how many networks there are then. The first flaw ends it. -/
def addDescriptions (ds : List Description) :
    Action PricingError Registry Nat := do
  if ds.isEmpty then throw .noNetworks
  ds.forM addDescription
  return (← get).networks.length

end FlowPricing.Setup
