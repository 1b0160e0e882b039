import FlowPricing.Table
import FlowPricing.Action
import FlowPricing.Weight
import FlowPricing.Files
import FlowPricing.Version
import FlowPricing.Text.Numeral
import FlowPricing.Text.Pieces
import FlowPricing.Text.Shortest
import FlowPricing.Text.Positional
import FlowPricing.Json.Basic
import FlowPricing.Json.Number
import FlowPricing.Json.Text
import FlowPricing.Json.Skip
import FlowPricing.Json.Value
import FlowPricing.Json.Record
import FlowPricing.Json.Writer
import FlowPricing.Network.Node
import FlowPricing.Network.Arc
import FlowPricing.Network.Path
import FlowPricing.Network.Error
import FlowPricing.Network.Description
import FlowPricing.Network.DescriptionJson
import FlowPricing.Network.Order
import FlowPricing.Network.Topology
import FlowPricing.Network.Labels
import FlowPricing.Network.Basic
import FlowPricing.Network.Graph.Basic
import FlowPricing.Network.Graph.Sorting
import FlowPricing.Network.Indexed
import FlowPricing.VariableName
import FlowPricing.Config
import FlowPricing.Master.Handle
import FlowPricing.Master.Interface
import FlowPricing.Master.Memory
import FlowPricing.Master.Wrapped
import FlowPricing.Registry.Constraint
import FlowPricing.Registry.Basic
import FlowPricing.Pricing.Selection
import FlowPricing.Pricing.Error
import FlowPricing.Pricing.Problem
import FlowPricing.Pricing.Round
import FlowPricing.Pricing.Workers
import FlowPricing.Pricing.Solve
import FlowPricing.Setup.Networks
import FlowPricing.Setup.Constraints
import FlowPricing.Setup.Descriptions
import FlowPricing.Report.Sink
import FlowPricing.Report.Paths
import FlowPricing.Proofs.Action
import FlowPricing.Proofs.Table
import FlowPricing.Proofs.Weight.Units
import FlowPricing.Proofs.Weight.Rank
import FlowPricing.Proofs.Weight.Rounding
import FlowPricing.Proofs.Weight.Storing
import FlowPricing.Proofs.Weight.Addition
import FlowPricing.Proofs.Network.Order
import FlowPricing.Proofs.Network.Acyclic
import FlowPricing.Proofs.Network.Topology
import FlowPricing.Proofs.Scan
import FlowPricing.Proofs.Network.Records
import FlowPricing.Proofs.Network.Construction
import FlowPricing.Proofs.Network.Route
import FlowPricing.Proofs.Network.Labels
import FlowPricing.Proofs.Network.ShortestPath
import FlowPricing.Proofs.Registry.Reachable
import FlowPricing.Proofs.Registry.Transposition
import FlowPricing.Proofs.Master.Memory
import FlowPricing.Proofs.Pricing.Round
import FlowPricing.Proofs.Pricing.Solve
import FlowPricing.Proofs.Pricing.Session
import FlowPricing.Proofs.Setup.Constraints
import FlowPricing.Proofs.Setup.Networks
import FlowPricing.Proofs.Setup.Compatible
import FlowPricing.Proofs.Registry.Permanence
import FlowPricing.Proofs.Setup.Prepared
import FlowPricing.Proofs.Setup.Opened
import FlowPricing.Proofs.Pricing.ReducedCost
import FlowPricing.Proofs.Pricing.Optimality
import FlowPricing.Proofs.Pricing.Progress
import FlowPricing.Proofs.Network.Ledger
import FlowPricing.Proofs.Network.Distances
import FlowPricing.Proofs.Network.Genuine
import FlowPricing.Proofs.Network.Queries
import FlowPricing.Proofs.Network.Ties
import FlowPricing.Proofs.Json.Reading
import FlowPricing.Proofs.Json.Number
import FlowPricing.Proofs.Json.Text
import FlowPricing.Proofs.Json.Record
import FlowPricing.Proofs.Network.DescriptionJson
import FlowPricing.Proofs.Text
import FlowPricing.Proofs.VariableName
import FlowPricing.Proofs.VariableName.Grammar
import FlowPricing.Proofs.Pricing.PlainLoop
import FlowPricing.Proofs.Pricing.Attempt
import FlowPricing.Proofs.Pricing.Commitment
import FlowPricing.Proofs.Pricing.Forgetting
import FlowPricing.Proofs.Pricing.History
import FlowPricing.Proofs.Pricing.LifeCycle
import FlowPricing.Proofs.Pricing.Naming
import FlowPricing.Proofs.Pricing.Scheduled
import FlowPricing.Proofs.Pricing.Replacement
import FlowPricing.Proofs.Master.Calls
import FlowPricing.Proofs.Setup.Pruning
import FlowPricing.Proofs.Setup.Stripping
import FlowPricing.Proofs.Pricing.Unpriceable
import FlowPricing.Proofs.Pricing.Retry
import FlowPricing.Proofs.Setup.Interrupted
import FlowPricing.Proofs.Setup.Conflict
import FlowPricing.Proofs.Pricing.Selection
import FlowPricing.Proofs.Report
import FlowPricing.Proofs.Files
import FlowPricing.Proofs.Setup.Descriptions
import FlowPricing.Proofs.Pricing.Configured
import FlowPricing.Proofs.Network.Identifier
import FlowPricing.Proofs.Network.Graph
import FlowPricing.Proofs.Network.Indexed.Representation
import FlowPricing.Proofs.Network.Indexed.Paths
import FlowPricing.Proofs.Network.Indexed.Operations
