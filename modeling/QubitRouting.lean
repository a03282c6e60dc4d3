import QubitRouting.Circuit.Instruction
import QubitRouting.Circuit.Parser
import QubitRouting.Command.Run
import QubitRouting.Config.Codec
import QubitRouting.Data.Json.Printer
import QubitRouting.Data.Json.Reader
import QubitRouting.Data.Yaml.Reader
import QubitRouting.Main
import QubitRouting.Mapping.Pass
import QubitRouting.Session
import QubitRouting.Topology.Presets
import QubitRouting.Proofs.Graph.Search
import QubitRouting.Proofs.Topology.Paths
import QubitRouting.Proofs.Layout.Moves
import QubitRouting.Proofs.Routing.Split
import QubitRouting.Proofs.Steps
import QubitRouting.Proofs.Routing.Route
import QubitRouting.Proofs.Interaction.Record
import QubitRouting.Proofs.Placement.Total
import QubitRouting.Proofs.Session.Reachable
import QubitRouting.Proofs.Mapping.Emission
import QubitRouting.Proofs.Mapping.Meaning
import QubitRouting.Proofs.Mapping.Collection
import QubitRouting.Proofs.Mapping.Compliance
import QubitRouting.Proofs.Mapping.Success
import QubitRouting.Proofs.Circuit.Words
import QubitRouting.Proofs.Circuit.Grammar
import QubitRouting.Proofs.Circuit.Legible
import QubitRouting.Proofs.Circuit.Writing
import QubitRouting.Proofs.Mapping.Readback
import QubitRouting.Proofs.Mapping.Validity
import QubitRouting.Proofs.Session.History
import QubitRouting.Proofs.Session.Faults
import QubitRouting.Proofs.Circuit.Derivation
import QubitRouting.Proofs.Circuit.Patterns
import QubitRouting.Proofs.Circuit.Lexing
import QubitRouting.Proofs.Mapping.Recovery
import QubitRouting.Proofs.Mapping.Naming
import QubitRouting.Proofs.Interaction.Requests
import QubitRouting.Proofs.Interaction.Usage
import QubitRouting.Proofs.Interaction.Names
import QubitRouting.Proofs.Mapping.Gathering
import QubitRouting.Proofs.Mapping.Accounts
import QubitRouting.Proofs.Placement.Alike
import QubitRouting.Proofs.Interaction.Renaming
import QubitRouting.Proofs.Mapping.Renaming
import QubitRouting.Proofs.Layout.Histories
import QubitRouting.Proofs.Interaction.Exchange
import QubitRouting.Proofs.Mapping.Exchange
import QubitRouting.Proofs.Graph.Parts
import QubitRouting.Proofs.Topology.Links
import QubitRouting.Proofs.Topology.Families
import QubitRouting.Proofs.Config.Device
import QubitRouting.Proofs.Config.RoundTrip
import QubitRouting.Proofs.Graph.Distance
import QubitRouting.Proofs.Placement.Seed
import QubitRouting.Proofs.Mapping.Unswapped
import QubitRouting.Proofs.Command.Paths
import QubitRouting.Proofs.Command.Trees
import QubitRouting.Proofs.Command.Directory
import QubitRouting.Proofs.Routing.Contract
import QubitRouting.Proofs.Routing.Fewest
import QubitRouting.Proofs.Placement.Contiguous
import QubitRouting.Proofs.Placement.Faults
import QubitRouting.Proofs.Graph.Order
import QubitRouting.Proofs.Graph.Queue
import QubitRouting.Proofs.Graph.ShortestPaths
import QubitRouting.Proofs.Interaction.Damping
import QubitRouting.Proofs.Placement.Growth
import QubitRouting.Proofs.Graph.Best
import QubitRouting.Proofs.Interaction.Weight
import QubitRouting.Proofs.Routing.Meeting
import QubitRouting.Proofs.Graph.Frontier
import QubitRouting.Proofs.Topology.Reach
import QubitRouting.Proofs.Topology.Center
import QubitRouting.Proofs.Topology.Climb
import QubitRouting.Proofs.Topology.Geometry
import QubitRouting.Proofs.Circuit.Broadcast
import QubitRouting.Proofs.Circuit.Spacing
import QubitRouting.Proofs.Circuit.ErrorLines
import QubitRouting.Proofs.Circuit.Versions
import QubitRouting.Proofs.Routing.Shift
