import Runos.Lib.Lists
import Runos.Lib.Trace
import Runos.Lib.LeaderLogs
import Runos.Raft.Cluster
import Runos.Raft.Proof.Handlers
import Runos.Raft.Proof.Invariant
import Runos.Raft.Proof.Conditions
import Runos.Raft.Proof.Election
import Runos.Raft.Proof.Logs
import Runos.Raft.Proof.Retained
import Runos.Raft.Proof.Safety
import Runos.Messaging.Checker
import Runos.Messaging.Proof.Checker
import Runos.Oxm.Field
import Runos.Maple.Runtime
import Runos.Oxm.Proof.Field
import Runos.Lib.Priority
import Runos.Maple.Proof.Tracing
import Runos.Maple.Proof.Compile
import Runos.Maple.Proof.View
import Runos.Maple.Proof.Memo
import Runos.Controller.Decision
import Runos.Controller.SwitchScope
import Runos.Controller.Proof.Install
import Runos.Controller.Proof.Unexplored
import Runos.Raft.Proof.Votes
import Runos.Raft.Proof.AppendOnly
import Runos.Raft.Proof.Following
import Runos.Lib.OrderedSet
import Runos.Lib.Signals
import Runos.Topology.LinkDiscovery
import Runos.Topology.Proof.Database
import Runos.Topology.Proof.Announcements
import Runos.Lib.Multigraph
import Runos.Topology.Graph
import Runos.Topology.Topology
import Runos.Topology.Proof.Graph
import Runos.Topology.Proof.Topology
import Runos.Messaging.Entries
import Runos.Messaging.Proof.Entries
import Runos.Messaging.Instance
import Runos.Messaging.Proof.Instance
import Runos.Controller.FlowOnSwitch
import Runos.Controller.Proof.FlowOnSwitch
import Runos.Maple.Proof.Record
import Runos.Maple.Proof.Augment
import Runos.Controller.FlowManager
import Runos.Controller.Proof.FlowManager
import Runos.Messaging.Proof.Handled
import Runos.Lib.Stream
import Runos.Raft.Wire
import Runos.Raft.Proof.Wire
import Runos.Raft.Processor
import Runos.Raft.Proof.Processor
import Runos.Raft.Proof.Returns
import Runos.Raft.Proof.Input
import Runos.Lib.Forest
import Runos.Lib.Table
import Runos.Topology.Stp
import Runos.Topology.Proof.Stp
import Runos.Topology.Proof.Flooding
import Runos.Topology.Proof.Delivery
import Runos.Controller.LearningSwitch
import Runos.Lib.ShortestPath
import Runos.Topology.Proof.Route
import Runos.Controller.Proof.LearningSwitch
import Runos.Lib.Overwrite
import Runos.Oxm.Proof.FieldSet
import Runos.Lib.Segments
import Runos.Raft.Framing
import Runos.Raft.Proof.Framing
import Runos.Lib.Blocks
import Runos.Oxm.PacketParser
import Runos.Topology.Proof.HostPorts
import Runos.Oxm.Proof.PacketParser
import Runos.Oxm.Proof.PacketFields
import Runos.Raft.Clients
import Runos.Raft.Proof.Clients
import Runos.Controller.Lifetime
import Runos.Controller.Proof.Lifetime
import Runos.Controller.Proof.Pending
import Runos.Controller.Proof.Decision
import Runos.Controller.Proof.Reconcile
import Runos.Controller.Transactions
import Runos.Controller.Proof.Transactions
import Runos.Oxm.Proof.PacketBits
import Runos.Oxm.Adapter
import Runos.Oxm.Proof.Adapter
import Runos.Rest.EventManager
import Runos.Rest.Proof.EventManager
import Runos.Rest.Proof.Polling
import Runos.Controller.Loader
import Runos.Controller.Proof.Loader
import Runos.Controller.Proof.LoaderChains
import Runos.Controller.Proof.StartAll
import Runos.Controller.SimpleLearningSwitch
import Runos.Maple.Proof.Lookup
import Runos.Controller.Proof.SimpleLearningSwitch
import Runos.Controller.Proof.Floods
import Runos.Topology.HostManager
import Runos.Topology.Proof.HostManager
import Runos.Raft.Proof.Quorum
import Runos.Oxm.Proof.Canonical
import Runos.Oxm.Bits
import Runos.Oxm.Proof.Bits
import Runos.Lib.Numeral
import Runos.Lib.Regex
import Runos.Maple.Proof.Priorities
import Runos.Types.IPv6Addr
import Runos.Lib.Separated
import Runos.Types.Proof.IPv6Text
import Runos.Types.Proof.IPv6Addr
import Runos.Types.IPv4Addr
import Runos.Types.Proof.IPv4Addr
import Runos.Rest.Proof.StringProcessing
import Runos.Lib.Fallible
import Runos.Rest.FlowMod
import Runos.Rest.Proof.FlowMod
import Runos.Lib.SortedMap
import Runos.Json.Value
import Runos.Json.Parser
import Runos.Json.Proof.Refused
import Runos.Json.Proof.RoundTrip
import Runos.Json.Proof.Depth
import Runos.Json.Proof.Unicode
import Runos.Maple.Proof.LoadsOnly
import Runos.Controller.Proof.DataPlane
import Runos.Lib.Packed
import Runos.Topology.Lldp
import Runos.Oxm.Proof.PacketTest
import Runos.Topology.Proof.Lldp
import Runos.Topology.Proof.Discovery
import Runos.Raft.Proof.Repair
import Runos.Topology.Hosts
import Runos.Topology.Proof.Hosts
import Runos.Topology.Proof.HostRuns
