import Mathlib.Logic.Function.Basic
import Runos.Lib.Multigraph
import Runos.Topology.Port

/-!
# The graph of switches (`Topology.hh`, `TopologyImpl` of `Topology.cc`)

Switches are the vertices, links the edges. `ConsistentTopologyImpl` of `Messaging.hh` has the same
fields and the same `vertex` and is the same structure here; its list of hosts is kept apart.
`boost::adjacency_list<vecS, vecS, undirectedS, …>` is `Multigraph`.

With `NDEBUG` the `BOOST_ASSERT` in `vertex` is skipped.
-/

namespace Topology

/-- How a call can fail to return. -/
inductive Fault
  /-- a failed `BOOST_ASSERT` -/
  | assertion
  /-- an access outside a container, or the overflow of an `int` -/
  | undefined
  /-- an exception for a text that is no number or no address -/
  | exception
  deriving DecidableEq, Repr

structure LinkProperty where
  source : SwitchAndPort
  target : SwitchAndPort
  weight : Int
  deriving DecidableEq, Repr

def LinkProperty.ports (l : LinkProperty) : PortPair := (l.source, l.target)

structure TopologyImpl where
  graph : Multigraph UInt64 LinkProperty
  vertexMap : UInt64 → Option Nat

namespace TopologyImpl

def init : TopologyImpl := ⟨.empty, fun _ => none⟩

/-- The vertex of a switch, which is added when there is none. -/
def vertex (ndebug : Bool) (m : TopologyImpl) (dpid : UInt64) :
    Except Fault (TopologyImpl × Nat) :=
  match m.vertexMap dpid with
  | some v =>
    if ndebug then
      .ok (m, v)
    else
      match m.graph.vertices[v]? with
      | none => .error .undefined
      | some d => if d = dpid then .ok (m, v) else .error .assertion
  | none =>
    let (graph, v) := m.graph.addVertex dpid
    .ok (⟨graph, Function.update m.vertexMap dpid (some v)⟩, v)

/-- The links in the graph. -/
def links (m : TopologyImpl) : List PortPair := m.graph.edges.map (·.property.ports)

end TopologyImpl

end Topology
