import Runos.Lib.Signals
import Runos.Topology.Graph

/-!
# The topology (`Topology.cc`)

`Topology` keeps every link twice, as an edge of the graph and as a `Link` object in `topo`. An
object is told from others by its address. Its id, which is random, and the events that report it
are left out. Where events are recorded, `linkBroken` for a link without an object passes a null
pointer to `addEvent`, and `EventManager::setBrother` follows the null pointer that it finds for it:
such a run ends there, and the model goes on.
-/

namespace Topology

structure Link where
  source : SwitchAndPort
  target : SwitchAndPort
  weight : Int
  deriving DecidableEq, Repr

def Link.ports (l : Link) : PortPair := (l.source, l.target)

end Topology

structure Topology where
  m : Topology.TopologyImpl
  /-- The objects, with their addresses. -/
  topo : List (Nat × Topology.Link)
  /-- The address of the next object. -/
  heap : Nat

namespace Topology

def init : Topology := ⟨.init, [], 0⟩

/-- The first object between the two ports, in either direction. -/
def getLink (s : Topology) (source target : SwitchAndPort) : Option Nat :=
  (s.topo.find? fun l => l.2.source = source ∧ l.2.target = target ∨
    l.2.source = target ∧ l.2.target = source).map Prod.fst

def linkDiscovered (ndebug : Bool) (s : Topology) (source target : SwitchAndPort) :
    Except Fault Topology :=
  if source.dpid = target.dpid then
    .ok s
  else do
    let (m, u) ← s.m.vertex ndebug source.dpid
    let (m, v) ← m.vertex ndebug target.dpid
    .ok { m := { m with graph := m.graph.addEdge u v ⟨source, target, 1⟩ }
          topo := s.topo ++ [(s.heap, ⟨source, target, 5⟩)]
          heap := s.heap + 1 }

def linkBroken (ndebug : Bool) (s : Topology) (source target : SwitchAndPort) :
    Except Fault Topology := do
  -- the arguments of a call are evaluated in any order: here from the left
  let (m, u) ← s.m.vertex ndebug source.dpid
  let (m, v) ← m.vertex ndebug target.dpid
  let link := s.getLink source target
  .ok { s with
    m := { m with graph := m.graph.removeEdge u v }
    topo := s.topo.filter fun l => some l.1 ≠ link }

/-- A signal of `ILinkDiscovery`. -/
def receive (ndebug : Bool) (s : Topology) : Signal PortPair → Except Fault Topology
  | .up (source, target) => s.linkDiscovered ndebug source target
  | .down (source, target) => s.linkBroken ndebug source target

end Topology
