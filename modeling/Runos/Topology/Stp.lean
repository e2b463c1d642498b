import Runos.Lib.Table
import Runos.Topology.Topology

/-!
# The spanning tree (`STP.hh`, `STP.cc`)

`STP` keeps a table of ports for every switch, and with each port whether it is flooded. The tables
are hash tables; a port is found under its number and a `SwitchSTP` under the dpid of its switch, so
neither is repeated in the value, and the loops over a table go through it in any order. A pointer in
`switch_list` can be null: `operator[]` enters one for a switch that is not there.

The tree is an argument of `computeSpanningTree`, in the form of the edges that Boost's Kruskal
returns. Left out: the group messages that pass the flooded ports on to the switches, and
`nextSwitch`, which is written and never read.
-/

namespace Topology

/-- How a call of `STP` can fail to return. -/
inductive STP.Fault
  /-- a null pointer is followed -/
  | nullPointer
  /-- the exception of `at` -/
  | outOfRange
  deriving DecidableEq, Repr

structure Port where
  /-- The port is flooded. -/
  broadcast : Bool
  /-- The port is between two switches. -/
  toSwitch : Bool
  deriving DecidableEq, Repr

/-- The constructor of `Port`. -/
def Port.init : Port := ⟨true, false⟩

structure SwitchSTP where
  ports : Table UInt32 Port

namespace SwitchSTP

def init : SwitchSTP := ⟨∅⟩

def existsPort (sw : SwitchSTP) (portNo : UInt32) : Bool := (sw.ports.lookup portNo).isSome

/-- Writing through `ports.at(port_no)`. -/
def modifyPort (sw : SwitchSTP) (portNo : UInt32) (f : Port → Port) : Except STP.Fault SwitchSTP :=
  match sw.ports.lookup portNo with
  | none => .error .outOfRange
  | some port => .ok ⟨sw.ports.insert portNo (f port)⟩

def unsetBroadcast (sw : SwitchSTP) (portNo : UInt32) : Except STP.Fault SwitchSTP :=
  sw.modifyPort portNo ({ · with broadcast := false })

def setBroadcast (sw : SwitchSTP) (portNo : UInt32) : Except STP.Fault SwitchSTP :=
  sw.modifyPort portNo ({ · with broadcast := true })

/-- The first half of `setSwitchPort`. -/
def setToSwitch (sw : SwitchSTP) (portNo : UInt32) : Except STP.Fault SwitchSTP :=
  sw.modifyPort portNo ({ · with toSwitch := true })

def resetBroadcast (sw : SwitchSTP) : SwitchSTP :=
  ⟨Table.mapValues (fun port => if port.toSwitch then { port with broadcast := false } else port)
    sw.ports⟩

def getEnabledPorts (sw : SwitchSTP) : List UInt32 :=
  (sw.ports.entries.filter (·.2.broadcast)).map (·.1)

/-- A new entry of `ports`, if there is none. -/
def addPort (sw : SwitchSTP) (portNo : UInt32) : SwitchSTP :=
  if sw.existsPort portNo then sw else ⟨sw.ports.insert portNo .init⟩

/-- The ports of the tree that exist are flooded. -/
def enable (sw : SwitchSTP) : List UInt32 → Except STP.Fault SwitchSTP
  | [] => .ok sw
  | p :: ps =>
    if sw.existsPort p then do
      let sw ← sw.setBroadcast p
      sw.enable ps
    else
      sw.enable ps

end SwitchSTP

structure STP where
  switchList : Table UInt64 (Option SwitchSTP)
  computed : Bool

namespace STP

def init : STP := ⟨∅, false⟩

/-- `switch_list.count(dpid)` -/
def count (s : STP) (dpid : UInt64) : Bool := (s.switchList.lookup dpid).isSome

/-- `switch_list[dpid]`, which enters a null pointer if there is nothing. -/
def entry (s : STP) (dpid : UInt64) : STP × Option SwitchSTP :=
  match s.switchList.lookup dpid with
  | some sw => (s, sw)
  | none => ({ s with switchList := s.switchList.insert dpid none }, none)

/-- Following a pointer. -/
def deref : Option SwitchSTP → Except Fault SwitchSTP
  | none => .error .nullPointer
  | some sw => .ok sw

/-- What is written through a pointer, or as an entry of `switch_list`. -/
def put (s : STP) (dpid : UInt64) (sw : SwitchSTP) : STP :=
  { s with switchList := s.switchList.insert dpid (some sw) }

def getSTP (s : STP) (dpid : UInt64) : Except Fault (List UInt32) :=
  if s.count dpid = false ∨ s.computed = false then
    .ok []
  else do
    let sw ← deref (s.entry dpid).2
    .ok sw.getEnabledPorts

/-- `onLinkDiscovered` at one end of the link: the port is not flooded any more. -/
def joinPort (s : STP) (end_ : SwitchAndPort) (other : UInt64) : Except Fault STP := do
  let (s, sw) := s.entry end_.dpid
  let sw ← deref sw
  let sw := sw.addPort end_.port
  let sw ← sw.unsetBroadcast end_.port
  let sw ← sw.setToSwitch end_.port
  -- the second half of `setSwitchPort` looks the other switch up
  .ok ((s.put end_.dpid sw).entry other).1

def onLinkDiscovered (s : STP) (source target : SwitchAndPort) : Except Fault STP :=
  if s.count source.dpid = false then
    .ok s
  else if s.count target.dpid = false then
    .ok s
  else do
    let s ← s.joinPort source target.dpid
    let s ← s.joinPort target source.dpid
    .ok { s with computed := false }

def onLinkBroken (s : STP) : STP := { s with computed := false }

/-- A signal of `ILinkDiscovery`. -/
def receive (s : STP) : Signal PortPair → Except Fault STP
  | .up (source, target) => s.onLinkDiscovered source target
  | .down _ => .ok s.onLinkBroken

def onSwitchDiscovered (s : STP) (dpid : UInt64) : STP := s.put dpid .init

def onSwitchDown (s : STP) (dpid : UInt64) : STP :=
  { s with switchList := s.switchList.erase dpid }

def onSwitchUp (s : STP) (dpid : UInt64) : STP :=
  if s.count dpid then s else s.put dpid .init

def onPortUp (s : STP) (dpid : UInt64) (portNo : UInt32) : Except Fault STP :=
  if s.count dpid then do
    let (s, sw) := s.entry dpid
    let sw ← deref sw
    .ok (s.put dpid (if portNo < OFPP_MAX then sw.addPort portNo else sw))
  else
    .ok s

/-! ## `computeSpanningTree` -/

/-- `spanning_tree[end.dpid].push_back(end.port)` -/
def pushBack (spanningTree : Table UInt64 (List UInt32)) (end_ : SwitchAndPort) :
    Table UInt64 (List UInt32) :=
  spanningTree.insert end_.dpid ((spanningTree.lookup end_.dpid).getD [] ++ [end_.port])

/-- The ports of the tree, by switch. -/
def spanningTree (tree : List (Multigraph.Edge LinkProperty)) : Table UInt64 (List UInt32) :=
  tree.foldl (fun t e => pushBack (pushBack t e.property.source) e.property.target) ∅

/-- The loop over `switch_list`. -/
def resetAll : List (Σ _ : UInt64, Option SwitchSTP) → Except Fault Unit
  | [] => .ok ()
  | ⟨_, sw⟩ :: rest => do
    let _ ← deref sw
    resetAll rest

/-- The loop over `spanning_tree`. -/
def applyTree (s : STP) : List (Σ _ : UInt64, List UInt32) → Except Fault STP
  | [] => .ok s
  | ⟨dpid, ps⟩ :: rest => do
    let (s, sw) := s.entry dpid
    let sw ← deref sw
    let sw ← sw.enable ps
    (s.put dpid sw).applyTree rest

def computeSpanningTree (s : STP) (tree : List (Multigraph.Edge LinkProperty)) :
    Except Fault STP :=
  if s.computed then
    .ok s
  else do
    resetAll s.switchList.entries
    let s := { s with
      switchList := Table.mapValues (Option.map SwitchSTP.resetBroadcast) s.switchList }
    let s ← s.applyTree (spanningTree tree).entries
    .ok { s with computed := true }

end STP

end Topology
