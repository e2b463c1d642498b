import Runos.Controller.Decision
import Runos.Lib.Table
import Runos.Topology.Route

/-!
# The learning switch (`LearningSwitch.cc`)

The hosts that were seen, and the handler "forwarding". The handler reads three fields of the packet.
Its decision is the unicast to the first port of the route to the host, with timeouts in seconds.
-/

namespace Controller

/-- `ethaddr` -/
abbrev EthAddr := BitVec 48

/-- `is_broadcast` -/
def isBroadcast (mac : EthAddr) : Bool := mac = BitVec.allOnes 48

/-- `HostsDatabase`: where an address was seen first. -/
structure HostsDatabase where
  db : Table EthAddr SwitchAndPort

namespace HostsDatabase

def init : HostsDatabase := ⟨∅⟩

/-- `emplace` keeps an entry that is there. -/
def learn (h : HostsDatabase) (dpid : UInt64) (inPort : UInt32) (mac : EthAddr) : HostsDatabase :=
  if isBroadcast mac then h
  else if (h.db.lookup mac).isSome then h
  else ⟨h.db.insert mac ⟨dpid, inPort⟩⟩

def query (h : HostsDatabase) (mac : EthAddr) : Option SwitchAndPort := h.db.lookup mac

end HostsDatabase

/-- The fields of a packet that the handler loads. -/
structure Packet where
  inPort : UInt32
  ethSrc : EthAddr
  ethDst : EthAddr
  deriving DecidableEq, Repr

namespace LearningSwitch

/-- How the handler can fail to return. -/
inductive Fault
  | topology (fault : Topology.Fault)
  /-- `decision_conflict` -/
  | conflict
  deriving DecidableEq, Repr

/-- What the handlers of all switches share. -/
structure State where
  topology : Topology
  db : HostsDatabase

/-- The decision of a builder call that did not throw, with the timeouts that go with it. -/
def timed (idle hard : Nat) (decision : Option Decision) : Except Fault Decision :=
  match decision with
  | none => .error .conflict
  | some decision => .ok ((decision.withIdleTimeout idle).withHardTimeout hard)

/-- The decision once the route to the host is known. -/
def forward (dpid : UInt64) (target : SwitchAndPort) (route : List SwitchAndPort)
    (decision : Decision) : Except Fault Decision :=
  match route with
  | out :: _ => timed 60 1800 (decision.unicast out.port.toNat)
  | [] =>
    if dpid = target.dpid then
      timed 60 1800 (decision.unicast target.port.toNat)
    else
      .ok (((decision.drop.withIdleTimeout 30).withHardTimeout 60).withReturn)

/-- The handler at the switch `dpid`; none when the loop of `computeRoute` runs out of fuel. -/
def forwarding (boost : Topology.Boost) (ndebug : Bool) (fuel : Nat) (s : State) (dpid : UInt64)
    (pkt : Packet) (decision : Decision) : Option (Except Fault (State × Decision)) :=
  let db := s.db.learn dpid pkt.inPort pkt.ethSrc
  match db.query pkt.ethDst with
  | some target =>
    match s.topology.computeRoute boost ndebug fuel dpid target.dpid with
    | none => none
    | some (.error fault) => some (.error (.topology fault))
    | some (.ok (topology, route)) =>
      some ((forward dpid target route decision).map fun decision => (⟨topology, db⟩, decision))
  | none =>
    match decision.broadcast with
    | none => some (.error .conflict)
    | some flood =>
      if isBroadcast pkt.ethDst then some (.ok (⟨s.topology, db⟩, flood))
      else some (.ok (⟨s.topology, db⟩, flood.withIdleTimeout 0))

end LearningSwitch

end Controller
