import Runos.Topology.HostManager
import Runos.Topology.Lldp

/-!
# Hosts (`HostManager.cc`, `ArpHandler.cc`)

`HostManager` makes a host of every address that a packet comes from, unless it is the address of a
switch, and `ArpHandler` answers the ARP requests for the addresses of these hosts. `State.packetIn`
runs the handlers "link-discovery", "host-manager" and "arp-handler" on a packet, in this order, as
`network-settings.json` has them; it is for the packets that the trace tree has no flow for. An
address stands for its text, which is what `hosts` is keyed by and what `getHost` compares.
-/

open Blocks Oxm SwitchManager

/-! ## The host manager -/

namespace HostManager

open LinkDiscovery

/-- `IPv4Addr` -/
abbrev IpAddress := BitVec 32

def IPV4_ETH_TYPE : BitVec 16 := 0x0800
def ARP_ETH_TYPE : BitVec 16 := 0x0806

/-- `HostImpl` -/
@[ext]
structure Host where
  mac : EthAddress
  ip : IpAddress
  switchID : UInt64
  switchPort : UInt32
  deriving DecidableEq, Repr

abbrev Hosts := Table EthAddress Host

namespace Hosts

/-- `createHost`, then `attachHost`. -/
def addHost (hosts : Hosts) (sw : UInt64) (ip : IpAddress) (mac : EthAddress) (port : UInt32) :
    Hosts :=
  hosts.insert mac ⟨mac, ip, sw, port⟩

def delHostForSwitch (hosts : Hosts) (dpid : UInt64) : Hosts :=
  Table.filter (fun host =>  host.switchID ≠ dpid) hosts

/-- An order in which a loop walks through the hosts. -/
structure Walk where
  order : List Host → List Host
  reorder : ∀ hosts, (order hosts).Perm hosts

/-- `getHost(IPv4Addr)` -/
def getHost (hosts : Hosts) (walk : Walk) (ip : IpAddress) : Option Host :=
  (walk.order (hosts.entries.map (·.2))).find? (·.ip == ip)

end Hosts

/-- The switch manager and the host manager. -/
structure State where
  manager : SwitchManager.State
  hosts : Hosts

inductive Fault
  /-- `std::out_of_range`, from `switches.at` -/
  | outOfRange
  /-- an access through a null pointer -/
  | undefined
  deriving DecidableEq, Repr

namespace State

def init : State := ⟨.init, ∅⟩

/-- The end of the handler: a host is added, or has told its address. `sw` is a null pointer for a
switch that the switch manager does not know. -/
def seen (s : State) (dpid : UInt64) (mac : EthAddress) (ip : IpAddress) (port : UInt32) :
    Except Fault State :=
  if OFPP_MAX < port then .ok s
  else match s.hosts.lookup mac with
    | none =>
      match s.manager.switches.lookup dpid with
      | none => .error .undefined
      | some _ => .ok { s with hosts := s.hosts.addHost dpid ip mac port }
    | some host =>
      if ip ≠ 0 then .ok { s with hosts := s.hosts.insert mac { host with ip } } else .ok s

end State

/-- `host_ip` -/
def hostIp (pkt : PacketParser) : Except PacketParser.Fault IpAddress := do
  let isIpv4 ← pkt.test (Field.make IPV4_ETH_TYPE (.exact OfbType.eth_type))
  if isIpv4 then do
    let src ← pkt.load (.exact .ipv4_src)
    .ok src.value
  else do
    let isArp ← pkt.test (Field.make ARP_ETH_TYPE (.exact OfbType.eth_type))
    if isArp then do
      let spa ← pkt.load (.exact .arp_spa)
      .ok spa.value
    else
      .ok 0

/-- The handler "host-manager", up to `seen`: the arguments of that, if it comes to it. -/
def handlePacket (m : SwitchManager.HostManager) (pkt : PacketParser) :
    Except PacketParser.Fault (Option (EthAddress × IpAddress × UInt32)) := do
  let ethSrc ← pkt.load (.exact .eth_src)
  let ip ← hostIp pkt
  if m.isSwitch ethSrc.value then .ok none
  else do
    let inPort ← pkt.load (.exact .in_port)
    .ok (some (ethSrc.value, ip, .ofBitVec inPort.value))

end HostManager

/-! ## ARP -/

namespace ArpHandler

open HostManager LinkDiscovery Controller

def ARP_REQUEST : BitVec 16 := 1

structure Reply where
  dst : BitVec 48
  src : BitVec 48
  type : BitVec 16 := 0x0806
  htype : BitVec 16 := 1
  ptype : BitVec 16 := 0x0800
  hlen : BitVec 8 := 6
  plen : BitVec 8 := 4
  oper : BitVec 16 := 2
  sha : BitVec 48
  spa : BitVec 32
  tha : BitVec 48
  tpa : BitVec 32
  deriving DecidableEq, Repr

namespace Reply

def members (r : Reply) : List Packed.Member :=
  [⟨48, r.dst⟩, ⟨48, r.src⟩, ⟨16, r.type⟩,
    ⟨16, r.htype⟩, ⟨16, r.ptype⟩, ⟨8, r.hlen⟩, ⟨8, r.plen⟩, ⟨16, r.oper⟩,
    ⟨48, r.sha⟩, ⟨32, r.spa⟩, ⟨48, r.tha⟩, ⟨32, r.tpa⟩]

/-- The memory of the reply. -/
def bytes (r : Reply) : List Byte := Packed.encode r.members

end Reply

/-- The reply that `sha` has the address `tpa`. -/
def reply (target : Host) (tpa : IpAddress) (sha : EthAddress) (spa : IpAddress) : Reply where
  dst := sha
  src := target.mac
  sha := target.mac
  spa := tpa
  tha := sha
  tpa := spa

/-- The handler "arp-handler" of the switch `dpid`, with the reply that it sends. -/
def handlePacket (hosts : Hosts) (walk : Hosts.Walk) (dpid : UInt64) (pkt : PacketParser)
    (decision : Decision) : Except PacketParser.Fault (Decision × Option PacketOut) := do
  let isArp ← pkt.test (Field.make ARP_ETH_TYPE (.exact OfbType.eth_type))
  let isRequest ←
    if isArp then pkt.test (Field.make ARP_REQUEST (.exact OfbType.arp_op)) else .ok false
  if isRequest then do
    let tpa ← pkt.load (.exact .arp_tpa)
    match hosts.getHost walk tpa.value with
    | none => .ok (decision.withIdleTimeout 0, none)
    | some target => do
      let sha ← pkt.load (.exact .arp_sha)
      let spa ← pkt.load (.exact .arp_spa)
      let inPort ← pkt.load (.exact .in_port)
      .ok ((decision.withIdleTimeout 0).drop.withReturn,
        some ⟨dpid, (reply target tpa.value sha.value spa.value).bytes, .ofBitVec inPort.value⟩)
  else
    .ok (decision, none)

end ArpHandler

/-! ## Events -/

namespace HostManager

open LinkDiscovery

namespace State

/-- The handlers "host-manager" and "arp-handler" on a packet; an exception leaves what was done. -/
def process (s : State) (dpid : UInt64) (walk : Hosts.Walk) (pkt : PacketParser)
    (decision : Controller.Decision) : Except Fault (State × Option PacketOut) :=
  match handlePacket s.manager.hostManager pkt with
  | .error _ => .ok (s, none)
  | .ok sender => do
    let s ← match sender with
      | none => .ok s
      | some (mac, ip, port) => s.seen dpid mac ip port
    match ArpHandler.handlePacket s.hosts walk dpid pkt decision with
    | .error _ => .ok (s, none)
    | .ok (_, sent) => .ok (s, sent)

/-- A packet-in, with the ARP reply that is sent. `front` are the bytes in front of the port and of
the frame in memory. -/
def packetIn (s : State) (target : SwitchAndPort) (front : Byte × Byte) (frame : List Byte)
    (walk : Hosts.Walk) : Except Fault (State × Option PacketOut) :=
  match PacketParser.init front.1 target.port.toBitVec (some ⟨front.2, frame⟩) with
  | .error _ => .ok (s, none)
  | .ok pkt =>
    match LinkDiscovery.handlePacket target.dpid pkt {} with
    | .error _ => .ok (s, none)
    | .ok (decision, _) =>
      if decision.return_ then .ok (s, none) else s.process target.dpid walk pkt decision

/-- The host manager is told of a switch that is down if the switch manager knows it. -/
def onSwitchDown (s : State) (dpid : UInt64) : Hosts :=
  if (s.manager.switches.lookup dpid).isSome then s.hosts.delHostForSwitch dpid else s.hosts

end State

inductive Event
  | manager (e : SwitchManager.Event)
  | packetIn (target : SwitchAndPort) (front : Byte × Byte) (frame : List Byte) (walk : Hosts.Walk)

namespace State

/-- One event. -/
def step (s : State) : Event → Except Fault State
  | .manager e =>
    match s.manager.step e with
    | .error .outOfRange => .error .outOfRange
    | .ok manager =>
      .ok { manager, hosts := match e with
        | .switchDown dpid => s.onSwitchDown dpid
        | _ => s.hosts }
  | .packetIn target front frame walk => (s.packetIn target front frame walk).map (·.1)

end State

end HostManager
