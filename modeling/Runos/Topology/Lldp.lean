import Runos.Controller.Decision
import Runos.Lib.Packed
import Runos.Oxm.PacketParser
import Runos.Topology.LinkDiscovery

/-!
# LLDP packets (`LLDP.hh`, `LinkDiscovery.cc`)

The packet that `LinkDiscovery` sends out of a port, the handler for the packets that come in, and
the slots that send. A `big_uintN_t` of the packed `lldp_packet` is a number of `N` bits. What
`handleBeacon`, `clearLinkAt` and the loop of `timerEvent` do to the links is in
`Topology/LinkDiscovery.lean`.
-/

open Blocks Oxm

/-! ## The packet -/

namespace LinkDiscovery

def LLDP_ETH_TYPE : BitVec 16 := 0x88cc

def LLDP_CHASSIS_ID_TLV : BitVec 16 := 1
def LLDP_PORT_ID_TLV : BitVec 16 := 2
def LLDP_TTL_TLV : BitVec 16 := 3

def LLDP_CHASSIS_ID_SUB_MAC : BitVec 8 := 4
def LLDP_PORT_ID_SUB_COMPONENT : BitVec 8 := 2

def lldpTlvHeader (type length : BitVec 16) : BitVec 16 := (type <<< 9) ||| length

structure LldpPacket where
  dstMac : BitVec 48 := 0x0180c200000e
  srcMac : BitVec 48
  ethType : BitVec 16 := LLDP_ETH_TYPE
  chassisIdHeader : BitVec 16 := lldpTlvHeader LLDP_CHASSIS_ID_TLV 7
  chassisIdSub : BitVec 8 := LLDP_CHASSIS_ID_SUB_MAC
  chassisIdSubMac : BitVec 48
  portIdHeader : BitVec 16 := lldpTlvHeader LLDP_PORT_ID_TLV 5
  portIdSub : BitVec 8 := LLDP_PORT_ID_SUB_COMPONENT
  portIdSubComponent : BitVec 32
  ttlHeader : BitVec 16 := lldpTlvHeader LLDP_TTL_TLV 2
  ttlSeconds : BitVec 16
  dpidHeader : BitVec 16 := lldpTlvHeader 127 12
  dpidOui : BitVec 24 := 0x0026e1
  dpidSub : BitVec 8 := 0
  dpidData : BitVec 64
  endTlv : BitVec 16 := 0
  deriving DecidableEq, Repr

namespace LldpPacket

abbrev sizeof := 50

def members (p : LldpPacket) : List Packed.Member :=
  [⟨48, p.dstMac⟩, ⟨48, p.srcMac⟩, ⟨16, p.ethType⟩,
    ⟨16, p.chassisIdHeader⟩, ⟨8, p.chassisIdSub⟩, ⟨48, p.chassisIdSubMac⟩,
    ⟨16, p.portIdHeader⟩, ⟨8, p.portIdSub⟩, ⟨32, p.portIdSubComponent⟩,
    ⟨16, p.ttlHeader⟩, ⟨16, p.ttlSeconds⟩,
    ⟨16, p.dpidHeader⟩, ⟨24, p.dpidOui⟩, ⟨8, p.dpidSub⟩, ⟨64, p.dpidData⟩, ⟨16, p.endTlv⟩]

/-- The memory of the packet. -/
def bytes (p : LldpPacket) : List Byte := Packed.encode p.members

/-- The packet whose memory starts with the bytes; none when they are too few. -/
def ofBytes (bytes : List Byte) : Option LldpPacket := do
  let dstMac ← read 48 bytes 0
  let srcMac ← read 48 bytes 6
  let ethType ← read 16 bytes 12
  let chassisIdHeader ← read 16 bytes 14
  let chassisIdSub ← read 8 bytes 16
  let chassisIdSubMac ← read 48 bytes 17
  let portIdHeader ← read 16 bytes 23
  let portIdSub ← read 8 bytes 25
  let portIdSubComponent ← read 32 bytes 26
  let ttlHeader ← read 16 bytes 30
  let ttlSeconds ← read 16 bytes 32
  let dpidHeader ← read 16 bytes 34
  let dpidOui ← read 24 bytes 36
  let dpidSub ← read 8 bytes 39
  let dpidData ← read 64 bytes 40
  let endTlv ← read 16 bytes 48
  some ⟨dstMac, srcMac, ethType, chassisIdHeader, chassisIdSub, chassisIdSubMac, portIdHeader,
    portIdSub, portIdSubComponent, ttlHeader, ttlSeconds, dpidHeader, dpidOui, dpidSub, dpidData,
    endTlv⟩

end LldpPacket

/-! ## Sending -/

/-- `of13::Port`; `hwAddr` are the six bytes of `hw_addr`. -/
structure Port where
  portNo : UInt32
  hwAddr : Vector Byte 6
  state : UInt32
  deriving DecidableEq, Repr

/-- `of13::OFPPS_LINK_DOWN` -/
def OFPPS_LINK_DOWN : UInt32 := 1

def Port.live (port : Port) : Bool := port.state &&& OFPPS_LINK_DOWN == 0

/-- A packet-out message: the data, and the port of its only action. -/
structure PacketOut where
  switch : UInt64
  data : List Byte
  output : UInt32
  deriving DecidableEq, Repr

/-- The bytes of an address as a number. -/
def macNumber (mac : Vector Byte 6) : BitVec 48 :=
  mac[0].setWidth 48 <<< 40 ||| mac[1].setWidth 48 <<< 32 ||| mac[2].setWidth 48 <<< 24 |||
    mac[3].setWidth 48 <<< 16 ||| mac[4].setWidth 48 <<< 8 ||| mac[5].setWidth 48

/-- The packet that is sent out of a port. A number that is too long for its field loses its upper
bits. -/
def lldp (pollInterval : UInt32) (dpid : UInt64) (port : Port) : LldpPacket where
  srcMac := macNumber port.hwAddr
  chassisIdSubMac := dpid.toBitVec.setWidth 48
  portIdSubComponent := port.portNo.toBitVec
  ttlSeconds := pollInterval.toBitVec.setWidth 16
  dpidData := dpid.toBitVec

def sendLLDP (pollInterval : UInt32) (dpid : UInt64) (port : Port) : List PacketOut :=
  let po : PacketOut := ⟨dpid, (lldp pollInterval dpid port).bytes, port.portNo⟩
  [po, po, po]

/-! ## Slots -/

def portUp (pollInterval : UInt32) (dpid : UInt64) (port : Port) : List PacketOut :=
  if OFPP_MAX < port.portNo then [] else if port.live then sendLLDP pollInterval dpid port else []

def portModified (pollInterval : UInt32) (ndebug : Bool) (s : LinkDiscovery) (dpid : UInt64)
    (port oldPort : Port) : Except Fault (LinkDiscovery × List PacketOut) :=
  if port.live ∧ ¬ oldPort.live then
    .ok (s, sendLLDP pollInterval dpid port)
  else if ¬ port.live ∧ oldPort.live then do
    let s ← s.clearLinkAt ndebug ⟨dpid, port.portNo⟩
    .ok (s, [])
  else
    .ok (s, [])

def portDown (ndebug : Bool) (s : LinkDiscovery) (dpid : UInt64) (portNo : UInt32) :
    Except Fault LinkDiscovery :=
  s.clearLinkAt ndebug ⟨dpid, portNo⟩

/-- The second half of `timerEvent`; `switches` are those of the switch manager, with their ports. -/
def poll (pollInterval : UInt32) (switches : List (UInt64 × List Port)) : List PacketOut :=
  switches.flatMap fun sw => sw.2.flatMap fun port =>
    if OFPP_MAX < port.portNo then [] else sendLLDP pollInterval sw.1 port

end LinkDiscovery

/-! ## Receiving -/

namespace LinkDiscovery

open Controller

/-- What is decided for every LLDP packet: it is dropped, without a rule on the switch. -/
def consumed (decision : Decision) : Decision :=
  (decision.withIdleTimeout 0).drop.withReturn

/-- The ports of a beacon, the lower one first. -/
def beaconPorts (source target : SwitchAndPort) : PortPair :=
  if target < source then (target, source) else (source, target)

/-- The handler "link-discovery" of the switch `dpid`, with the call of `handleBeacon` that it
queues. -/
def handlePacket (dpid : UInt64) (pkt : PacketParser) (decision : Decision) :
    Except PacketParser.Fault (Decision × Option PortPair) := do
  let isLldp ← pkt.test (Field.make LLDP_ETH_TYPE (.exact OfbType.eth_type))
  if isLldp then
    match LldpPacket.ofBytes (pkt.serializeTo LldpPacket.sizeof) with
    | none => .ok (consumed decision, none)
    | some lldp => do
      let source : SwitchAndPort := ⟨.ofBitVec lldp.dpidData, .ofBitVec lldp.portIdSubComponent⟩
      let inPort ← pkt.load (.exact .in_port)
      let target : SwitchAndPort := ⟨dpid, .ofBitVec inPort.value⟩
      .ok (consumed decision, some (beaconPorts source target))
  else
    .ok (decision, none)

/-- A packet-in: the beacon that is queued for it. `onMessage` catches what is thrown; `front` are the
bytes in front of the port and of the frame in memory. -/
def packetIn (target : SwitchAndPort) (front : Byte × Byte) (frame : List Byte) : Option PortPair :=
  match PacketParser.init front.1 target.port.toBitVec (some ⟨front.2, frame⟩) with
  | .error _ => none
  | .ok pkt =>
    match handlePacket target.dpid pkt {} with
    | .error _ => none
    | .ok r => r.2

end LinkDiscovery
