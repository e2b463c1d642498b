import Mathlib.Logic.Function.Basic
import Runos.Lib.Blocks
import Runos.Oxm.Field

/-!
# Packets that arrive (`PacketParser.hh`, `PacketParser.cc`)

`PacketParser` walks through the headers of a frame and binds a field type to the place where the
frame has it. `load` and `modify` read and write the bits of a field in place. A pointer into the
frame is an offset. Field types of other namespaces than `OPENFLOW_BASIC` are not modelled; the
pointers to the headers are kept only as far as the parser follows them.
-/

namespace Oxm

open Blocks OxmType

namespace PacketParser

/-- How a call can fail to return. -/
inductive Fault
  /-- `out_of_range`, by `access` -/
  | outOfRange
  /-- `invalid_argument`, by `bind` -/
  | invalidArgument
  /-- `nullptr_dereference`, by `checked_ptr` -/
  | nullptrDereference
  /-- an access outside a buffer -/
  | undefined
  deriving DecidableEq, Repr

/-! ## Headers

The offsets of the fields that are used, and the sizes. -/

namespace EthernetHdr

abbrev dst := 0
abbrev src := 6
abbrev type := 12
abbrev sizeof := 14
abbrev headerLength := sizeof

end EthernetHdr

namespace Dot1qHdr

abbrev dst := 0
abbrev src := 6
abbrev tci := 14
abbrev type := 16
abbrev sizeof := 18
abbrev headerLength := sizeof

end Dot1qHdr

namespace Ipv4Hdr

abbrev protocol := 9
abbrev src := 12
abbrev dst := 16
abbrev sizeof := 20

end Ipv4Hdr

namespace Ipv6Hdr

abbrev protocol := 6
abbrev src1 := 8
abbrev dst1 := 24
abbrev sizeof := 40
abbrev headerLength := sizeof

end Ipv6Hdr

namespace ArpHdr

abbrev htype := 0
abbrev ptype := 2
abbrev hlen := 4
abbrev plen := 5
abbrev oper := 6
abbrev sha := 8
abbrev spa := 14
abbrev tha := 18
abbrev tpa := 24
abbrev sizeof := 28

end ArpHdr

namespace TcpHdr

abbrev src := 0
abbrev dst := 2
abbrev sizeof := 20

end TcpHdr

namespace UdpHdr

abbrev src := 0
abbrev dst := 2
abbrev sizeof := 8

end UdpHdr

namespace IcmpHdr

abbrev type := 0
abbrev code := 1
abbrev sizeof := 4

end IcmpHdr

/-- A big-endian number of a header. -/
def uint (w : Nat) (data : List Byte) (p : Nat) : Except Fault (BitVec w) :=
  match read w data p with
  | none => .error .undefined
  | some v => .ok v

/-- `ipv4_hdr::header_length`; the low half of the first byte is `ihl`. -/
def ipv4HeaderLength (data : List Byte) (ipv4 : Nat) : Except Fault Nat := do
  let versionIhl ← uint 8 data ipv4
  .ok (versionIhl.toNat % 16 * 4)

/-- `checked_ptr::operator->` -/
def deref (ptr : Option Nat) : Except Fault Nat :=
  match ptr with
  | none => .error .nullptrDereference
  | some p => .ok p

/-! ## Bindings -/

/-- Where a field is. -/
inductive Pointer
  /-- the member `in_port` -/
  | inPort
  | data (offset : Nat)
  deriving DecidableEq, Repr

abbrev Bindings := OfbType → Option Pointer

def bind (bindings : Bindings) : List (OfbType × Pointer) → Except Fault Bindings
  | [] => .ok bindings
  | (id, ptr) :: rest =>
    if (bindings id).isSome then .error .invalidArgument
    else bind (Function.update bindings id (some ptr)) rest

/-! ## Parsing -/

def parseL4 (bindings : Bindings) (protocol : BitVec 8) (data dataLen : Nat) :
    Except Fault Bindings :=
  if protocol = 0x06 then
    if TcpHdr.sizeof ≤ dataLen then
      bind bindings [(.tcp_src, .data (data + TcpHdr.src)), (.tcp_dst, .data (data + TcpHdr.dst))]
    else
      .ok bindings
  else if protocol = 0x11 then
    if UdpHdr.sizeof ≤ dataLen then
      bind bindings [(.udp_src, .data (data + UdpHdr.src)), (.udp_dst, .data (data + UdpHdr.dst))]
    else
      .ok bindings
  else if protocol = 0x01 then
    if IcmpHdr.sizeof ≤ dataLen then
      bind bindings
        [(.icmp_type, .data (data + IcmpHdr.type)), (.icmp_code, .data (data + IcmpHdr.code))]
    else
      .ok bindings
  else
    .ok bindings

/-- The branch of `parse_l3` for IPv4. -/
def parseIpv4 (frame : List Byte) (bindings : Bindings) (data dataLen : Nat) :
    Except Fault Bindings :=
  if Ipv4Hdr.sizeof ≤ dataLen then do
    let bindings ← bind bindings [(.ip_proto, .data (data + Ipv4Hdr.protocol)),
      (.ipv4_src, .data (data + Ipv4Hdr.src)), (.ipv4_dst, .data (data + Ipv4Hdr.dst))]
    let headerLength ← ipv4HeaderLength frame data
    if headerLength < dataLen then do
      let protocol ← uint 8 frame (data + Ipv4Hdr.protocol)
      parseL4 bindings protocol (data + headerLength) (dataLen - headerLength)
    else
      .ok bindings
  else
    .ok bindings

/-- The branch for ARP. -/
def parseArp (frame : List Byte) (bindings : Bindings) (data dataLen : Nat) :
    Except Fault Bindings :=
  if ArpHdr.sizeof ≤ dataLen then do
    let htype ← uint 16 frame (data + ArpHdr.htype)
    let ptype ← uint 16 frame (data + ArpHdr.ptype)
    let hlen ← uint 8 frame (data + ArpHdr.hlen)
    let plen ← uint 8 frame (data + ArpHdr.plen)
    if htype ≠ 1 ∨ ptype ≠ 0x0800 ∨ hlen ≠ 6 ∨ plen ≠ 4 then
      .ok bindings
    else
      bind bindings [(.arp_op, .data (data + ArpHdr.oper)), (.arp_sha, .data (data + ArpHdr.sha)),
        (.arp_tha, .data (data + ArpHdr.tha)), (.arp_spa, .data (data + ArpHdr.spa)),
        (.arp_tpa, .data (data + ArpHdr.tpa))]
  else
    .ok bindings

/-- The branch for IPv6. The header is only pointed to when it is whole, but its length is asked for
in any case. -/
def parseIpv6 (frame : List Byte) (bindings : Bindings) (data dataLen : Nat) :
    Except Fault Bindings := do
  let ipv6 := if Ipv6Hdr.sizeof ≤ dataLen then some data else none
  let bindings ← match ipv6 with
    | none => .ok bindings
    | some ipv6 => bind bindings [(.ipv6_src, .data (ipv6 + Ipv6Hdr.src1)),
        (.ipv6_dst, .data (ipv6 + Ipv6Hdr.dst1)), (.ip_proto, .data (ipv6 + Ipv6Hdr.protocol))]
  let ipv6 ← deref ipv6
  if Ipv6Hdr.headerLength < dataLen then do
    let protocol ← uint 8 frame (ipv6 + Ipv6Hdr.protocol)
    parseL4 bindings protocol (data + Ipv6Hdr.headerLength) (dataLen - Ipv6Hdr.headerLength)
  else
    .ok bindings

def parseL3 (frame : List Byte) (bindings : Bindings) (ethType : BitVec 16) (data dataLen : Nat) :
    Except Fault Bindings :=
  if ethType = 0x0800 then parseIpv4 frame bindings data dataLen
  else if ethType = 0x0806 then parseArp frame bindings data dataLen
  else if ethType = 0x86dd then parseIpv6 frame bindings data dataLen
  else .ok bindings

def parseL2 (frame : List Byte) (bindings : Bindings) (dataLen : Nat) :
    Except Fault Bindings :=
  if EthernetHdr.sizeof ≤ dataLen then do
    let ethType ← uint 16 frame EthernetHdr.type
    let (bindings, type, len) ←
      if ethType = 0x8100 then
        if Dot1qHdr.sizeof ≤ dataLen then do
          let bindings ← bind bindings [(.eth_type, .data Dot1qHdr.type),
            (.eth_src, .data Dot1qHdr.src), (.eth_dst, .data Dot1qHdr.dst),
            (.vlan_vid, .data Dot1qHdr.tci)]
          let type ← uint 16 frame Dot1qHdr.type
          .ok (bindings, type, Dot1qHdr.headerLength)
        else
          .ok (bindings, 0, 0)
      else do
        let bindings ← bind bindings [(.eth_type, .data EthernetHdr.type),
          (.eth_src, .data EthernetHdr.src), (.eth_dst, .data EthernetHdr.dst)]
        .ok (bindings, ethType, EthernetHdr.headerLength)
    parseL3 frame bindings type len (dataLen - len)
  else
    .ok bindings

/-! ## The packet -/

/-- A piece of memory that fields are read from. -/
structure Buffer where
  /-- the byte in front of it, which reading the first field touches -/
  front : Byte
  bytes : List Byte
  deriving DecidableEq, Repr

namespace Buffer

/-- `bits(num_bits, buffer)`: the range of blocks starts one byte early, and `resize` drops it. -/
def bits (b : Buffer) (numBits offset : Nat) : Except Fault (BitVec numBits) :=
  let range := ((b.front :: b.bytes).drop offset).take (count numBits + 1)
  if range.length = count numBits + 1 then .ok (ofBlocks numBits range.reverse)
  else .error .undefined

/-- `bits::to_buffer` -/
def toBuffer {w : Nat} (b : Buffer) (offset : Nat) (v : BitVec w) : Except Fault Buffer :=
  match write b.bytes offset v with
  | none => .error .undefined
  | some bytes => .ok { b with bytes }

end Buffer

end PacketParser

structure PacketParser where
  data : PacketParser.Buffer
  inPort : PacketParser.Buffer
  bindings : PacketParser.Bindings

namespace PacketParser

/-- The constructor. `front` is the byte in front of the member `in_port`; a packet without data has
no buffer. -/
def init (front : Byte) (inPort : BitVec 32) (data : Option Buffer) : Except Fault PacketParser := do
  let bindings ← bind (fun _ => none) [(.in_port, .inPort)]
  let inPort : Buffer := ⟨front, (toBlocks inPort).reverse⟩
  match data with
  | none => .ok ⟨⟨0, []⟩, inPort, bindings⟩
  | some data => do
    let bindings ← parseL2 data.bytes bindings data.bytes.length
    .ok ⟨data, inPort, bindings⟩

variable {t : OfbType}

def access (p : PacketParser) (t : OfbType) : Except Fault Pointer :=
  match p.bindings t with
  | none => .error .outOfRange
  | some ptr => .ok ptr

/-- Reading at a pointer. -/
def readAt (p : PacketParser) (numBits : Nat) : Pointer → Except Fault (BitVec numBits)
  | .inPort => p.inPort.bits numBits 0
  | .data offset => p.data.bits numBits offset

/-- Writing at a pointer. -/
def writeAt {w : Nat} (p : PacketParser) (v : BitVec w) : Pointer → Except Fault PacketParser
  | .inPort => do
    let inPort ← p.inPort.toBuffer 0 v
    .ok { p with inPort }
  | .data offset => do
    let data ← p.data.toBuffer offset v
    .ok { p with data }

def load (p : PacketParser) (mask : Mask t) : Except Fault (Field t) := do
  let ptr ← p.access t
  let value ← p.readAt (nbits t) ptr
  .ok (.make value mask)

/-- `Packet::test` -/
def test (p : PacketParser) (need : Field t) : Except Fault Bool := do
  let f ← p.load need.mask
  .ok (f.agrees need)

def modify (p : PacketParser) (patch : Field t) : Except Fault PacketParser := do
  let f ← p.load (.exact t)
  let updated := f.rewrite patch
  let ptr ← p.access t
  p.writeAt updated.value ptr

def totalBytes (p : PacketParser) : Nat := p.data.bytes.length

/-- `serialize_to`: the bytes that are copied. -/
def serializeTo (p : PacketParser) (bufferSize : Nat) : List Byte :=
  p.data.bytes.take (min p.totalBytes bufferSize)

end PacketParser

end Oxm
