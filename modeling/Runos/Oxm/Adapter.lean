import Runos.Oxm.PacketParser

/-!
# Fields of OpenFlow messages (`FluidOXMAdapter.hh`, `FluidOXMAdapter.cc`)

`FluidOXMAdapter` writes a field into a message, and reads it back. The four bytes of the header are
packed and unpacked by the library, which is a parameter (`HeaderCodec`). The prerequisites of a field
(`create_oxm_req`) and the comparison with other entries of a match are not modelled.
-/

namespace Oxm

open Blocks OxmType
open PacketParser (Buffer uint)

/-- What the header of a field of a message says about its type. -/
class WireType (τ : Type) extends OxmType τ where
  ns : τ → BitVec 16
  id : τ → BitVec 7

instance : WireType OfbType where
  ns _ := 0x8000
  id
    | .in_port => 0
    | .eth_dst => 3
    | .eth_src => 4
    | .eth_type => 5
    | .vlan_vid => 6
    | .ip_proto => 10
    | .ipv4_src => 11
    | .ipv4_dst => 12
    | .tcp_src => 13
    | .tcp_dst => 14
    | .udp_src => 15
    | .udp_dst => 16
    | .icmp_type => 19
    | .icmp_code => 20
    | .arp_op => 21
    | .arp_spa => 22
    | .arp_tpa => 23
    | .arp_sha => 24
    | .arp_tha => 25
    | .ipv6_src => 26
    | .ipv6_dst => 27

variable {τ : Type} [WireType τ] {t : τ}

/-- `type::nbytes` -/
def nbytes (t : τ) : Nat := nbits t / 8 + if nbits t % 8 = 0 then 0 else 1

/-- The members of `OXMTLV`. -/
structure OXMTLV where
  oxmClass : BitVec 16
  field : BitVec 8
  hasMask : Bool
  length : BitVec 8
  deriving DecidableEq, Repr

/-- `OXMTLV::pack` and `OXMTLV::unpack`: the bytes of a header, as a big-endian number. -/
structure HeaderCodec where
  pack : OXMTLV → BitVec 32
  unpack : BitVec 32 → OXMTLV

/-- What is packed is unpacked; a field number has seven bits. -/
def HeaderCodec.RoundTrips (c : HeaderCodec) : Prop :=
  ∀ h : OXMTLV, h.field.toNat < 128 → c.unpack (c.pack h) = h

namespace Adapter

/-- How a call can fail to return. -/
inductive Fault
  | access (fault : PacketParser.Fault)
  /-- `bad_mask`, by `mask_holder` -/
  | badMask
  deriving DecidableEq, Repr

abbrev headerLen := 4

end Adapter

structure FluidOXMAdapter (t : τ) where
  header : OXMTLV
  field : Field t

namespace FluidOXMAdapter

open Adapter

/-- The constructor. -/
def make (f : Field t) : FluidOXMAdapter t where
  header := {
    oxmClass := WireType.ns t
    field := (WireType.id t).setWidth 8
    hasMask := !f.isExact
    length := BitVec.ofNat 8 (nbytes t * if f.isExact then 1 else 2) }
  field := f

def pack (c : HeaderCodec) (a : FluidOXMAdapter t) (buffer : Buffer) :
    Except PacketParser.Fault Buffer := do
  let buffer ← buffer.toBuffer 0 (c.pack a.header)
  let buffer ← buffer.toBuffer headerLen a.field.value
  if a.field.isExact then .ok buffer
  else buffer.toBuffer (headerLen + nbytes t) a.field.mask.bits

/-- The field of a message; a mask that the type does not allow is refused. -/
def readField (t : τ) (hasMask : Bool) (buffer : Buffer) : Except Fault (Field t) := do
  let valueBits ← (buffer.bits (nbits t) headerLen).mapError .access
  if hasMask then do
    let maskBits ← (buffer.bits (nbits t) (headerLen + nbytes t)).mapError .access
    match Mask.ofBits maskBits with
    | none => .error .badMask
    | some mask => .ok (.make valueBits mask)
  else
    .ok (.make valueBits (.exact t))

/-- `unpack`; the members of the adapter are overwritten. -/
def unpack (c : HeaderCodec) (_ : FluidOXMAdapter t) (buffer : Buffer) :
    Except Fault (FluidOXMAdapter t) := do
  let header ← (uint 32 buffer.bytes 0).mapError .access
  let header := c.unpack header
  let field ← readField t header.hasMask buffer
  .ok ⟨header, field⟩

end FluidOXMAdapter

/-- An adapter for each stored field, in the order of the set. -/
def adapters (s : FieldSet τ) : Multiset (Σ t : τ, FluidOXMAdapter t) :=
  s.entries.map fun f => ⟨f.1, .make f.2⟩

/-- `make_of_match` -/
def makeOfMatch (fieldMatch : FieldSet τ) : Multiset (Σ t : τ, FluidOXMAdapter t) :=
  adapters fieldMatch

/-- The set-field actions of `FlowImpl::actions`. -/
def setFieldActions (mods : FieldSet τ) : Multiset (Σ t : τ, FluidOXMAdapter t) :=
  adapters mods

end Oxm
