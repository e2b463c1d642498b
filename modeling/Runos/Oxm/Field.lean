import Mathlib.Data.Finmap

/-!
# OXM masks, fields, field sets and packets

The operators of `oxm/field.hh` and the containers that use them. `Mask t` and `Field t` are the
typed forms (`mask<T>`, `field<T>`); the erased forms `mask<>`, `field<>` are the pairs with their
type, so that the run-time check of `binop_type` is the index. A `Field` carries what its
constructor establishes (`m_value &= m_mask`), a `Mask` what `mask_holder` throws on
(`bad_mask`). A `FieldSet` is `oxm::field_set`, an unordered set keyed by the type. A `Packet` is
what `Packet::load`, `test` and `modify` read and write: a partial map from types to values, where
a missing field is the `std::out_of_range` of `PacketParser::access`.
-/

namespace Oxm

/-- `oxm::type`: a field type has a width and may allow partial masks. -/
class OxmType (τ : Type) where
  nbits : τ → Nat
  maskable : τ → Bool

open OxmType

variable {τ : Type} [OxmType τ] {t : τ}

/-- The bits of a value of type `t` (`bits<>` of the type's width). -/
abbrev Bits (t : τ) : Type := BitVec (nbits t)

-- named once: every membership of a value in a list of keys is decided with it
instance : LawfulBEq (Bits t) := inferInstance

/-- `mask<T>`; a type that is not maskable only has the empty and the full mask. -/
structure Mask (t : τ) where
  bits : Bits t
  ok : maskable t = true ∨ bits = 0#_ ∨ bits = BitVec.allOnes _

namespace Mask

@[ext] theorem ext {l r : Mask t} (h : l.bits = r.bits) : l = r := by
  cases l; cases r; simpa using h

instance : DecidableEq (Mask t) := fun l r =>
  decidable_of_iff (l.bits = r.bits) ⟨ext, congrArg _⟩

/-- The exact match constructor. -/
def exact (t : τ) : Mask t := ⟨BitVec.allOnes _, .inr (.inr rfl)⟩

/-- `operator&` of two masks. -/
def and (l r : Mask t) : Mask t where
  bits := l.bits &&& r.bits
  ok := by rcases l.ok, r.ok with ⟨h | h | h, h' | h' | h'⟩ <;> simp [h, h']

/-- `operator|` of two masks. -/
def or (l r : Mask t) : Mask t where
  bits := l.bits ||| r.bits
  ok := by rcases l.ok, r.ok with ⟨h | h | h, h' | h' | h'⟩ <;> simp [h, h']

/-- `operator~` of a mask. -/
def compl (m : Mask t) : Mask t where
  bits := ~~~m.bits
  ok := by rcases m.ok with h | h | h <;> simp [h]

/-- `mask::wildcard`. -/
def wildcard (m : Mask t) : Bool := m.bits == 0#_

/-- `mask::exact`. -/
def isExact (m : Mask t) : Bool := m.bits == BitVec.allOnes _

/-- The checks of `mask_holder`; none is `bad_mask`. -/
def ofBits (b : Bits t) : Option (Mask t) :=
  if h : maskable t = true ∨ b = 0#_ ∨ b = BitVec.allOnes _ then some ⟨b, h⟩ else none

end Mask

/-- `field<T>`: a value under a mask. -/
structure Field (t : τ) where
  value : Bits t
  mask : Mask t
  covered : value &&& mask.bits = value

namespace Field

@[ext] theorem ext {l r : Field t} (hv : l.value = r.value) (hm : l.mask = r.mask) : l = r := by
  cases l; cases r; cases hv; cases hm; rfl

instance : DecidableEq (Field t) := fun l r =>
  decidable_of_iff (l.value = r.value ∧ l.mask = r.mask)
    ⟨fun h => ext h.1 h.2, fun h => ⟨congrArg _ h, congrArg _ h⟩⟩

/-- The main constructor: the value is cut down to the mask. -/
def make (v : Bits t) (m : Mask t) : Field t := ⟨v &&& m.bits, m, by rw [BitVec.and_assoc]; simp⟩

/-- The wildcard constructor. -/
def any (t : τ) : Field t := make 0#_ ⟨0#_, .inr (.inl rfl)⟩

/-- `field & mask` (widen). -/
def widen (f : Field t) (m : Mask t) : Field t := make f.value (f.mask.and m)

/-- `field & field`: the two agree on the bits both of them fix. -/
def agrees (l r : Field t) : Bool :=
  make l.value (l.mask.and r.mask) == make r.value (l.mask.and r.mask)

/-- `field >> field` (rewrite): the right operand's bits over the left one's. -/
def rewrite (l r : Field t) : Field t :=
  make ((l.value &&& ~~~r.mask.bits) ||| r.value) (l.mask.or r.mask)

/-- `field::wildcard`. -/
def wildcard (f : Field t) : Bool := f.mask.wildcard

/-- `field::exact`. -/
def isExact (f : Field t) : Bool := f.mask.isExact

end Field

/-! ## Packets -/

/-- A packet: the value of each field type it carries. -/
def Packet (τ : Type) [OxmType τ] : Type := (t : τ) → Option (Bits t)

namespace Packet

/-- `Packet::load`; none is `std::out_of_range`. -/
def load (p : Packet τ) (m : Mask t) : Option (Field t) := (p t).map fun v => .make v m

/-- `Packet::test`. -/
def test (p : Packet τ) (need : Field t) : Option Bool :=
  (p.load need.mask).map fun f => f.agrees need

/-- `PacketParser::modify`: the whole field is read, rewritten and stored. -/
def modify [DecidableEq τ] (p : Packet τ) (patch : Field t) : Option (Packet τ) :=
  (p.load (.exact t)).map fun f =>
    Function.update p t (some (f.rewrite patch).value)

end Packet

/-! ## Field sets -/

/-- `oxm::field_set`: at most one field for each type. -/
abbrev FieldSet (τ : Type) [OxmType τ] : Type := Finmap fun t : τ => Field t

namespace FieldSet

variable [DecidableEq τ]

/-- `field_set::load`: an absent type is a wildcard. -/
def load (s : FieldSet τ) (m : Mask t) : Field t :=
  match s.lookup t with
  | none => (Field.any t).widen m
  | some f => f.widen m

/-- `field_set::modify`: an absent type is emplaced, then the entry is rewritten by the patch. -/
def modify (s : FieldSet τ) (patch : Field t) : FieldSet τ :=
  s.insert t (((s.lookup t).getD patch).rewrite patch)

/-- `field_set::erase`: an entry that becomes a wildcard is dropped. -/
def erase (s : FieldSet τ) (m : Mask t) : FieldSet τ :=
  match s.lookup t with
  | none => s
  | some f =>
    if (f.widen m.compl).wildcard then Finmap.erase t s else s.insert t (f.widen m.compl)

/-- `field_set::clear` -/
def clear (_ : FieldSet τ) : FieldSet τ := ∅

/-- `field_set & packet`: every entry is tested. -/
def admits (s : FieldSet τ) (p : Packet τ) : Bool := ∀ e ∈ s.entries, p.test e.2 = some true

end FieldSet

/-- The packet with the fields of the set written over it (a set-field action for each). -/
def Packet.rewriteBy [DecidableEq τ] (p : Packet τ) (mods : FieldSet τ) : Packet τ := fun t =>
  match mods.lookup t with
  | none => p t
  | some f => (p t).map fun v => ((Field.make v (.exact t)).rewrite f).value

/-! ## The basic OpenFlow types -/

/-- The types of `oxm/openflow_basic.hh`. -/
inductive OfbType
  | in_port | eth_type | eth_src | eth_dst | ip_proto | ipv4_src | ipv4_dst
  | tcp_src | tcp_dst | udp_src | udp_dst | arp_spa | arp_tpa | arp_sha | arp_tha | arp_op
  | vlan_vid | ipv6_src | ipv6_dst | icmp_type | icmp_code
  deriving DecidableEq, Repr

instance : OxmType OfbType where
  nbits
    | .in_port | .ipv4_src | .ipv4_dst | .arp_spa | .arp_tpa => 32
    | .eth_src | .eth_dst | .arp_sha | .arp_tha => 48
    | .eth_type | .tcp_src | .tcp_dst | .udp_src | .udp_dst | .arp_op => 16
    | .ip_proto | .icmp_type | .icmp_code => 8
    | .vlan_vid => 12
    | .ipv6_src | .ipv6_dst => 128
  maskable
    | .eth_src | .eth_dst | .ipv4_src | .ipv4_dst | .arp_spa | .arp_tpa | .arp_sha | .arp_tha
    | .ipv6_src | .ipv6_dst => true
    | _ => false

end Oxm
