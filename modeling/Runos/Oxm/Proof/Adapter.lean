import Runos.Oxm.Adapter
import Runos.Oxm.Proof.PacketFields

/-!
# What is packed is unpacked

`pack` writes the header, the value and, unless the field is exact, the mask, each in big-endian
order, and nothing else (`pack_eq`). The header says whether there is a mask, and the field has
been cut down to its mask already; so `unpack` restores the adapter (`unpack_packed`,
`pack_unpack`).
-/

namespace Oxm

open Blocks OxmType
open PacketParser (Buffer uint)

variable {τ : Type} [WireType τ] {t : τ} {c : HeaderCodec} {front : Byte} {tail : List Byte}

/-! ## Masks -/

theorem Mask.ofBits_bits (m : Mask t) : Mask.ofBits m.bits = some m := dif_pos m.ok

theorem Field.make_self (f : Field t) : Field.make f.value f.mask = f := Field.ext f.covered rfl

theorem Field.mask_of_isExact {f : Field t} (h : f.isExact = true) : f.mask = .exact t :=
  Mask.ext (eq_of_beq h)

namespace FluidOXMAdapter

open Adapter

/-! ## Packing -/

/-- The bytes after the header. -/
def body (f : Field t) : List Byte :=
  bigEndian f.value ++ if f.isExact then [] else bigEndian f.mask.bits

/-- The bytes of a packed field. -/
def packed (c : HeaderCodec) (f : Field t) : List Byte :=
  bigEndian (c.pack (make f).header) ++ body f

theorem length_body (f : Field t) :
    (body f).length = nbytes t * if f.isExact then 1 else 2 := by
  have hn : count (nbits t) = nbytes t := rfl
  unfold body
  split
  · rw [List.append_nil, length_bigEndian, hn]
    omega
  · rw [List.length_append, length_bigEndian, length_bigEndian, hn]
    omega

theorem length_packed (c : HeaderCodec) (f : Field t) :
    (packed c f).length = headerLen + (body f).length := by
  rw [packed, List.length_append, length_bigEndian]
  rfl

variable (front) in
/-- Writing after what has been written. -/
theorem toBuffer_append {w : Nat} (before rest : List Byte) {o : Nat} (ho : o = before.length)
    (hroom : count w ≤ rest.length) (v : BitVec w) :
    (⟨front, before ++ rest⟩ : Buffer).toBuffer o v =
      .ok ⟨front, before ++ bigEndian v ++ rest.drop (count w)⟩ := by
  simp only [Buffer.toBuffer, write_append ho hroom]

/-- **What is written**: the packed field, and nothing after it. -/
theorem pack_eq (c : HeaderCodec) (f : Field t) {b : Buffer}
    (hroom : (packed c f).length ≤ b.bytes.length) :
    (make f).pack c b = .ok ⟨b.front, packed c f ++ b.bytes.drop (packed c f).length⟩ := by
  have hlen := length_packed c f
  have hbody := length_body f
  have hheader : count 32 = headerLen := rfl
  have hn : count (nbits t) = nbytes t := rfl
  have hfits : nbytes t ≤ (body f).length := by
    rw [hbody]
    exact Nat.le_mul_of_pos_right _ (by split <;> decide)
  have h₁ : b.toBuffer 0 (c.pack (make f).header) =
      .ok ⟨b.front, bigEndian (c.pack (make f).header) ++ b.bytes.drop headerLen⟩ :=
    toBuffer_append b.front [] b.bytes rfl (show count 32 ≤ b.bytes.length by omega) _
  have h₂ := toBuffer_append b.front _ (b.bytes.drop headerLen)
    (length_bigEndian (c.pack (make f).header)).symm (by rw [List.length_drop]; omega) f.value
  have hvalue : (make f).field = f := rfl
  simp only [pack, h₁, hvalue, Bind.bind, Except.bind]
  rw [hheader] at h₂
  have hdrop : (b.bytes.drop headerLen).drop (count (nbits t)) =
      b.bytes.drop (headerLen + nbytes t) := List.drop_drop
  simp only [h₂, hdrop]
  by_cases hx : f.isExact = true
  · have hpacked : packed c f = bigEndian (c.pack (make f).header) ++ bigEndian f.value := by
      rw [packed, body, if_pos hx, List.append_nil]
    rw [if_pos hx, Nat.mul_one] at hbody
    rw [if_pos hx, hlen, hbody, hpacked]
  · have hpacked : packed c f =
        bigEndian (c.pack (make f).header) ++ bigEndian f.value ++ bigEndian f.mask.bits := by
      rw [packed, body, if_neg hx, List.append_assoc]
    rw [if_neg hx] at hbody
    -- the mask follows the value
    have hplace : headerLen + nbytes t =
        (bigEndian (c.pack (make f).header) ++ bigEndian f.value).length := by
      rw [List.length_append, length_bigEndian, length_bigEndian, hheader, hn]
    have h₃ := toBuffer_append b.front _ (b.bytes.drop (headerLen + nbytes t))
      hplace (by rw [List.length_drop]; omega) f.mask.bits
    have hend : (b.bytes.drop (headerLen + nbytes t)).drop (count (nbits t)) =
        b.bytes.drop (headerLen + nbytes t * 2) := by
      rw [List.drop_drop, hn]
      congr 1
      omega
    rw [if_neg hx, h₃, hend, hlen, hbody, hpacked]

/-! ## Unpacking -/

variable (front) in
theorem bits_append {w : Nat} {before : List Byte} {o : Nat} (ho : o = before.length)
    (v : BitVec w) (rest : List Byte) :
    (⟨front, before ++ bigEndian v ++ rest⟩ : Buffer).bits w o = .ok v :=
  Buffer.bits_eq (read_append ho v rest)

/-- The header that is read is the one that was written. -/
theorem unpack_header (hc : c.RoundTrips) (f : Field t) :
    c.unpack (c.pack (make f).header) = (make f).header := by
  refine hc _ ?_
  show ((WireType.id t).setWidth 8).toNat < 128
  have := (WireType.id t).isLt
  rw [BitVec.toNat_setWidth]
  omega

variable (front) in
/-- The field after a header. -/
theorem readField_packed {before : List Byte} (hlen : headerLen = before.length) (f : Field t)
    (tail : List Byte) :
    readField t (!f.isExact) ⟨front, before ++ body f ++ tail⟩ = .ok f := by
  have hn : count (nbits t) = nbytes t := rfl
  by_cases hx : f.isExact = true
  · have hvalue := bits_append front hlen f.value tail
    have hbody : body f = bigEndian f.value := by rw [body, if_pos hx, List.append_nil]
    have hf : Field.make f.value (.exact t) = f := by
      rw [← Field.mask_of_isExact hx, Field.make_self]
    rw [readField, hbody, hvalue, hx]
    exact congrArg Except.ok hf
  · have hbody : before ++ body f ++ tail =
        before ++ bigEndian f.value ++ (bigEndian f.mask.bits ++ tail) := by
      simp only [body, if_neg hx, List.append_assoc]
    have hvalue := bits_append front hlen f.value (bigEndian f.mask.bits ++ tail)
    have hplace : headerLen + nbytes t = (before ++ bigEndian f.value).length := by
      rw [List.length_append, length_bigEndian, hn, hlen]
    have hmask := bits_append front hplace f.mask.bits tail
    rw [List.append_assoc] at hmask
    rw [Bool.not_eq_true] at hx
    simp only [readField, hbody, hvalue, hmask, hx, Bool.not_false, if_true, Bind.bind,
      Except.bind, Except.mapError, Mask.ofBits_bits, Field.make_self]

/-- **What is packed is unpacked**, whatever the adapter held before. -/
theorem unpack_packed (hc : c.RoundTrips) (f : Field t) (a : FluidOXMAdapter t)
    (tail : List Byte) : a.unpack c ⟨front, packed c f ++ tail⟩ = .ok (make f) := by
  have hfield := readField_packed front (length_bigEndian (c.pack (make f).header)).symm
    f tail
  have hheader : uint 32 (packed c f ++ tail) 0 = .ok (c.pack (make f).header) := by
    have hr := read_append (show 0 = ([] : List Byte).length from rfl) (c.pack (make f).header)
      (body f ++ tail)
    rw [List.nil_append, ← List.append_assoc] at hr
    rw [uint, packed, hr]
  have hhas : (make f).header.hasMask = !f.isExact := rfl
  simp only [unpack, hheader, unpack_header hc, hhas, Bind.bind, Except.bind, Except.mapError]
  rw [packed, hfield]
  rfl

/-- The bytes that `pack` needs, as the constructor computes them. -/
def packedLength (f : Field t) : Nat := headerLen + nbytes t * if f.isExact then 1 else 2

theorem length_packed_eq (c : HeaderCodec) (f : Field t) :
    (packed c f).length = packedLength f := by rw [length_packed, length_body, packedLength]

/-- **Packing and unpacking a field**: in any buffer with room, the value and the mask are written
after the header and nothing else is, an adapter of the type unpacks the field, and packing that
field again gives the same bytes. -/
theorem pack_roundtrip (hc : c.RoundTrips) (f : Field t) (a : FluidOXMAdapter t) {b : Buffer}
    (hroom : packedLength f ≤ b.bytes.length) :
    ∃ b', (make f).pack c b = .ok b' ∧ b'.front = b.front ∧
      b'.bytes = bigEndian (c.pack (make f).header) ++ body f ++ b.bytes.drop (packedLength f) ∧
      (body f).length = nbytes t * (if f.isExact then 1 else 2) ∧
      ∃ a', a.unpack c b' = .ok a' ∧ a'.field = f ∧ a' = make a'.field ∧
        ∀ b₂ : Buffer, packedLength f ≤ b₂.bytes.length → ∃ b₂',
          (make a'.field).pack c b₂ = .ok b₂' ∧
            b₂'.bytes.take (packedLength f) = b'.bytes.take (packedLength f) := by
  have hlen := length_packed_eq c f
  have hpack := pack_eq c f (hlen ▸ hroom)
  refine ⟨_, hpack, rfl, by rw [hlen]; rfl, length_body f, make f, unpack_packed hc f a _, rfl, rfl,
    fun b₂ hroom₂ => ⟨_, pack_eq c f (hlen ▸ hroom₂), ?_⟩⟩
  rw [← hlen, List.take_left, List.take_left]

/-- The header as OpenFlow has it: the class, the field, whether there is a mask, and the length. -/
def openflow : HeaderCodec where
  pack h := h.oxmClass ++ (h.field.setWidth 7 ++ (BitVec.ofBool h.hasMask ++ h.length))
  unpack v := {
    oxmClass := v.extractLsb' 16 16
    field := (v.extractLsb' 9 7).setWidth 8
    hasMask := v.getLsbD 8
    length := v.extractLsb' 0 8 }

theorem openflow_roundTrips : openflow.RoundTrips := by
  intro h hlt
  obtain ⟨oxmClass, field, hasMask, length⟩ := h
  have hfield : (field.setWidth 7).setWidth 8 = field := by
    apply BitVec.eq_of_toNat_eq
    have : field.toNat < 128 := hlt
    simp only [BitVec.toNat_setWidth]
    omega
  simp only [openflow, OXMTLV.mk.injEq]
  refine ⟨?_, ?_, ?_, ?_⟩
  · apply BitVec.eq_of_getLsbD_eq
    intro i hi
    rw [BitVec.getLsbD_extractLsb', BitVec.getLsbD_append, decide_eq_true hi, Bool.true_and,
      if_neg (by omega), Nat.add_sub_cancel_left]
  · refine Eq.trans (congrArg (BitVec.setWidth 8) ?_) hfield
    apply BitVec.eq_of_getLsbD_eq
    intro i hi
    rw [BitVec.getLsbD_extractLsb', BitVec.getLsbD_append, decide_eq_true hi, Bool.true_and,
      if_pos (by omega), BitVec.getLsbD_append, if_neg (by omega), Nat.add_sub_cancel_left]
  · rw [BitVec.getLsbD_append, if_pos (by decide), BitVec.getLsbD_append, if_pos (by decide),
      BitVec.getLsbD_append, if_neg (by decide)]
    cases hasMask <;> rfl
  · apply BitVec.eq_of_getLsbD_eq
    intro i hi
    rw [BitVec.getLsbD_extractLsb', decide_eq_true hi, Bool.true_and, Nat.zero_add,
      BitVec.getLsbD_append, if_pos (by omega), BitVec.getLsbD_append, if_pos (by omega),
      BitVec.getLsbD_append, if_pos hi]

/-- The addresses of one vendor. -/
def vendor : Field OfbType.eth_dst := .make 0x0a0b0c000000 ⟨0xffffff000000, .inl rfl⟩

theorem pack_roundtrip_vendor :
    ∃ b' a', (make vendor).pack openflow ⟨0, List.replicate 20 0xee⟩ = .ok b' ∧
      b'.bytes = [0x80, 0, 0x07, 0x0c, 0x0a, 0x0b, 0x0c, 0, 0, 0, 0xff, 0xff, 0xff, 0, 0, 0,
        0xee, 0xee, 0xee, 0xee] ∧
      (make (.any OfbType.eth_dst)).unpack openflow b' = .ok a' ∧ a'.field = vendor := by
  obtain ⟨b', hpack, -, hbytes, -, a', hunpack, hfield, -⟩ :=
    pack_roundtrip openflow_roundTrips vendor (make (.any OfbType.eth_dst))
      (b := ⟨0, List.replicate 20 0xee⟩) (by decide)
  exact ⟨b', a', hpack, hbytes.trans (by decide), hunpack, hfield⟩

end FluidOXMAdapter

end Oxm
