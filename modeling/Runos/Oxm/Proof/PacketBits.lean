import Runos.Oxm.Proof.PacketFields

/-!
# The bits that a rewritten field touches

`modify` writes back whole bytes. The bits of the field get what the patch says, or keep what they
were; the bits of the first byte in front of the field become zero (`modify_bits`). Only the VLAN
identifier has such bits: its 12 bits follow the priority of the tag. So a patch touches the bits it
selects, and no other, unless the field is the VLAN identifier and the frame has a priority
(`modify_only_selected`).
-/

namespace Oxm

namespace PacketParser

open Blocks OxmType

variable {t : OfbType} {ptr : Pointer} {p p' : PacketParser} {patch : Field t} {o i k j size : Nat}
  {frame frame' : List Byte} {front : Byte} {inPort : BitVec 32} {packet : Option Buffer}

/-- Bit `j` of byte `k`. -/
def bitOf (frame : List Byte) (k j : Nat) : Bool := (frame.getD k 0).getLsbD j

/-- Bit `j` of byte `k` of the frame is bit `i` of the field at the pointer, and the patch selects
it. -/
def Selects (patch : Field t) (ptr : Pointer) (k j i : Nat) : Prop :=
  patch.mask.bits.getLsbD i = true ∧ ∃ o, ptr = .data o ∧ k = byteOf (nbits t) o i ∧ j = i % 8

/-- The selected bits have been replaced by those of the patch; all others are as before. -/
def OnlySelected (patch : Field t) (ptr : Pointer) (frame frame' : List Byte) : Prop :=
  frame'.length = frame.length ∧ ∀ k j, j < 8 →
    (∀ i, Selects patch ptr k j i → bitOf frame' k j = patch.value.getLsbD i) ∧
    ((∀ i, ¬ Selects patch ptr k j i) → bitOf frame' k j = bitOf frame k j)

/-- The tag has no priority, and is not marked as eligible for dropping. -/
def PriorityZero (frame : List Byte) : Prop := frame.getD Dot1qHdr.tci 0 >>> 4 = 0#8

instance (frame : List Byte) : Decidable (PriorityZero frame) :=
  inferInstanceAs (Decidable (_ = _))

/-! ## Serialization -/

theorem serializeTo_totalBytes (p : PacketParser) : p.serializeTo p.totalBytes = p.data.bytes := by
  rw [serializeTo, Nat.min_self]
  exact List.take_length

/-- A smaller buffer gets the first bytes. -/
theorem serializeTo_eq_take (p : PacketParser) (size : Nat) :
    p.serializeTo size = (p.serializeTo p.totalBytes).take size := by
  rw [serializeTo_totalBytes, serializeTo, totalBytes, Nat.min_comm, ← List.take_take,
    List.take_length]

/-! ## One write -/

theorem selects_lt (h : Selects patch ptr k j i) : i < nbits t := by
  by_contra hle
  have hbit := h.1
  rw [BitVec.getLsbD_of_ge _ _ (Nat.le_of_not_lt hle)] at hbit
  cases hbit

theorem get_eq_some (h : patch.mask.bits.getLsbD i = true) :
    patch.get i = some (patch.value.getLsbD i) := if_pos h

theorem get_eq_none (h : ¬ patch.mask.bits.getLsbD i = true) : patch.get i = none := if_neg h

/-- A bit of the bytes that were written, as a bit of the field. -/
theorem selects_byteOf (hi : i < 8 * count (nbits t)) {i' : Nat} :
    Selects patch (.data o) (byteOf (nbits t) o i) (i % 8) i' ↔
      i' = i ∧ patch.mask.bits.getLsbD i = true := by
  constructor
  · intro h
    have hlt := selects_lt h
    obtain ⟨hm, o', ho, hbyte, hbit⟩ := h
    cases ho
    cases byteOf_inj (lt_bits hlt) hi hbyte.symm hbit.symm
    exact ⟨rfl, hm⟩
  · rintro ⟨rfl, hm⟩
    exact ⟨hm, o, rfl, rfl, rfl⟩

/-- **What is written**: what the patch says, or what was read; zeros in front of the field. -/
theorem modify_bits {v : Bits t} (hr : read (nbits t) frame o = some v)
    (hw : write frame o ((Field.make v (.exact t)).rewrite patch).value = some frame')
    (hi : i < 8 * count (nbits t)) :
    bitOf frame' (byteOf (nbits t) o i) (i % 8) =
      if i < nbits t then (patch.get i).getD (bitOf frame (byteOf (nbits t) o i) (i % 8))
      else false := by
  obtain ⟨-, -, hbits⟩ := write_spec hw
  unfold bitOf
  rw [hbits i hi]
  split
  · rename_i hlt
    rw [Packet.getLsbD_rewrite_exact, getLsbD_read hr hlt]
  · rename_i hle
    exact BitVec.getLsbD_of_ge _ _ (Nat.le_of_not_lt hle)

/-- Only the selected bits are touched, exactly when the bits in front of the field were zero. -/
theorem onlySelected_write {v : Bits t} (hr : read (nbits t) frame o = some v)
    (hw : write frame o ((Field.make v (.exact t)).rewrite patch).value = some frame') :
    OnlySelected patch (.data o) frame frame' ↔
      ∀ i, nbits t ≤ i → i < 8 * count (nbits t) →
        bitOf frame (byteOf (nbits t) o i) (i % 8) = false := by
  obtain ⟨hlen, hkeep, -⟩ := write_spec hw
  constructor
  · intro honly i hle hi
    have hnot : ∀ i', ¬ Selects patch (.data o) (byteOf (nbits t) o i) (i % 8) i' := by
      intro i' hs
      have hlt := selects_lt hs
      obtain ⟨rfl, -⟩ := (selects_byteOf hi).1 hs
      omega
    have hsame := (honly.2 _ _ (Nat.mod_lt i (by decide))).2 hnot
    rw [modify_bits hr hw hi, if_neg (by omega)] at hsame
    exact hsame.symm
  · intro hzero
    refine ⟨hlen, fun k j hj => ?_⟩
    by_cases hk : o ≤ k ∧ k < o + count (nbits t)
    · -- a byte of the field
      obtain ⟨i, hi, rfl, rfl⟩ := exists_byteOf hk hj
      rw [modify_bits hr hw hi]
      constructor
      · intro i' hs
        have hlt := selects_lt hs
        obtain ⟨rfl, hm⟩ := (selects_byteOf hi).1 hs
        rw [if_pos hlt, get_eq_some hm]
        rfl
      · intro hnot
        split
        · have hm : ¬ patch.mask.bits.getLsbD i = true :=
            fun hm => hnot i ((selects_byteOf hi).2 ⟨rfl, hm⟩)
          rw [get_eq_none hm]
          rfl
        · exact (hzero i (by omega) hi).symm
    · -- a byte beside it
      refine ⟨fun i hs => ?_, fun _ => ?_⟩
      · have hb := byteOf_bounds o (lt_bits (selects_lt hs))
        obtain ⟨-, o', ho, rfl, -⟩ := hs
        cases ho
        exact absurd hb hk
      · unfold bitOf
        rw [hkeep k (by omega)]

/-! ## The fields that share a byte -/

/-- All types but the VLAN identifier fill their bytes. -/
theorem nbits_eq (h : t ≠ .vlan_vid) : nbits t = 8 * count (nbits t) := by
  cases t <;> first | rfl | exact absurd rfl h

theorem mem_fields_vlan_vid {h : Header} (hf : (OfbType.vlan_vid, o) ∈ h.fields) :
    h = .dot1q ∧ o = Dot1qHdr.tci := by
  cases h <;> simp [Header.fields] at hf
  exact ⟨rfl, hf⟩

/-- A tagged header is the first one. -/
theorem mem_headers_dot1q {base : Nat} (h : (Header.dot1q, base) ∈ headers frame) : base = 0 := by
  unfold headers at h
  split at h
  · cases h
  · rcases List.mem_cons.1 h with heq | hm
    · cases heq
      rfl
    · rcases (l3Headers_in hm).2 with ⟨hlayer, -⟩ | ⟨hl4, -⟩ | ⟨hl4, -⟩
      · cases hlayer
      · cases (l4Headers_in hl4).1
      · cases (l4Headers_in hl4).1

/-- The VLAN identifier is in the tag. -/
theorem Parsed.vlan_vid (hp : Parsed inPort packet p) (h : p.bindings .vlan_vid = some ptr) :
    ptr = .data Dot1qHdr.tci := by
  rcases (hp.bound _ _).1 h with ⟨hport, -⟩ | ⟨⟨l, base⟩, hm, hb⟩
  · cases hport
  · obtain ⟨o, hf, rfl⟩ := Header.mem_bound.1 hb
    obtain ⟨rfl, rfl⟩ := mem_fields_vlan_vid hf
    rw [mem_headers_dot1q hm, Nat.zero_add]

/-- The bits in front of the VLAN identifier. -/
theorem priorityZero_iff : PriorityZero frame ↔
    ∀ i, nbits OfbType.vlan_vid ≤ i → i < 8 * count (nbits OfbType.vlan_vid) →
      bitOf frame (byteOf (nbits OfbType.vlan_vid) Dot1qHdr.tci i) (i % 8) = false := by
  have hcount : count (nbits OfbType.vlan_vid) = 2 := rfl
  have hnbits : nbits OfbType.vlan_vid = 12 := rfl
  constructor
  · intro hz i hle hi
    have hbyte : byteOf (nbits OfbType.vlan_vid) Dot1qHdr.tci i = Dot1qHdr.tci := by
      unfold byteOf
      omega
    have hbit : 4 + (i - 12) = i % 8 := by omega
    have hget := congrArg (fun b : Byte => b.getLsbD (i - 12)) hz
    simp only [BitVec.getLsbD_ushiftRight, hbit, BitVec.getLsbD_zero] at hget
    rw [hbyte]
    exact hget
  · intro hbits
    apply BitVec.eq_of_getLsbD_eq
    intro j hj
    rw [BitVec.getLsbD_ushiftRight, BitVec.getLsbD_zero]
    by_cases hlt : j < 4
    · have hbit := hbits (12 + j) (by omega) (by omega)
      have hbyte : byteOf (nbits OfbType.vlan_vid) Dot1qHdr.tci (12 + j) = Dot1qHdr.tci := by
        unfold byteOf
        omega
      have hmod : (12 + j) % 8 = 4 + j := by omega
      rw [hbyte, hmod] at hbit
      exact hbit
    · exact BitVec.getLsbD_of_ge _ _ (by omega)

/-! ## A packet -/

/-- The port is not in the frame. -/
theorem onlySelected_inPort (patch : Field t) (frame : List Byte) :
    OnlySelected patch .inPort frame frame := by
  refine ⟨rfl, fun k j _ => ⟨fun i hs => ?_, fun _ => rfl⟩⟩
  obtain ⟨-, o, ho, -⟩ := hs
  cases ho

theorem writeAt_inPort {w : Nat} {v : BitVec w} (h : p.writeAt v .inPort = .ok p') :
    p'.data = p.data := by
  simp only [writeAt, Bind.bind, Except.bind] at h
  split at h
  · cases h
  · cases h
    rfl

theorem modify_eq {v : Bits t} (hb : p.bindings t = some ptr)
    (hv : p.value (nbits t) ptr = some v) (patch : Field t) :
    p.modify patch = p.writeAt ((Field.make v (.exact t)).rewrite patch).value ptr := by
  simp only [modify, load_eq hb hv, access, hb, Bind.bind, Except.bind]

/-- **A patch touches the bits it selects only**, exactly when it is not for the VLAN identifier of a
frame that has a priority. -/
theorem modify_only_selected (hp : init front inPort packet = .ok p)
    (ht : p.bindings t = some ptr) (patch : Field t) :
    ∃ p', p.modify patch = .ok p' ∧
      (OnlySelected patch ptr (frameOf packet) (p'.serializeTo p'.totalBytes) ↔
        (t = .vlan_vid → PriorityZero (frameOf packet))) := by
  have hparsed := parsed_of_init hp
  obtain ⟨v, p', bytes, hv, hp', -, hw, hmem, -⟩ := modify_spec ht (hparsed.holds ht) patch
  refine ⟨p', hp', ?_⟩
  rw [serializeTo_totalBytes]
  rcases hparsed.in_frame ht with ⟨rfl, rfl⟩ | ⟨o, rfl, -⟩
  · rw [modify_eq ht hv] at hp'
    rw [writeAt_inPort hp', hparsed.bytes]
    exact iff_of_true (onlySelected_inPort patch _) nofun
  · have hframe : (p.memory (.data o)).1 = frameOf packet := hparsed.bytes
    have hr : read (nbits t) (frameOf packet) o = some v := hframe ▸ hv
    rw [hframe] at hw
    have hbytes : p'.data.bytes = bytes := hmem
    rw [hbytes, onlySelected_write hr hw]
    by_cases hvid : t = .vlan_vid
    · subst hvid
      cases hparsed.vlan_vid ht
      rw [← priorityZero_iff]
      exact ⟨fun hz _ => hz, fun hz => hz rfl⟩
    · have hfull := nbits_eq hvid
      exact iff_of_true (fun i hle hi => by omega) fun heq => absurd heq hvid

/-- A VLAN identifier, as a patch. -/
def toVlan (vid : BitVec 12) : Field OfbType.vlan_vid := .make vid (.exact _)

/-- The segment in VLAN 7 is moved to VLAN 9; its tag has no priority. -/
theorem modify_only_selected_tagged : ∃ p p', init 0 1 (some ⟨0, taggedTcp⟩) = .ok p ∧
    p.modify (toVlan 9) = .ok p' ∧
      OnlySelected (toVlan 9) (.data 14) taggedTcp (p'.serializeTo p'.totalBytes) := by
  obtain ⟨p, hp⟩ : ∃ p, init 0 1 (some ⟨0, taggedTcp⟩) = .ok p := ⟨_, rfl⟩
  have ht : p.bindings .vlan_vid = some (.data 14) := by
    cases hp
    rfl
  obtain ⟨p', hp', honly⟩ := modify_only_selected hp ht (toVlan 9)
  exact ⟨p, p', hp, hp', honly.2 fun _ => by decide⟩

/-- A tagged frame of priority 5 in VLAN 7. -/
def priorityFrame : List Byte := List.replicate 12 1 ++ [0x81, 0x00, 0xa0, 0x07, 0x08, 0x06]

/-- The priority is lost when the frame is moved to another VLAN. -/
theorem modify_clears_priority : ¬ ∀ (front : Byte) (inPort : BitVec 32) (packet : Option Buffer)
    (p : PacketParser) (t : OfbType) (ptr : Pointer) (patch : Field t),
    init front inPort packet = .ok p → p.bindings t = some ptr →
      ∃ p', p.modify patch = .ok p' ∧
        OnlySelected patch ptr (frameOf packet) (p'.serializeTo p'.totalBytes) := by
  intro hall
  obtain ⟨p, hp⟩ : ∃ p, init 0 1 (some ⟨0, priorityFrame⟩) = .ok p := ⟨_, rfl⟩
  have ht : p.bindings .vlan_vid = some (.data 14) := by
    cases hp
    rfl
  obtain ⟨p', hp', -, honly⟩ := hall 0 1 _ p .vlan_vid (.data 14) (toVlan 9) hp ht
  have hnot : ∀ i, ¬ Selects (toVlan 9) (.data 14) 14 7 i := by
    intro i hs
    have hlt : i < 12 := selects_lt hs
    have hs' : Selects (toVlan 9) (.data 14) (byteOf 12 14 15) (15 % 8) i := hs
    obtain ⟨rfl, -⟩ := (selects_byteOf (by decide)).1 hs'
    omega
  have hsame := (honly 14 7 (by decide)).2 hnot
  have hold : bitOf (frameOf (some ⟨0, priorityFrame⟩)) 14 7 = true := rfl
  have hnew : bitOf (p'.serializeTo p'.totalBytes) 14 7 = false := by
    cases hp
    cases hp'
    rfl
  rw [hold, hnew] at hsame
  cases hsame

end PacketParser

end Oxm
