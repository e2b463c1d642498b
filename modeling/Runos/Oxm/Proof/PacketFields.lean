import Runos.Oxm.Proof.PacketParser

/-!
# Fields of a packet, read and written in place

What `load` returns after `modify`: the field itself has been rewritten, and a field that has no byte
in common with it is as before (`modify_spec`). Fields that share a byte are not independent
(`not_independent`). Headers follow each other without an overlap, unless an IPv4 header says that it
is shorter than it is (`headers_follow`); the fields that are bound overlap exactly when it says 2, 3
or 4 words and a header follows (`fields_independent`).
-/

namespace Oxm

namespace PacketParser

open Blocks OxmType

variable {t u : OfbType} {ptr ptr' : Pointer} {p p' : PacketParser} {b : Buffer}

/-! ## Memory -/

/-- The byte that is read too many does not matter. -/
theorem Buffer.bits_eq {w o : Nat} {v : BitVec w} (h : read w b.bytes o = some v) :
    b.bits w o = .ok v := by
  have hin := length_of_read h
  obtain ⟨early, hdrop⟩ : ∃ early, (b.front :: b.bytes).drop o = early :: b.bytes.drop o := by
    have hlt : o < (b.front :: b.bytes).length := by
      rw [List.length_cons]
      omega
    exact ⟨_, List.drop_eq_getElem_cons hlt⟩
  have hslice : ((b.bytes.drop o).take (count w)).length = count w := by
    rw [List.length_take, List.length_drop]
    omega
  have hlen : w ≤ 8 * ((b.bytes.drop o).take (count w)).reverse.length := by
    rw [List.length_reverse, hslice]
    exact (count_spec w).1
  unfold Buffer.bits
  simp only [hdrop, List.take_succ_cons, List.length_cons, hslice, if_true, List.reverse_cons,
    ofBlocks_append hlen]
  unfold Blocks.read at h
  rw [if_pos hin] at h
  rw [Option.some.inj h]

/-- The bytes at a pointer, and the place among them. -/
def memory (p : PacketParser) : Pointer → List Byte × Nat
  | .inPort => (p.inPort.bytes, 0)
  | .data o => (p.data.bytes, o)

/-- The memory at the pointer has room for the field. -/
def Holds (p : PacketParser) (t : OfbType) (ptr : Pointer) : Prop :=
  (p.memory ptr).2 + count (nbits t) ≤ (p.memory ptr).1.length

/-- Values of `w` and of `w'` bits at the two pointers have no byte in common. -/
def Apart (w w' : Nat) : Pointer → Pointer → Prop
  | .inPort, .inPort => False
  | .data o, .data o' => o' + count w' ≤ o ∨ o + count w ≤ o'
  | _, _ => True

/-- What the memory at the pointer reads. -/
def value (p : PacketParser) (w : Nat) (ptr : Pointer) : Option (BitVec w) :=
  read w (p.memory ptr).1 (p.memory ptr).2

theorem readAt_eq {w : Nat} {v : BitVec w} (h : p.value w ptr = some v) : p.readAt w ptr = .ok v := by
  cases ptr with
  | inPort => exact Buffer.bits_eq h
  | data o => exact Buffer.bits_eq h

/-- What a write leaves at the pointer, and elsewhere. -/
theorem writeAt_spec {w : Nat} (v : BitVec w)
    (h : (p.memory ptr).2 + count w ≤ (p.memory ptr).1.length) :
    ∃ p' bytes, p.writeAt v ptr = .ok p' ∧ p'.bindings = p.bindings ∧
      write (p.memory ptr).1 (p.memory ptr).2 v = some bytes ∧ (p'.memory ptr).1 = bytes ∧
      p'.value w ptr = some v ∧
      (∀ w' ptr', Apart w w' ptr ptr' → p'.value w' ptr' = p.value w' ptr') ∧
      ∀ u ptr', p.Holds u ptr' → p'.Holds u ptr' := by
  obtain ⟨bytes, hw⟩ := write_eq_some h v
  have hlen := (write_spec hw).1
  cases ptr with
  | inPort =>
    have hw' : write p.inPort.bytes 0 v = some bytes := hw
    refine ⟨{ p with inPort := { p.inPort with bytes } }, bytes, ?_, rfl, hw, rfl, read_write hw,
      fun w' ptr' ha => ?_, fun u ptr' hu => ?_⟩
    · simp only [writeAt, Buffer.toBuffer, hw', Bind.bind, Except.bind]
    · cases ptr' with
      | inPort => exact ha.elim
      | data o => rfl
    · cases ptr' with
      | inPort => exact Nat.le_trans hu hlen.ge
      | data o => exact hu
  | data o =>
    have hw' : write p.data.bytes o v = some bytes := hw
    refine ⟨{ p with data := { p.data with bytes } }, bytes, ?_, rfl, hw, rfl, read_write hw,
      fun w' ptr' ha => ?_, fun u ptr' hu => ?_⟩
    · simp only [writeAt, Buffer.toBuffer, hw', Bind.bind, Except.bind]
    · cases ptr' with
      | inPort => rfl
      | data o' => exact read_write_apart hw' ha
    · cases ptr' with
      | inPort => exact hu
      | data o' => exact Nat.le_trans hu hlen.ge

/-! ## Two fields -/

theorem exists_value (h : p.Holds t ptr) : ∃ v, p.value (nbits t) ptr = some v := read_eq_some h

theorem load_eq (hb : p.bindings t = some ptr) {v : Bits t} (hv : p.value (nbits t) ptr = some v)
    (m : Mask t) : p.load m = .ok (.make v m) := by
  simp only [load, access, hb, readAt_eq hv, Bind.bind, Except.bind]

/-- All bits of a value that has been rewritten. -/
theorem make_rewrite (v : Bits t) (patch : Field t) :
    Field.make ((Field.make v (.exact t)).rewrite patch).value (.exact t) =
      (Field.make v (.exact t)).rewrite patch := by
  refine Field.ext_get fun i => ?_
  rw [Field.get_make, Field.get_rewrite, Packet.getLsbD_rewrite_exact, Field.get_make]
  by_cases hi : i < nbits t
  · cases patch.get i <;> simp [Mask.exact, hi]
  · simp [Mask.exact, hi, patch.get_eq_none_of_le (Nat.le_of_not_lt hi)]

/-- `modify` rewrites the field in place. -/
theorem modify_spec (hb : p.bindings t = some ptr) (h : p.Holds t ptr) (patch : Field t) :
    ∃ v p' bytes, p.value (nbits t) ptr = some v ∧ p.modify patch = .ok p' ∧
      p'.bindings = p.bindings ∧
      write (p.memory ptr).1 (p.memory ptr).2 ((Field.make v (.exact t)).rewrite patch).value =
        some bytes ∧ (p'.memory ptr).1 = bytes ∧
      p'.value (nbits t) ptr = some ((Field.make v (.exact t)).rewrite patch).value ∧
      (∀ w' ptr', Apart (nbits t) w' ptr ptr' → p'.value w' ptr' = p.value w' ptr') ∧
      ∀ u ptr', p.Holds u ptr' → p'.Holds u ptr' := by
  obtain ⟨v, hv⟩ := exists_value h
  obtain ⟨p', bytes, hw, hspec⟩ := writeAt_spec ((Field.make v (.exact t)).rewrite patch).value h
  refine ⟨v, p', bytes, hv, ?_, hspec⟩
  simp only [modify, load_eq hb hv, access, hb, Bind.bind, Except.bind, hw]

/-- After `modify(patch)`, the field of the patch has been rewritten, and `u` is as before. -/
def Independent (p : PacketParser) (u : OfbType) (patch : Field t) : Prop :=
  ∃ p' f g, p.modify patch = .ok p' ∧ p.load (.exact t) = .ok f ∧
    p'.load (.exact t) = .ok (f.rewrite patch) ∧
    p.load (.exact u) = .ok g ∧ p'.load (.exact u) = .ok g

theorem independent_of_apart (ht : p.bindings t = some ptr) (hu : p.bindings u = some ptr')
    (h : p.Holds t ptr) (h' : p.Holds u ptr') (ha : Apart (nbits t) (nbits u) ptr ptr')
    (patch : Field t) : p.Independent u patch := by
  obtain ⟨v, p', bytes, hv, hp', hbind, -, -, hnew, hkeep, -⟩ := modify_spec ht h patch
  obtain ⟨v', hv'⟩ := exists_value h'
  refine ⟨p', _, _, hp', load_eq ht hv _, ?_, load_eq hu hv' _, ?_⟩
  · rw [load_eq (by rw [hbind]; exact ht) hnew, make_rewrite]
  · exact load_eq (by rw [hbind]; exact hu) ((hkeep _ _ ha).trans hv') _

/-- Two fields that have a bit in common: a patch that flips all bits of one changes the other. -/
theorem not_independent {o o' i i' : Nat} (ht : p.bindings t = some (.data o))
    (hu : p.bindings u = some (.data o')) (h : p.Holds t (.data o)) (h' : p.Holds u (.data o'))
    (hi : i < nbits t) (hi' : i' < nbits u)
    (hbyte : byteOf (nbits u) o' i' = byteOf (nbits t) o i) (hbit : i' % 8 = i % 8) :
    ∃ patch : Field t, ¬ p.Independent u patch := by
  obtain ⟨v, hv⟩ := exists_value h
  obtain ⟨v', hv'⟩ := exists_value h'
  refine ⟨.make (~~~v) (.exact t), fun hind => ?_⟩
  obtain ⟨v₁, p', bytes, hv₁, hp', hbind, hw, hmem, -, -, hholds⟩ :=
    modify_spec ht h (.make (~~~v) (.exact t))
  cases hv.symm.trans hv₁
  obtain ⟨p₁, f, g, hp₁, -, -, hg, hg'⟩ := hind
  cases hp'.symm.trans hp₁
  -- the same value of `u` was read
  obtain ⟨v'', hv''⟩ := exists_value (hholds u _ h')
  rw [load_eq hu hv'] at hg
  rw [load_eq (by rw [hbind]; exact hu) hv''] at hg'
  have hsame : v''.getLsbD i' = v'.getLsbD i' := by
    cases hg
    have hget := congrArg (fun f => f.get i') (Except.ok.inj hg')
    simpa [Mask.exact, hi'] using hget
  -- but its bit was flipped with the bit of `t`
  have hnew : v''.getLsbD i' = !v.getLsbD i := by
    have hr : read (nbits u) bytes o' = some v'' := hmem ▸ hv''
    rw [read_write_shared hw hr hi hi' hbyte hbit, Packet.getLsbD_rewrite_exact]
    simp [Mask.exact, hi]
  have hold : v'.getLsbD i' = v.getLsbD i := by
    rw [getLsbD_read hv' hi', getLsbD_read hv hi]
    show (p.data.bytes.getD (byteOf (nbits u) o' i') 0).getLsbD (i' % 8) = _
    rw [hbyte, hbit]
    rfl
  rw [hnew, hold] at hsame
  cases hb : v.getLsbD i with
  | true => rw [hb] at hsame; cases hsame
  | false => rw [hb] at hsame; cases hsame

/-! ## Headers of a frame -/

variable {frame : List Byte} {h h' : Header × Nat} {base : Nat} {inPort : BitVec 32}
  {packet : Option Buffer} {front : Byte}

/-- The words of an IPv4 header, as it says itself. -/
def ihl (frame : List Byte) (base : Nat) : Nat := (number 8 frame base).toNat % 16

/-- An IPv4 header says that it has 2, 3 or 4 words instead of 5 at least, and a header follows. -/
def ShortHeader (frame : List Byte) : Prop :=
  ∃ base, (Header.ipv4, base) ∈ headers frame ∧ 2 ≤ ihl frame base ∧ ihl frame base ≤ 4 ∧
    ∃ h ∈ headers frame, h.1.layer = 4

/-- `h'` starts after `h`, or where the IPv4 header `h` says. -/
def Follows (frame : List Byte) (h h' : Header × Nat) : Prop :=
  h.2 + h.1.sizeof ≤ h'.2 ∨ h.1 = .ipv4 ∧ h'.1.layer = 4 ∧ h'.2 = afterIpv4 frame h.2

theorem l4Headers_pairwise (frame : List Byte) (protocol : BitVec 8) (base : Nat) :
    (l4Headers frame protocol base).Pairwise (Follows frame) := by
  unfold l4Headers
  split
  · split
    · exact List.pairwise_singleton _ _
    · exact .nil
  · split
    · split
      · exact List.pairwise_singleton _ _
      · exact .nil
    · split
      · split
        · exact List.pairwise_singleton _ _
        · exact .nil
      · exact .nil

theorem l3Headers_pairwise (frame : List Byte) (ethType : BitVec 16) (base : Nat) :
    (l3Headers frame ethType base).Pairwise (Follows frame) := by
  unfold l3Headers
  split
  · split
    · refine List.pairwise_cons.2 ⟨fun h' hm => .inr ?_, l4Headers_pairwise _ _ _⟩
      obtain ⟨hlayer, hbase, -⟩ := l4Headers_in hm
      exact ⟨rfl, hlayer, hbase⟩
    · exact .nil
  · split
    · split
      · exact List.pairwise_singleton _ _
      · exact .nil
    · split
      · split
        · refine List.pairwise_cons.2 ⟨fun h' hm => .inl ?_, l4Headers_pairwise _ _ _⟩
          exact (l4Headers_in hm).2.1.ge
        · exact .nil
      · exact .nil

/-- Where the headers of the network layer and those after it start. -/
theorem le_of_mem_l3Headers {ethType : BitVec 16} (hm : h ∈ l3Headers frame ethType base) :
    base ≤ h.2 := by
  rcases (l3Headers_in hm).2 with ⟨-, heq⟩ | ⟨hm, -⟩ | ⟨hm, -⟩
  · exact heq.ge
  · rw [(l4Headers_in hm).2.1]
    exact Nat.le_add_right _ _
  · rw [(l4Headers_in hm).2.1]
    exact Nat.le_add_right _ _

/-- **Headers follow each other.** -/
theorem headers_follow (frame : List Byte) : (headers frame).Pairwise (Follows frame) := by
  unfold headers
  split
  · exact .nil
  · refine List.pairwise_cons.2 ⟨fun h' hm => .inl ?_, l3Headers_pairwise _ _ _⟩
    have hle := le_of_mem_l3Headers hm
    rwa [Nat.zero_add]

theorem ipv4_of_mem {ethType : BitVec 16} {base' : Nat}
    (hm : (Header.ipv4, base') ∈ l3Headers frame ethType base) :
    ethType = 0x0800 ∧ base' = base := by
  unfold l3Headers at hm
  split at hm
  · split at hm
    · rcases List.mem_cons.1 hm with heq | hm
      · exact ⟨‹_›, (Prod.mk.inj heq).2⟩
      · have := (l4Headers_in hm).1
        cases this
    · cases hm
  · split at hm
    · split at hm
      · cases List.mem_singleton.1 hm
      · cases hm
    · split at hm
      · split at hm
        · rcases List.mem_cons.1 hm with heq | hm
          · cases heq
          · have := (l4Headers_in hm).1
            cases this
        · cases hm
      · cases hm

/-- The header after an IPv4 header is where that says. -/
theorem after_of_mem (hm : (Header.ipv4, base) ∈ headers frame) (hm' : h ∈ headers frame)
    (hlayer : h.1.layer = 4) : h.2 = afterIpv4 frame base := by
  unfold headers at hm hm'
  split at hm
  · cases hm
  · rename_i l ethType hl
    have hl2 := (link_in hl).1
    simp only [hl] at hm'
    rcases List.mem_cons.1 hm with heq | hm
    · cases heq
      cases hl2
    · rcases List.mem_cons.1 hm' with rfl | hm'
      · rw [hl2] at hlayer
        cases hlayer
      · obtain ⟨htype, hbase⟩ := ipv4_of_mem hm
        rcases (l3Headers_in hm').2 with ⟨h3, -⟩ | ⟨-, h6⟩ | ⟨hm', -⟩
        · rw [h3] at hlayer
          cases hlayer
        · rw [htype] at h6
          cases h6
        · rw [hbase]
          exact (l4Headers_in hm').2.1

/-! ## Fields of different headers -/

/-- The fields of an IPv4 header are behind its ninth byte. -/
theorem ipv4_fields_ge : ∀ f ∈ Header.ipv4.fields, 9 ≤ f.2 := by decide

/-- The ports, types and codes are in the first word. -/
theorem l4_fields_le {x : Header} (hx : x.layer = 4) :
    ∀ f ∈ x.fields, f.2 + count (nbits f.1) ≤ 4 := by
  cases x with
  | tcp => decide
  | udp => decide
  | icmp => decide
  | _ => cases hx

/-- A byte of the first half word is in one of them. -/
theorem l4_field_at {x : Header} (hx : x.layer = 4) {r : Nat} (hr : r < 2) :
    ∃ f ∈ x.fields, ∃ i < nbits f.1, i % 8 = 0 ∧ byteOf (nbits f.1) f.2 i = r := by
  have hcases : r = 0 ∨ r = 1 := by omega
  cases x with
  | tcp =>
    rcases hcases with rfl | rfl
    · exact ⟨(.tcp_src, 0), by decide, 8, by decide, rfl, rfl⟩
    · exact ⟨(.tcp_src, 0), by decide, 0, by decide, rfl, rfl⟩
  | udp =>
    rcases hcases with rfl | rfl
    · exact ⟨(.udp_src, 0), by decide, 8, by decide, rfl, rfl⟩
    · exact ⟨(.udp_src, 0), by decide, 0, by decide, rfl, rfl⟩
  | icmp =>
    rcases hcases with rfl | rfl
    · exact ⟨(.icmp_type, 0), by decide, 0, by decide, rfl, rfl⟩
    · exact ⟨(.icmp_code, 1), by decide, 0, by decide, rfl, rfl⟩
  | _ => cases hx

/-- A word that the header is too short for: a bit of it, in a byte that the next header starts
with. -/
theorem ipv4_field_at {n : Nat} (hn : 2 ≤ n) (hn' : n ≤ 4) :
    ∃ r < 2, ∃ f ∈ Header.ipv4.fields, ∃ i < nbits f.1, i % 8 = 0 ∧
      byteOf (nbits f.1) f.2 i = n * 4 + r := by
  have hcases : n = 2 ∨ n = 3 ∨ n = 4 := by omega
  rcases hcases with rfl | rfl | rfl
  · exact ⟨1, by decide, (.ip_proto, 9), by decide, 0, by decide, rfl, rfl⟩
  · exact ⟨0, by decide, (.ipv4_src, 12), by decide, 24, by decide, rfl, rfl⟩
  · exact ⟨0, by decide, (.ipv4_dst, 16), by decide, 24, by decide, rfl, rfl⟩

theorem byteOf_add (w base o i : Nat) : byteOf w (base + o) i = base + byteOf w o i :=
  Nat.add_assoc _ _ _

/-- Fields of two headers that follow each other do not overlap, but for a short header. -/
theorem apart_of_follows (hf : Follows frame h h') (hm : h ∈ headers frame)
    (hm' : h' ∈ headers frame) (hs : ¬ ShortHeader frame) {o o' : Nat} (ht : (t, o) ∈ h.1.fields)
    (hu : (u, o') ∈ h'.1.fields) :
    h.2 + o + count (nbits t) ≤ h'.2 + o' ∨ h'.2 + o' + count (nbits u) ≤ h.2 + o := by
  have hin : o + count (nbits t) ≤ h.1.sizeof := h.1.fields_in _ ht
  rcases hf with hle | ⟨h4, hlayer, hafter⟩
  · exact .inl (by omega)
  · obtain ⟨x, base⟩ := h
    cases h4
    have hn : ¬ (2 ≤ ihl frame base ∧ ihl frame base ≤ 4) := by
      intro hn
      exact hs ⟨base, hm, hn.1, hn.2, h', hm', hlayer⟩
    have hsize : o + count (nbits t) ≤ 20 := hin
    have hfirst : o' + count (nbits u) ≤ 4 := l4_fields_le hlayer _ hu
    have hninth : 9 ≤ o := ipv4_fields_ge _ ht
    have hstart : h'.2 = base + ihl frame base * 4 := hafter
    show base + o + _ ≤ _ ∨ _ ≤ base + o
    omega

/-- Different fields of a packet have no byte in common, but for a short header. -/
theorem Parsed.apart (hp : Parsed inPort packet p) (hs : ¬ ShortHeader (frameOf packet))
    (hne : t ≠ u) (ht : p.bindings t = some ptr) (hu : p.bindings u = some ptr') :
    Apart (nbits t) (nbits u) ptr ptr' := by
  rcases (hp.bound t ptr).1 ht with ⟨rfl, rfl⟩ | ⟨h, hm, ht⟩
  · rcases (hp.bound u ptr').1 hu with ⟨rfl, rfl⟩ | ⟨h', hm', hu⟩
    · exact absurd rfl hne
    · obtain ⟨o', -, rfl⟩ := Header.mem_bound.1 hu
      trivial
  · obtain ⟨o, hf, rfl⟩ := Header.mem_bound.1 ht
    rcases (hp.bound u ptr').1 hu with ⟨rfl, rfl⟩ | ⟨h', hm', hu⟩
    · trivial
    · obtain ⟨o', hf', rfl⟩ := Header.mem_bound.1 hu
      show _ ≤ _ ∨ _ ≤ _
      by_cases heq : h = h'
      · subst heq
        have := h.1.fields_apart _ hf _ hf' hne
        simp only at this
        omega
      · have : Std.Symm fun h h' => Follows (frameOf packet) h h' ∨ Follows (frameOf packet) h' h :=
          ⟨fun _ _ => Or.symm⟩
        have hpair : (headers (frameOf packet)).Pairwise fun h h' =>
            Follows (frameOf packet) h h' ∨ Follows (frameOf packet) h' h :=
          (headers_follow (frameOf packet)).imp Or.inl
        rcases hpair.forall hm hm' heq with hfol | hfol
        · exact (apart_of_follows hfol hm hm' hs hf hf').symm
        · exact apart_of_follows hfol hm' hm hs hf' hf

theorem Parsed.holds (hp : Parsed inPort packet p) (ht : p.bindings t = some ptr) :
    p.Holds t ptr := by
  rcases hp.in_frame ht with ⟨rfl, rfl⟩ | ⟨o, rfl, hin⟩
  · show 0 + count 32 ≤ p.inPort.bytes.length
    rw [hp.inPort, List.length_reverse, length_toBlocks, Nat.zero_add]
  · show o + count (nbits t) ≤ p.data.bytes.length
    rw [hp.bytes]
    exact hin

/-- A field of the next header and one of the IPv4 header that is too short share a byte. -/
theorem Parsed.shared (hp : Parsed inPort packet p) (hs : ShortHeader (frameOf packet)) :
    ∃ t u o o' i i', t ≠ u ∧ p.bindings t = some (.data o) ∧ p.bindings u = some (.data o') ∧
      i < nbits t ∧ i' < nbits u ∧ byteOf (nbits u) o' i' = byteOf (nbits t) o i ∧
      i' % 8 = i % 8 := by
  obtain ⟨base, hm, hlo, hhi, h, hm', hlayer⟩ := hs
  obtain ⟨r, hr, f', hf', i', hi', hmod', hbyte'⟩ := ipv4_field_at hlo hhi
  obtain ⟨f, hf, i, hi, hmod, hbyte⟩ := l4_field_at hlayer hr
  have hstart : h.2 = base + ihl (frameOf packet) base * 4 := after_of_mem hm hm' hlayer
  refine ⟨f.1, f'.1, h.2 + f.2, base + f'.2, i, i', ?_, ?_, ?_, hi, hi', ?_, ?_⟩
  · intro heq
    have hlay := h.1.layerOf_fields _ hf
    rw [heq, Header.ipv4.layerOf_fields _ hf', hlayer] at hlay
    cases hlay
  · exact (hp.bound _ _).2 (.inr ⟨h, hm', Header.mem_bound.2 ⟨f.2, hf, rfl⟩⟩)
  · exact (hp.bound _ _).2 (.inr ⟨_, hm, Header.mem_bound.2 ⟨f'.2, hf', rfl⟩⟩)
  · rw [byteOf_add, byteOf_add, hbyte, hbyte', hstart]
    omega
  · rw [hmod, hmod']

/-- Every two fields of the packet are independent. -/
def FieldsIndependent (p : PacketParser) : Prop :=
  ∀ t u, t ≠ u → p.bindings t ≠ none → p.bindings u ≠ none → ∀ patch : Field t, p.Independent u patch

/-- **When the fields of a packet are independent**: unless a header follows an IPv4 header that says
it has 2, 3 or 4 words. -/
theorem fields_independent (hp : init front inPort packet = .ok p) :
    p.FieldsIndependent ↔ ¬ ShortHeader (frameOf packet) := by
  have hparsed := parsed_of_init hp
  constructor
  · intro hind hs
    obtain ⟨t, u, o, o', i, i', hne, ht, hu, hi, hi', hbyte, hbit⟩ := hparsed.shared hs
    obtain ⟨patch, hnot⟩ := not_independent ht hu (hparsed.holds ht) (hparsed.holds hu) hi hi'
      hbyte hbit
    exact hnot (hind t u hne (by rw [ht]; simp) (by rw [hu]; simp) patch)
  · intro hs t u hne ht hu patch
    obtain ⟨ptr, ht⟩ := Option.ne_none_iff_exists'.1 ht
    obtain ⟨ptr', hu⟩ := Option.ne_none_iff_exists'.1 hu
    exact independent_of_apart ht hu (hparsed.holds ht) (hparsed.holds hu)
      (hparsed.apart hs hne ht hu) patch

/-- A TCP segment in an IPv4 header of 3 words. -/
def shortHeader : List Byte :=
  List.replicate 12 1 ++ [0x08, 0x00] ++
    [0x43, 0, 0, 40, 0, 0, 0, 0, 64, 0x06, 0, 0, 10, 0, 0, 1, 10, 0, 0, 2] ++ List.replicate 20 3

/-- Its source port is the first half of the source address. -/
theorem shortHeader_dependent :
    ∃ p, init 0 1 (some ⟨0, shortHeader⟩) = .ok p ∧ ¬ p.FieldsIndependent := by
  obtain ⟨p, hp⟩ : ∃ p, init 0 1 (some ⟨0, shortHeader⟩) = .ok p := ⟨_, rfl⟩
  have ht : p.bindings .tcp_src = some (.data 26) := by
    cases hp
    rfl
  have hu : p.bindings .ipv4_src = some (.data 26) := by
    cases hp
    rfl
  have hparsed := parsed_of_init hp
  obtain ⟨patch, hnot⟩ := not_independent ht hu (hparsed.holds ht) (hparsed.holds hu)
    (show 8 < 16 by decide) (show 24 < 32 by decide) rfl rfl
  refine ⟨p, hp, fun hind => hnot ?_⟩
  exact hind .tcp_src .ipv4_src (by decide) (by rw [ht]; simp) (by rw [hu]; simp) patch

/-- The fields of a segment in a tagged frame. -/
theorem fields_independent_tcp : ∃ p, init 0 1 (some ⟨0, taggedTcp⟩) = .ok p ∧
    (p.FieldsIndependent ↔ ¬ ShortHeader (frameOf (some ⟨0, taggedTcp⟩))) := by
  obtain ⟨p, hp⟩ : ∃ p, init 0 1 (some ⟨0, taggedTcp⟩) = .ok p := ⟨_, rfl⟩
  exact ⟨p, hp, fields_independent hp⟩

/-! ## The packet as a map of values -/

/-- The value of each field that is bound. -/
def packetOf (p : PacketParser) : Packet OfbType := fun t =>
  match p.load (.exact t) with
  | .error _ => none
  | .ok f => some f.value

/-- The fields are in memory, each in its own place. -/
structure Separate (p : PacketParser) : Prop where
  holds : ∀ t ptr, p.bindings t = some ptr → p.Holds t ptr
  apart : ∀ t u ptr ptr', t ≠ u → p.bindings t = some ptr → p.bindings u = some ptr' →
    Apart (nbits t) (nbits u) ptr ptr'

theorem separate_of_init (hp : init front inPort packet = .ok p)
    (hs : ¬ ShortHeader (frameOf packet)) : p.Separate where
  holds _ _ ht := (parsed_of_init hp).holds ht
  apart _ _ _ _ hne ht hu := (parsed_of_init hp).apart hs hne ht hu

theorem packetOf_eq_some (hb : p.bindings t = some ptr) {v : Bits t}
    (hv : p.value (nbits t) ptr = some v) : p.packetOf t = some v := by
  simp only [packetOf, load_eq hb hv, Field.value_make_exact]

theorem load_unbound (hb : p.bindings t = none) (m : Mask t) : p.load m = .error .outOfRange := by
  simp only [load, access, hb, Bind.bind, Except.bind]

theorem packetOf_eq_none (hb : p.bindings t = none) : p.packetOf t = none := by
  simp only [packetOf, load_unbound hb]

/-- **`modify` in place is `modify` of the map**, and it keeps the fields apart. -/
theorem Separate.modify (h : p.Separate) (hb : p.bindings t ≠ none) (patch : Field t) :
    ∃ p', p.modify patch = .ok p' ∧ p'.Separate ∧ p.packetOf.modify patch = some p'.packetOf := by
  obtain ⟨ptr, ht⟩ := Option.ne_none_iff_exists'.1 hb
  obtain ⟨v, p', bytes, hv, hp', hbind, -, -, hnew, hkeep, hholds⟩ :=
    modify_spec ht (h.holds t ptr ht) patch
  refine ⟨p', hp', ⟨fun u ptr' hu => ?_, fun t u ptr ptr' hne ht hu => ?_⟩, ?_⟩
  · rw [hbind] at hu
    exact hholds u ptr' (h.holds u ptr' hu)
  · rw [hbind] at ht hu
    exact h.apart t u ptr ptr' hne ht hu
  · have hload : p.packetOf.load (.exact t) = some (.make v (.exact t)) := by
      rw [Packet.load, packetOf_eq_some ht hv]
      rfl
    rw [Packet.modify, hload]
    refine congrArg some (funext fun u => ?_)
    by_cases hut : u = t
    · subst hut
      have hnew' := packetOf_eq_some (by rw [hbind]; exact ht) hnew
      exact (Function.update_self _ _ _).trans hnew'.symm
    · refine (Function.update_of_ne hut _ _).trans ?_
      cases hu : p.bindings u with
      | none => rw [packetOf_eq_none hu, packetOf_eq_none (by rw [hbind]; exact hu)]
      | some ptr' =>
        obtain ⟨v', hv'⟩ := exists_value (h.holds u ptr' hu)
        have hsame := hkeep _ _ (h.apart t u ptr ptr' (Ne.symm hut) ht hu)
        rw [packetOf_eq_some hu hv', packetOf_eq_some (by rw [hbind]; exact hu) (hsame.trans hv')]

/-- A field that the packet has not: both raise. -/
theorem modify_unbound (hb : p.bindings t = none) (patch : Field t) :
    p.modify patch = .error .outOfRange ∧ p.packetOf.modify patch = none := by
  refine ⟨?_, Packet.modify_eq_none.2 (packetOf_eq_none hb)⟩
  simp only [PacketParser.modify, load_unbound hb, Bind.bind, Except.bind]

/-- What is loaded is what the map gives. -/
theorem Separate.load (h : p.Separate) (hb : p.bindings t ≠ none) (m : Mask t) :
    ∃ f, p.load m = .ok f ∧ p.packetOf.load m = some f := by
  obtain ⟨ptr, ht⟩ := Option.ne_none_iff_exists'.1 hb
  obtain ⟨v, hv⟩ := exists_value (h.holds t ptr ht)
  refine ⟨_, load_eq ht hv m, ?_⟩
  rw [Packet.load, packetOf_eq_some ht hv]
  rfl

end PacketParser

end Oxm
