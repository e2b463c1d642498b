import Mathlib.Algebra.Group.Nat.Defs
import Mathlib.Data.List.Basic
import Mathlib.Data.List.GetD
import Mathlib.Tactic.Common

/-!
# Bits in big-endian bytes

A value of `w` bits takes `count w` bytes of a buffer, the most significant one first; if `w` is no
multiple of eight, the first byte is not used whole. `read` and `write` fail outside the buffer. Bit
`i` is bit `i % 8` of the byte `byteOf w o i` (`getLsbD_read`, `write_spec`). So writing changes what
is read in the same place to the new value (`read_write`), nothing that is read elsewhere
(`read_write_apart`), and every bit that both places share (`read_write_shared`).
-/

namespace Blocks

abbrev Byte := BitVec 8

variable {w w' o o' i k : Nat} {v : BitVec w} {v' : BitVec w'} {bytes bytes' : List Byte}

/-- The bytes that `w` bits take. -/
def count (w : Nat) : Nat := w / 8 + if w % 8 = 0 then 0 else 1

/-- The bits of a list of blocks, the least significant block first; further bits are dropped. -/
def ofBlocks (w : Nat) (blocks : List Byte) : BitVec w :=
  .ofNat w (blocks.foldr (fun b acc => b.toNat + 2 ^ 8 * acc) 0)

/-- The blocks of a value, the least significant block first. -/
def toBlocks (v : BitVec w) : List Byte :=
  (List.range (count w)).map fun k => v.extractLsb' (8 * k) 8

/-- The blocks of a value, the most significant block first. -/
def bigEndian (v : BitVec w) : List Byte :=
  (List.range (count w)).map fun k => v.extractLsb' (8 * (count w - 1 - k)) 8

def read (w : Nat) (bytes : List Byte) (o : Nat) : Option (BitVec w) :=
  if o + count w ≤ bytes.length then
    some (ofBlocks w ((bytes.drop o).take (count w)).reverse)
  else
    none

def write (bytes : List Byte) (o : Nat) (v : BitVec w) : Option (List Byte) :=
  if o + count w ≤ bytes.length then
    some (bytes.take o ++ (toBlocks v).reverse ++ bytes.drop (o + count w))
  else
    none

/-! ## Blocks -/

theorem count_spec (w : Nat) : w ≤ 8 * count w ∧ 8 * count w < w + 8 := by
  unfold count
  split <;> omega

/-- A bit of the value is a bit of its bytes. -/
theorem lt_bits (h : i < w) : i < 8 * count w := Nat.lt_of_lt_of_le h (count_spec w).1

theorem block_lt (h : i < 8 * count w) : i / 8 < count w := by omega

theorem testBit_foldr (blocks : List Byte) (i : Nat) :
    (blocks.foldr (fun (b : Byte) acc => b.toNat + 2 ^ 8 * acc) 0).testBit i =
      (blocks.getD (i / 8) 0).getLsbD (i % 8) := by
  induction blocks generalizing i with
  | nil => simp
  | cons b blocks ih =>
    rw [List.foldr_cons, Nat.add_comm, Nat.testBit_two_pow_mul_add _ b.isLt]
    by_cases hi : i < 8
    · have hdiv : i / 8 = 0 := by omega
      have hmod : i % 8 = i := by omega
      rw [if_pos hi, hdiv, hmod, BitVec.testBit_toNat]
      rfl
    · have hdiv : i / 8 = (i - 8) / 8 + 1 := by omega
      have hmod : i % 8 = (i - 8) % 8 := by omega
      rw [if_neg hi, ih, hdiv, hmod]
      rfl

theorem getLsbD_ofBlocks (blocks : List Byte) (i : Nat) :
    (ofBlocks w blocks).getLsbD i =
      (decide (i < w) && (blocks.getD (i / 8) 0).getLsbD (i % 8)) := by
  rw [ofBlocks, BitVec.getLsbD_ofNat, testBit_foldr]

/-- Blocks beyond the width are dropped. -/
theorem ofBlocks_append {blocks : List Byte} (h : w ≤ 8 * blocks.length) (more : List Byte) :
    ofBlocks w (blocks ++ more) = ofBlocks w blocks := by
  apply BitVec.eq_of_getLsbD_eq
  intro i hi
  have hlt : i / 8 < blocks.length := by omega
  rw [getLsbD_ofBlocks, getLsbD_ofBlocks, List.getD_append _ _ _ _ hlt]

theorem length_toBlocks (v : BitVec w) : (toBlocks v).length = count w := by simp [toBlocks]

/-- The bits of the blocks; those beyond the width are zero. -/
theorem getLsbD_toBlocks (v : BitVec w) (h : i < 8 * count w) :
    ((toBlocks v).getD (i / 8) 0).getLsbD (i % 8) = v.getLsbD i := by
  have hmod : i % 8 < 8 := by omega
  have hsum : 8 * (i / 8) + i % 8 = i := by omega
  rw [List.getD_eq_getElem _ _ (by rw [length_toBlocks]; exact block_lt h)]
  simp only [toBlocks, List.getElem_map, List.getElem_range, BitVec.getLsbD_extractLsb', hmod,
    decide_true, Bool.true_and, hsum]

theorem reverse_toBlocks (v : BitVec w) : (toBlocks v).reverse = bigEndian v := by
  refine List.ext_getElem (by simp [toBlocks, bigEndian]) fun k hk hk' => ?_
  simp only [toBlocks, bigEndian, List.getElem_reverse, List.getElem_map, List.getElem_range,
    List.length_map, List.length_range]

theorem length_bigEndian (v : BitVec w) : (bigEndian v).length = count w := by simp [bigEndian]

/-! ## Places in a buffer -/

/-- The byte that has bit `i` of the value of `w` bits at `o`. -/
def byteOf (w o i : Nat) : Nat := o + (count w - 1 - i / 8)

theorem byteOf_bounds (o : Nat) (h : i < 8 * count w) :
    o ≤ byteOf w o i ∧ byteOf w o i < o + count w := by
  have := block_lt h
  unfold byteOf
  omega

/-- Every bit of the bytes has a number. -/
theorem exists_byteOf {k j : Nat} (hk : o ≤ k ∧ k < o + count w) (hj : j < 8) :
    ∃ i < 8 * count w, byteOf w o i = k ∧ i % 8 = j := by
  refine ⟨8 * (o + count w - 1 - k) + j, ?_, ?_, ?_⟩
  · omega
  · unfold byteOf
    omega
  · omega

/-- The numbers of the bits are different. -/
theorem byteOf_inj {i' : Nat} (h : i < 8 * count w) (h' : i' < 8 * count w)
    (hbyte : byteOf w o i = byteOf w o i') (hbit : i % 8 = i' % 8) : i = i' := by
  have := block_lt h
  have := block_lt h'
  unfold byteOf at hbyte
  omega

theorem getD_reverse_slice (h : o + count w ≤ bytes.length) (hi : i < 8 * count w) :
    (((bytes.drop o).take (count w)).reverse).getD (i / 8) 0 = bytes.getD (byteOf w o i) 0 := by
  have hlt := block_lt hi
  have hlen : ((bytes.drop o).take (count w)).length = count w := by
    rw [List.length_take, List.length_drop]
    omega
  rw [List.getD_eq_getElem?_getD, List.getD_eq_getElem?_getD,
    List.getElem?_reverse (by omega), hlen, List.getElem?_take_of_lt (by omega),
    List.getElem?_drop, byteOf]

/-- What is read, bit by bit. -/
theorem getLsbD_read (h : read w bytes o = some v) (hi : i < w) :
    v.getLsbD i = (bytes.getD (byteOf w o i) 0).getLsbD (i % 8) := by
  unfold read at h
  split at h
  · rename_i hlen
    cases h
    rw [getLsbD_ofBlocks, getD_reverse_slice hlen (lt_bits hi)]
    simp [hi]
  · cases h

theorem read_eq_some (h : o + count w ≤ bytes.length) : ∃ v, read w bytes o = some v :=
  ⟨_, if_pos h⟩

theorem length_of_read (h : read w bytes o = some v) : o + count w ≤ bytes.length := by
  unfold read at h
  split at h
  · assumption
  · cases h

/-- What is read depends on the bits of the place only. -/
theorem read_eq_of_bits (hlen : bytes'.length = bytes.length)
    (h : ∀ i < w, (bytes'.getD (byteOf w o i) 0).getLsbD (i % 8) =
      (bytes.getD (byteOf w o i) 0).getLsbD (i % 8)) : read w bytes' o = read w bytes o := by
  unfold read
  rw [hlen]
  split
  · rename_i hin
    congr 1
    apply BitVec.eq_of_getLsbD_eq
    intro i hi
    rw [getLsbD_ofBlocks, getLsbD_ofBlocks, getD_reverse_slice (hlen ▸ hin) (lt_bits hi),
      getD_reverse_slice hin (lt_bits hi), h i hi]
  · rfl

/-- What a write leaves: the bits of the value in its place, zeros in the rest of the first byte, and
everything else as it was. -/
theorem write_spec (h : write bytes o v = some bytes') :
    bytes'.length = bytes.length ∧
      (∀ k, k < o ∨ o + count w ≤ k → bytes'.getD k 0 = bytes.getD k 0) ∧
      ∀ i < 8 * count w, (bytes'.getD (byteOf w o i) 0).getLsbD (i % 8) = v.getLsbD i := by
  unfold write at h
  split at h
  · rename_i hin
    cases h
    have htake : (bytes.take o).length = o := by rw [List.length_take]; omega
    have hrev : (toBlocks v).reverse.length = count w := by
      rw [List.length_reverse, length_toBlocks]
    refine ⟨?_, fun k hk => ?_, fun i hi => ?_⟩
    · simp only [List.length_append, htake, hrev, List.length_drop]
      omega
    · rw [List.getD_eq_getElem?_getD, List.getD_eq_getElem?_getD, List.append_assoc]
      rcases hk with hk | hk
      · rw [List.getElem?_append_left (by omega), List.getElem?_take_of_lt hk]
      · rw [List.getElem?_append_right (by omega), List.getElem?_append_right (by omega),
          List.getElem?_drop, htake, hrev]
        congr 2
        omega
    · have hlt := block_lt hi
      have hb := byteOf_bounds o hi
      rw [← getLsbD_toBlocks v hi, List.getD_eq_getElem?_getD, List.getD_eq_getElem?_getD,
        List.append_assoc, List.getElem?_append_right (by omega), htake,
        List.getElem?_append_left (by omega),
        List.getElem?_reverse (by rw [length_toBlocks]; omega), length_toBlocks]
      congr 3
      unfold byteOf
      omega
  · cases h

theorem write_eq_some (h : o + count w ≤ bytes.length) (v : BitVec w) :
    ∃ bytes', write bytes o v = some bytes' :=
  ⟨_, if_pos h⟩

/-! ## Reading after writing -/

/-- The value that was written is read. -/
theorem read_write (h : write bytes o v = some bytes') : read w bytes' o = some v := by
  obtain ⟨hlen, -, hbits⟩ := write_spec h
  have hin : o + count w ≤ bytes'.length := by
    unfold write at h
    split at h
    · omega
    · cases h
  obtain ⟨u, hu⟩ := read_eq_some hin
  rw [hu]
  congr 1
  apply BitVec.eq_of_getLsbD_eq
  intro i hi
  rw [getLsbD_read hu hi, hbits i (lt_bits hi)]

/-- A write into the middle of a buffer. -/
theorem write_append {before rest : List Byte} (ho : o = before.length)
    (hroom : count w ≤ rest.length) (v : BitVec w) :
    write (before ++ rest) o v = some (before ++ bigEndian v ++ rest.drop (count w)) := by
  subst ho
  unfold write
  rw [if_pos (by rw [List.length_append]; omega), List.take_left, reverse_toBlocks,
    List.drop_append, List.drop_eq_nil_of_le (by omega), List.nil_append,
    Nat.add_sub_cancel_left]

/-- The bytes of a value read as the value. -/
theorem read_append {before : List Byte} (ho : o = before.length) (v : BitVec w)
    (rest : List Byte) : read w (before ++ bigEndian v ++ rest) o = some v := by
  have hroom : count w ≤ (bigEndian v ++ rest).length := by
    rw [List.length_append, length_bigEndian]
    omega
  have hw := write_append ho hroom v
  rw [List.drop_left' (length_bigEndian v)] at hw
  exact read_write hw

/-- A place that has no byte in common reads as before. -/
theorem read_write_apart (h : write bytes o v = some bytes')
    (ha : o' + count w' ≤ o ∨ o + count w ≤ o') : read w' bytes' o' = read w' bytes o' := by
  obtain ⟨hlen, hkeep, -⟩ := write_spec h
  refine read_eq_of_bits hlen fun i hi => ?_
  have hb := byteOf_bounds o' (lt_bits hi)
  rw [hkeep _ (by omega)]

/-- A bit of another place that is in the same byte is written too. -/
theorem read_write_shared {i' : Nat} (h : write bytes o v = some bytes')
    (hr : read w' bytes' o' = some v') (hi : i < w) (hi' : i' < w')
    (hbyte : byteOf w' o' i' = byteOf w o i) (hbit : i' % 8 = i % 8) :
    v'.getLsbD i' = v.getLsbD i := by
  obtain ⟨-, -, hbits⟩ := write_spec h
  rw [getLsbD_read hr hi', hbyte, hbit, hbits i (lt_bits hi)]

end Blocks
