import Runos.Oxm.Bits
import Runos.Oxm.PacketParser

/-!
# The range of a bit field

The range of blocks ends one iterator too far: for every width it takes the byte in front of the
buffer as its last block (`range_eq`). So reading from memory that holds the buffer alone fails, and
the value is right when there is a byte in front, since `resize` drops its bits
(`bitsOfBuffer_reads_front`). `Buffer.bits`, which packet fields are read with, is this
constructor (`buffer_bits_eq`).
-/

namespace Oxm

open Blocks

variable {m : Memory} {n : Nat} {buffer : Int} {bytes : List Byte}

/-- Memory that holds the buffer and nothing else. -/
def onlyBuffer (buffer : Int) (bytes : List Byte) : Memory := fun i =>
  if i < buffer then none else bytes[(i - buffer).toNat]?

/-- Memory that holds the buffer, and a byte in front of it. -/
def withFront (front : Byte) (buffer : Int) (bytes : List Byte) : Memory :=
  onlyBuffer (buffer - 1) (front :: bytes)

/-- The bytes as a big-endian number. -/
def bigEndianNumber (bytes : List Byte) : Nat :=
  bytes.foldl (fun acc b => b.toNat + 2 ^ 8 * acc) 0

/-- No access fails, and the value is that of the low bits of the buffer. -/
def ReadsInBounds (n : Nat) (buffer : Int) (bytes : List Byte) : Prop :=
  bitsOfBuffer (onlyBuffer buffer bytes) n buffer = some (.ofNat n (bigEndianNumber bytes))

instance (n : Nat) (buffer : Int) (bytes : List Byte) : Decidable (ReadsInBounds n buffer bytes) :=
  inferInstanceAs (Decidable (_ = _))

/-! ## Ranges -/

theorem mapM_eq_some {α β : Type} {f : α → Option β} {g : α → β} {l : List α}
    (h : ∀ x ∈ l, f x = some (g x)) : l.mapM f = some (l.map g) := by
  induction l with
  | nil => rfl
  | cons x l ih =>
    rw [List.mapM_cons, h x List.mem_cons_self, ih fun y hy => h y (List.mem_cons_of_mem _ hy)]
    rfl

theorem mapM_eq_none {α β : Type} {f : α → Option β} {l : List α} {x : α} (hx : x ∈ l)
    (h : f x = none) : l.mapM f = none := by
  induction l with
  | nil => cases hx
  | cons y l ih =>
    rw [List.mapM_cons]
    rcases List.mem_cons.1 hx with rfl | hx
    · rw [h]
      rfl
    · rw [ih hx]
      cases f y <;> rfl

/-- The base of the iterator that the range starts with. -/
theorem first_base (buffer : Int) (n : Nat) :
    buffer + (n / 8 : Nat) + (if n % 8 ≠ 0 then 1 else 0) = buffer + (count n : Nat) := by
  unfold count
  by_cases h : n % 8 = 0
  · simp [h]
  · simp [h]
    omega

variable (buffer bytes) in
/-- A range that lies in what can be read: its bytes, the last one first. -/
theorem range_eq_some (first last : ReverseIterator) {o k : Nat} (hlast : last.base = buffer + o)
    (hfirst : first.base = last.base + k) (h : o + k ≤ bytes.length) :
    ReverseIterator.range (onlyBuffer buffer bytes) first last =
      some ((bytes.drop o).take k).reverse := by
  have hsteps : (first.base - last.base).toNat = k := by omega
  have hlen : ((bytes.drop o).take k).length = k := by
    rw [List.length_take, List.length_drop]
    omega
  rw [ReverseIterator.range, hsteps, mapM_eq_some (g := fun i => bytes.getD (o + (k - 1 - i)) 0)]
  · congr 1
    refine List.ext_getElem (by rw [List.length_reverse, hlen, List.length_map, List.length_range])
      fun i hi hi' => ?_
    rw [List.length_map, List.length_range] at hi
    simp only [List.getElem_map, List.getElem_range, List.getElem_reverse, List.getElem_take,
      List.getElem_drop, hlen]
    exact List.getD_eq_getElem _ _ (by omega)
  · intro i hi
    have hi : i < k := List.mem_range.1 hi
    have hplace : (first.base - i - 1 - buffer).toNat = o + (k - 1 - i) := by omega
    show onlyBuffer buffer bytes (first.base - i - 1) = _
    rw [onlyBuffer, if_neg (by omega), hplace, List.getD_eq_getElem _ _ (by omega),
      List.getElem?_eq_getElem (by omega)]

/-- A range is read when all its bytes are. -/
theorem range_eq_none {first last : ReverseIterator} {k : Nat}
    (hk : k < (first.base - last.base).toNat) (hm : (first.advance k).deref m = none) :
    ReverseIterator.range m first last = none :=
  mapM_eq_none (List.mem_range.2 hk) hm

/-- The range of the constructor has the byte in front of the buffer as its last one. -/
theorem range_withFront (front : Byte) (h : bytes.length = count n) :
    ReverseIterator.range (withFront front buffer bytes) ⟨buffer + (count n : Nat)⟩ ⟨buffer - 1⟩ =
      some (bytes.reverse ++ [front]) := by
  have hlen : (front :: bytes).length = count n + 1 := by rw [List.length_cons, h]
  have hrange := range_eq_some (buffer - 1) (front :: bytes) ⟨buffer + (count n : Nat)⟩
    ⟨buffer - 1⟩ (o := 0) (k := count n + 1) (by simp) (by simp) (by omega)
  rw [List.drop_zero, List.take_of_length_le hlen.le, List.reverse_cons] at hrange
  exact hrange

/-! ## Values -/

/-- The blocks of a value, and one more that `resize` drops. -/
theorem setWidth_ofBlocks {blocks : List Byte} (h : n ≤ 8 * blocks.length) (more : List Byte) :
    (ofBlocks (8 * (blocks ++ more).length) (blocks ++ more)).setWidth n = ofBlocks n blocks := by
  rw [← ofBlocks_append h more]
  apply BitVec.eq_of_getLsbD_eq
  intro i hi
  have hlt : i < 8 * (blocks ++ more).length := by
    rw [List.length_append]
    omega
  rw [BitVec.getLsbD_setWidth, getLsbD_ofBlocks, getLsbD_ofBlocks]
  simp only [hi, hlt, decide_true, Bool.true_and]

theorem ofBlocks_reverse (n : Nat) (bytes : List Byte) :
    ofBlocks n bytes.reverse = .ofNat n (bigEndianNumber bytes) := by
  rw [ofBlocks, List.foldr_reverse]
  rfl

/-- Packet fields are read with the constructor. -/
theorem buffer_bits_eq (b : PacketParser.Buffer) (n o : Nat) :
    b.bits n o = match bitsOfBuffer (withFront b.front 0 b.bytes) n o with
      | some v => .ok v
      | none => .error .undefined := by
  unfold PacketParser.Buffer.bits
  rw [bitsOfBuffer, first_base]
  have hlen : (((b.front :: b.bytes).drop o).take (count n + 1)).length =
      min (count n + 1) (b.bytes.length + 1 - o) := by
    rw [List.length_take, List.length_drop, List.length_cons]
  by_cases hin : o + (count n + 1) ≤ b.bytes.length + 1
  · have hrange := range_eq_some (0 - 1) (b.front :: b.bytes) ⟨(o : Int) + (count n : Nat)⟩
      ⟨(o : Int) - 1⟩ (o := o) (k := count n + 1) (by simp; omega) (by simp) hin
    rw [withFront, hrange]
    have hwidth : n ≤ 8 * (((b.front :: b.bytes).drop o).take (count n + 1)).reverse.length := by
      have := (count_spec n).1
      rw [List.length_reverse, hlen]
      omega
    have hvalue := setWidth_ofBlocks hwidth []
    rw [List.append_nil] at hvalue
    show (if _ then _ else _) = Except.ok _
    rw [if_pos (by rw [hlen]; omega), ← hvalue]
  · -- the byte that the first iterator denotes is behind the buffer
    have hnone : (ReverseIterator.advance ⟨(o : Int) + (count n : Nat)⟩ 0).deref
        (withFront b.front 0 b.bytes) = none := by
      show onlyBuffer (0 - 1) (b.front :: b.bytes) (o + (count n : Nat) - (0 : Nat) - 1) = none
      unfold onlyBuffer
      split
      · rfl
      · refine List.getElem?_eq_none ?_
        rw [List.length_cons]
        omega
    have hshort : ¬ (((b.front :: b.bytes).drop o).take (count n + 1)).length = count n + 1 := by
      rw [hlen]
      omega
    rw [range_eq_none (k := 0) (by simp) hnone]
    exact if_neg hshort

/-- **A bit field is read from one byte too early**: memory that holds exactly the buffer never
suffices, and with a byte in front of it the value is the low bits of the big-endian number. -/
theorem bitsOfBuffer_reads_front (n : Nat) (buffer : Int) (bytes : List Byte)
    (hlen : bytes.length = count n) :
    ¬ ReadsInBounds n buffer bytes ∧
      bitsOfBuffer (onlyBuffer buffer bytes) n buffer = none ∧
      ∀ front, bitsOfBuffer (withFront front buffer bytes) n buffer =
        some (.ofNat n (bigEndianNumber bytes)) := by
  have hfail : bitsOfBuffer (onlyBuffer buffer bytes) n buffer = none := by
    rw [bitsOfBuffer, first_base, range_eq_none (k := count n)]
    · rfl
    · show count n < (buffer + count n - (buffer - 1)).toNat
      omega
    · -- the last iterator of the range denotes the byte in front of the buffer
      show onlyBuffer buffer bytes (buffer + count n - count n - 1) = none
      exact if_pos (by omega)
  refine ⟨?_, hfail, fun front => ?_⟩
  · rw [ReadsInBounds, hfail]
    exact (Option.some_ne_none _).symm
  · have hwidth : n ≤ 8 * bytes.reverse.length := by
      rw [List.length_reverse, hlen]
      exact (count_spec n).1
    rw [bitsOfBuffer, first_base, range_withFront front hlen, ← ofBlocks_reverse,
      ← setWidth_ofBlocks hwidth [front]]
    rfl

theorem bitsOfBuffer_reads_front_octet :
    ¬ ReadsInBounds 8 0 [0x2a] ∧ bitsOfBuffer (onlyBuffer 0 [0x2a]) 8 0 = none ∧
      ∀ front, bitsOfBuffer (withFront front 0 [0x2a]) 8 0 =
        some (.ofNat 8 (bigEndianNumber [0x2a])) :=
  bitsOfBuffer_reads_front 8 0 [0x2a] (by decide)

/-- A field of one byte at the start of its buffer. -/
theorem octet_reads_front : ¬ ∀ (n : Nat) (bytes : List Byte), 1 ≤ n → bytes.length = count n →
    ReadsInBounds n 0 bytes := by
  intro h
  exact absurd (h 8 [0x2a] (by decide) (by decide)) (by decide)

end Oxm
