import Runos.Lib.Blocks

/-!
# Packed records

A record without padding whose members are big-endian numbers, each of whole bytes. `encode` lays the
members out one after the other, `offset` is where a member starts. Every member reads back from its
place, whatever follows the record (`read_encode`).
-/

namespace Packed

open Blocks

/-- A member: its width and its value. -/
abbrev Member := (w : Nat) × BitVec w

def widths (ms : List Member) : List Nat := ms.map Sigma.fst

/-- The bytes that members of the widths take. -/
def size (ws : List Nat) : Nat := ws.foldr (fun w n => count w + n) 0

/-- Where the member with index `k` starts. -/
def offset (ws : List Nat) (k : Nat) : Nat := size (ws.take k)

def encode : List Member → List Byte
  | [] => []
  | m :: ms => bigEndian m.2 ++ encode ms

variable {ms : List Member} {k : Nat}

theorem length_encode (ms : List Member) : (encode ms).length = size (widths ms) := by
  induction ms with
  | nil => rfl
  | cons m ms ih =>
    rw [encode, List.length_append, length_bigEndian, ih]
    rfl

theorem encode_append (ms ms' : List Member) :
    encode (ms ++ ms') = encode ms ++ encode ms' := by
  induction ms with
  | nil => rfl
  | cons m ms ih => simp [encode, ih]

/-- **A member reads back** from where it starts. -/
theorem read_encode {w o : Nat} {v : BitVec w} (hm : ms[k]? = some ⟨w, v⟩)
    (ho : o = offset (widths ms) k) (rest : List Byte) : read w (encode ms ++ rest) o = some v := by
  obtain ⟨hk, hm⟩ := List.getElem?_eq_some_iff.1 hm
  have hsplit : encode ms = encode (ms.take k) ++ encode (⟨w, v⟩ :: ms.drop (k + 1)) := by
    rw [← encode_append, ← hm, ← List.drop_eq_getElem_cons hk, List.take_append_drop]
  rw [hsplit, encode, ← List.append_assoc, List.append_assoc]
  apply read_append
  rw [ho, offset, length_encode, widths, widths, List.map_take]

end Packed
