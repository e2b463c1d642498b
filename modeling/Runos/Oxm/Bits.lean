import Runos.Lib.Blocks

/-!
# Bits read from memory (`types/bits.hh`)

The constructor of `bits<>` that reads a buffer. A pointer is an address, and memory is partial: an
access outside of what can be read fails.
-/

namespace Oxm

open Blocks

/-- The bytes that can be read. -/
abbrev Memory := Int → Option Byte

/-- `std::reverse_iterator<const block_type*>`: it denotes the byte in front of its base. -/
structure ReverseIterator where
  base : Int
  deriving DecidableEq, Repr

namespace ReverseIterator

def deref (m : Memory) (it : ReverseIterator) : Option Byte := m (it.base - 1)

/-- `it + k` -/
def advance (it : ReverseIterator) (k : Nat) : ReverseIterator := ⟨it.base - k⟩

/-- The bytes of the range from `first` up to `last`. -/
def range (m : Memory) (first last : ReverseIterator) : Option (List Byte) :=
  (List.range (first.base - last.base).toNat).mapM fun k => (first.advance k).deref m

end ReverseIterator

/-- `bits(num_bits, buffer)`: the blocks of the range, the first one the least significant, then
`resize`. -/
def bitsOfBuffer (m : Memory) (numBits : Nat) (buffer : Int) : Option (BitVec numBits) := do
  let blocks ← ReverseIterator.range m
    ⟨buffer + (numBits / 8 : Nat) + (if numBits % 8 ≠ 0 then 1 else 0)⟩ ⟨buffer - 1⟩
  return (ofBlocks (8 * blocks.length) blocks).setWidth numBits

end Oxm
