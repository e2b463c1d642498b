import Runos.Lib.Numeral
import Runos.Lib.Regex

/-!
# IPv6 addresses (`types/IPv6Addr.hh`, `types/IPv6Addr.cc`)

The parser with its two regular expressions, the conversions of an address, and its output. A
`std::string` is the list of its bytes, each the character of that number. `std::stoi` is only
called on hexadecimal digits; the groups of the first expression, which nothing reads, are not
captured. A conversion that raises an exception is `noexcept` and terminates the program.
-/

namespace IPv6Addr

/-- How a call can fail to return. -/
inductive Fault
  | badRepresentation
  /-- `out_of_range`, by `insert` -/
  | outOfRange
  /-- `std::terminate` -/
  | terminate
  deriving DecidableEq, Repr

/-! ## Texts -/

/-- `[[:xdigit:]]{min,max}` -/
abbrev xdigits (min max : Nat) : Regex Char := .rep (.sat Char.isHexDigit) min (max - min)

abbrev colon : Regex Char := .sat (· == ':')

/-- `r{min,max}` -/
abbrev times (r : Regex Char) (min max : Nat) : Regex Char := .rep r min (max - min)

/-- `([[:xdigit:]]{1,4}:){1,front}(:[[:xdigit:]]{1,4}){1,back}` -/
def both (front back : Nat) : Regex Char :=
  .seq (times (.seq (xdigits 1 4) colon) 1 front) (times (.seq colon (xdigits 1 4)) 1 back)

/-- `validation` -/
def validation : Regex Char :=
  .alt (.seq (times (.seq (xdigits 1 4) colon) 7 7) (xdigits 1 4)) <|
  .alt (.seq (times (.seq (xdigits 1 4) colon) 1 7) colon) <|
  .alt (.seq (times (.seq (xdigits 1 4) colon) 1 6) (.seq colon (xdigits 1 4))) <|
  .alt (both 5 2) <|
  .alt (both 4 3) <|
  .alt (both 3 4) <|
  .alt (both 2 5) <|
  .alt (.seq (.seq (xdigits 1 4) colon) (times (.seq colon (xdigits 1 4)) 1 6)) <|
  .seq colon (.alt (times (.seq colon (xdigits 1 4)) 1 7) colon)

/-- `patter`: eight captured groups of up to four digits, with colons between them. -/
def pattern : Regex Char := .fields (xdigits 0 4) ':' 7

/-- `str.find(part)` -/
def find (part : List Char) : List Char → Option Nat
  | [] => if part.isEmpty then some 0 else none
  | c :: text => if part.isPrefixOf (c :: text) then some 0 else (find part text).map (· + 1)

/-- `str.insert(pos, n, c)` -/
def insert (text : List Char) (pos n : Nat) (c : Char) : List Char :=
  text.take pos ++ List.replicate n c ++ text.drop pos

/-- One 64-bit half: four of the captured groups. -/
def half (groups : List (List Char)) : UInt64 :=
  groups.foldl (fun one g =>
    if 0 < g.length then (one <<< 16) ||| (UInt16.ofNat (Numeral.value 16 g)).toUInt64
    else one <<< 16) 0

def parseIPv6 (text : List Char) : Except Fault (UInt64 × UInt64) := do
  if (validation.fullMatch text).isNone then throw .badRepresentation
  let n := text.count ':'
  let text ←
    if n < 7 then
      match find [':', ':'] text with
      | some pos => pure (insert text pos (7 - n) ':')
      | none => throw .outOfRange
    else pure text
  match pattern.fullMatch text with
  | none => throw .badRepresentation
  | some groups => return (half (groups.take 4), half (groups.drop 4))

end IPv6Addr

/-! ## Addresses -/

structure IPv6Addr where
  data : BitVec 128
  deriving DecidableEq, Repr

namespace IPv6Addr

/-- The constructor from two numbers. -/
def ofNumber (num : UInt64 × UInt64) : IPv6Addr :=
  ⟨(num.1.toBitVec.setWidth 128 <<< 64) ||| num.2.toBitVec.setWidth 128⟩

/-- The constructor from a text. -/
def ofText (text : List Char) : Except Fault IPv6Addr := do
  let num ← parseIPv6 text
  return ofNumber num

/-- `to_ullong`, which throws when the number does not fit. -/
def toUllong (data : BitVec 128) : Except Fault UInt64 :=
  if data.toNat < 2 ^ 64 then .ok (UInt64.ofNat data.toNat) else .error .terminate

def toNumber (addr : IPv6Addr) : Except Fault (UInt64 × UInt64) := do
  let one ← toUllong addr.data
  let two ← toUllong (addr.data >>> 64)
  return (one, two)

def toHextets (addr : IPv6Addr) : Except Fault (List UInt16) := do
  let (one, two) ← addr.toNumber
  return [
    ((one &&& 0xffff000000000000) >>> 48).toUInt16,
    ((one &&& 0xffff00000000) >>> 32).toUInt16,
    ((one &&& 0xffff0000) >>> 16).toUInt16,
    ((one &&& 0xffff) >>> 0).toUInt16,
    ((two &&& 0xffff000000000000) >>> 48).toUInt16,
    ((two &&& 0xffff00000000) >>> 32).toUInt16,
    ((two &&& 0xffff0000) >>> 16).toUInt16,
    ((two &&& 0xffff) >>> 0).toUInt16]

def toOctets (addr : IPv6Addr) : Except Fault (List UInt8) := do
  let (one, two) ← addr.toNumber
  return [
    ((one &&& 0xff00000000000000) >>> 54).toUInt8,
    ((one &&& 0xff000000000000) >>> 48).toUInt8,
    ((one &&& 0xff0000000000) >>> 40).toUInt8,
    ((one &&& 0xff00000000) >>> 32).toUInt8,
    ((one &&& 0xff000000) >>> 24).toUInt8,
    ((one &&& 0xff0000) >>> 16).toUInt8,
    ((one &&& 0xff00) >>> 8).toUInt8,
    ((one &&& 0xff) >>> 0).toUInt8,
    ((two &&& 0xff00000000000000) >>> 54).toUInt8,
    ((two &&& 0xff000000000000) >>> 48).toUInt8,
    ((two &&& 0xff0000000000) >>> 40).toUInt8,
    ((two &&& 0xff00000000) >>> 32).toUInt8,
    ((two &&& 0xff000000) >>> 24).toUInt8,
    ((two &&& 0xff0000) >>> 16).toUInt8,
    ((two &&& 0xff00) >>> 8).toUInt8,
    ((two &&& 0xff) >>> 0).toUInt8]

/-- The output of eight groups, in lower case and without leading zeros. -/
def printHextets (data : List UInt16) : List Char :=
  [':'].intercalate (data.map fun h => Nat.toDigits 16 h.toNat)

/-- `operator<<` -/
def print (addr : IPv6Addr) : Except Fault (List Char) := do
  let data ← addr.toHextets
  return printHextets data

end IPv6Addr
