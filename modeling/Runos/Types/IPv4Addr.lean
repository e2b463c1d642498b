import Runos.Lib.Regex

/-!
# IPv4 addresses (`types/IPv4Addr.hh`, `types/IPv4Addr.cc`)

The parser with its regular expression, the octets of an address and its output. A `std::string` is
the text of its bytes, each the character of that number.
-/

namespace IPv4Addr

/-- How the parser can fail to return. -/
inductive Fault
  | badRepresentation
  deriving DecidableEq, Repr

/-! ## Texts -/

/-- `([[:digit:]]{1,3})` -/
abbrev octet : Regex Char := .group (.rep (.sat Char.isDigit) 1 2)

/-- `.`, which matches any character that does not end a line. -/
abbrev dot : Regex Char := .sat fun c => c ≠ '\n' ∧ c ≠ '\r'

/-- So many octets with a `.` between them. -/
def octetsPattern : Nat → Regex Char
  | 0 => octet
  | n + 1 => .seq octet (.seq dot (octetsPattern n))

/-- `ipv4_pattern` -/
def ipv4Pattern : Regex Char := octetsPattern 3

/-- The groups that `regex_match` captures of so many octets, each tried with three digits first. -/
def matchOctets : Nat → List Char → Option (List (List Char))
  | 0, _ => none
  | 1, text =>
    if 1 ≤ text.length ∧ text.length ≤ 3 ∧ text.all Char.isDigit then some [text] else none
  | groups + 2, text => [3, 2, 1].findSome? fun k =>
    match text.drop k with
    | [] => none
    | dot :: rest =>
      if (text.take k).all Char.isDigit ∧ dot ≠ '\n' ∧ dot ≠ '\r' then
        (matchOctets (groups + 1) rest).map (text.take k :: ·)
      else
        none

def parseIPv4Address (text : String) : Except Fault UInt32 :=
  match matchOctets 4 text.toList with
  | none => .error .badRepresentation
  | some octets => .ok (octets.foldl (fun res octet =>
      (res <<< 8) ||| (UInt8.ofNat (Nat.ofDigitChars 10 octet 0)).toUInt32) 0)

/-! ## Addresses -/

def toOctets (num : UInt32) : List UInt8 :=
  [((num &&& 0xff000000) >>> 24).toUInt8, ((num &&& 0xff0000) >>> 16).toUInt8,
    ((num &&& 0xff00) >>> 8).toUInt8, (num &&& 0xff).toUInt8]

/-- `operator<<` -/
def print (ip : UInt32) : String := ".".intercalate ((toOctets ip).map fun o => toString o.toNat)

end IPv4Addr
