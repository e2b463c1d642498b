import Mathlib.Data.Char
import Runos.Lib.SortedMap

/-!
# JSON values and their texts (`json11.hpp`, `json11.cpp`)

A `std::string` is the list of its bytes, each the character of that number. What the program has of
doubles is a parameter: a double is dumped by `%.17g` and read by `atof`.
-/

namespace json11

/-- Doubles, of a type `δ`: the one an `int` becomes, `==`, `%.17g`, and `atof`. -/
structure Double (δ : Type) where
  ofInt : Int → δ
  eq : δ → δ → Bool
  print : δ → List Char
  atof : List Char → δ

inductive Json (δ : Type)
  | nul
  | bool (value : Bool)
  | int (value : Int32)
  | double (value : δ)
  | string (value : List Char)
  | array (values : List (Json δ))
  /-- a `std::map`: the members are in the order of their keys -/
  | object (values : List (List Char × Json δ))

namespace Json

variable {δ : Type}

/-- The induction over a value with lists of values in it. -/
theorem induction {P : Json δ → Prop} (nul : P .nul) (bool : ∀ b, P (.bool b))
    (int : ∀ n, P (.int n)) (double : ∀ d, P (.double d)) (string : ∀ s, P (.string s))
    (array : ∀ vs, (∀ v ∈ vs, P v) → P (.array vs))
    (object : ∀ ms, (∀ m ∈ ms, P m.2) → P (.object ms)) : ∀ v, P v := by
  refine @Json.rec δ P (fun vs => ∀ v ∈ vs, P v) (fun ms => ∀ m ∈ ms, P m.2) (fun m => P m.2)
    nul bool int double string array object ?_ ?_ ?_ ?_ ?_
  · exact fun _ h => absurd h List.not_mem_nil
  · exact fun v vs hv hvs => List.forall_mem_cons.2 ⟨hv, hvs⟩
  · exact fun _ h => absurd h List.not_mem_nil
  · exact fun m ms hm hms => List.forall_mem_cons.2 ⟨hm, hms⟩
  · exact fun _ _ h => h

/-! ## Accessors -/

def isNumber : Json δ → Bool
  | int _ => true
  | double _ => true
  | _ => false

def numberValue (C : Double δ) : Json δ → δ
  | int value => C.ofInt value.toInt
  | double value => value
  | _ => C.ofInt 0

def objectItems : Json δ → List (List Char × Json δ)
  | object values => values
  | _ => []

/-! ## Serialization -/

/-- `%d` -/
def dumpInt (value : Int) : List Char :=
  if value < 0 then '-' :: Nat.toDigits 10 value.natAbs else Nat.toDigits 10 value.natAbs

/-- One character of a string. -/
def escape (ch : Char) : List Char :=
  if ch = '\\' then ['\\', '\\']
  else if ch = '"' then ['\\', '"']
  else if ch = '\x08' then ['\\', 'b']
  else if ch = '\x0c' then ['\\', 'f']
  else if ch = '\n' then ['\\', 'n']
  else if ch = '\r' then ['\\', 'r']
  else if ch = '\t' then ['\\', 't']
  else if ch.toNat ≤ 0x1f then '\\' :: 'u' :: (Nat.toDigits 16 ch.toNat).leftpad 4 '0'
  else [ch]

/-- The characters of a string. The three bytes of U+2028 and of U+2029 are escaped together. -/
def dumpChars : List Char → List Char
  | [] => []
  | [a] => escape a
  | [a, b] => escape a ++ escape b
  | a :: b :: c :: value =>
    if a = '\xe2' ∧ b = '\x80' ∧ c = '\xa8' then
      ['\\', 'u', '2', '0', '2', '8'] ++ dumpChars value
    else if a = '\xe2' ∧ b = '\x80' ∧ c = '\xa9' then
      ['\\', 'u', '2', '0', '2', '9'] ++ dumpChars value
    else escape a ++ dumpChars (b :: c :: value)

def dumpString (value : List Char) : List Char := '"' :: (dumpChars value ++ ['"'])

def separator (first : Bool) : List Char := if first then [] else [',', ' ']

mutual

/-- `Json::dump` -/
def dump (C : Double δ) : Json δ → List Char
  | nul => ['n', 'u', 'l', 'l']
  | bool value => if value then ['t', 'r', 'u', 'e'] else ['f', 'a', 'l', 's', 'e']
  | int value => dumpInt value.toInt
  | double value => C.print value
  | string value => dumpString value
  | array values => '[' :: (dumpItems C true values ++ [']'])
  | object values => '{' :: (dumpMembers C true values ++ ['}'])

def dumpItems (C : Double δ) (first : Bool) : List (Json δ) → List Char
  | [] => []
  | value :: values => separator first ++ dump C value ++ dumpItems C false values

def dumpMembers (C : Double δ) (first : Bool) : List (List Char × Json δ) → List Char
  | [] => []
  | (key, value) :: values =>
    separator first ++ dumpString key ++ [':', ' '] ++ dump C value ++ dumpMembers C false values

end

/-! ## Comparison -/

mutual

/-- `operator==` -/
def equals (C : Double δ) : Json δ → Json δ → Bool
  | nul, nul => true
  | bool a, bool b => a == b
  | int a, other => other.isNumber && C.eq (C.ofInt a.toInt) (other.numberValue C)
  | double a, other => other.isNumber && C.eq a (other.numberValue C)
  | string a, string b => a == b
  | array a, array b => equalsItems C a b
  | object a, object b => equalsMembers C a b
  | _, _ => false

def equalsItems (C : Double δ) : List (Json δ) → List (Json δ) → Bool
  | [], [] => true
  | a :: as, b :: bs => equals C a b && equalsItems C as bs
  | _, _ => false

def equalsMembers (C : Double δ) : List (List Char × Json δ) → List (List Char × Json δ) → Bool
  | [], [] => true
  | (k, a) :: as, (k', b) :: bs => k == k' && equals C a b && equalsMembers C as bs
  | _, _ => false

end

/-! ## Parts and depth -/

mutual

/-- How deep arrays and objects that are not empty are nested. -/
def depth : Json δ → Nat
  | array values => depthItems values
  | object values => depthMembers values
  | _ => 0

def depthItems : List (Json δ) → Nat
  | [] => 0
  | value :: values => max (depth value + 1) (depthItems values)

def depthMembers : List (List Char × Json δ) → Nat
  | [] => 0
  | (_, value) :: values => max (depth value + 1) (depthMembers values)

end

mutual

/-- What holds of a value and of all values in it. -/
def All (P : Json δ → Prop) : Json δ → Prop
  | array values => P (array values) ∧ AllItems P values
  | object values => P (object values) ∧ AllMembers P values
  | value => P value

def AllItems (P : Json δ → Prop) : List (Json δ) → Prop
  | [] => True
  | value :: values => All P value ∧ AllItems P values

def AllMembers (P : Json δ → Prop) : List (List Char × Json δ) → Prop
  | [] => True
  | (_, value) :: values => All P value ∧ AllMembers P values

end

/-- The members of every object are in the order of their keys, no key twice. -/
def Sorted : Json δ → Prop := All fun v => SortedMap.Sorted v.objectItems

/-- Every double is one of `finite`. -/
def Finite (finite : δ → Prop) : Json δ → Prop := All fun v => ∀ d, v = double d → finite d

end Json
end json11
