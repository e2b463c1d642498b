import Mathlib.Algebra.Group.Nat.Defs
import Runos.Json.Parser

/-!
# The grammar of JSON

What the texts of JSON are and what they denote, apart from any parser: one relation for each part
of a text, built up from literals, numbers and strings (`Value`) to the values whose arrays and
objects are nested to a given depth (`Denotes`).
-/

namespace json11.Grammar

variable {δ : Type}

/-! ## Strings -/

/-- A part of a string: a character, or an escaped unit of UTF-16. -/
inductive Piece
  | char (c : Char)
  | unit (n : Nat)

def escapes : List (Char × Char) :=
  [('"', '"'), ('\\', '\\'), ('/', '/'), ('b', '\x08'), ('f', '\x0c'), ('n', '\n'), ('r', '\r'),
    ('t', '\t')]

inductive Piece.Text : Piece → List Char → Prop
  | plain {c : Char} : 0x20 ≤ c.toNat → c ≠ '"' → c ≠ '\\' → Text (.char c) [c]
  | escape {e c : Char} : (e, c) ∈ escapes → Text (.char c) ['\\', e]
  | unit {a b c d : Char} : (∀ x ∈ [a, b, c, d], x.isHexDigit = true) →
      Text (.unit (Numeral.value 16 [a, b, c, d])) ['\\', 'u', a, b, c, d]

inductive Chars : List Piece → List Char → Prop
  | nil : Chars [] []
  | cons {p : Piece} {ps : List Piece} {t text : List Char} :
      p.Text t → Chars ps text → Chars (p :: ps) (t ++ text)

/-- The bytes that pieces stand for. Two surrogates one after the other are one code point, and a
surrogate that stands alone is encoded as it is. -/
def decode : List Piece → List Char
  | [] => []
  | .char c :: ps => c :: decode ps
  | [.unit n] => encodeUtf8 n
  | .unit n :: .char c :: ps => encodeUtf8 n ++ c :: decode ps
  | .unit n :: .unit m :: ps =>
    if isLead n ∧ isTrail m then encodeUtf8 (combine n m) ++ decode ps
    else encodeUtf8 n ++ decode (.unit m :: ps)

inductive Str : List Char → List Char → Prop
  | mk {ps : List Piece} {t : List Char} : Chars ps t → Str ('"' :: (t ++ ['"'])) (decode ps)

/-! ## Numbers -/

def Digits (t : List Char) : Prop := ∀ c ∈ t, c.isDigit = true

inductive Integer : List Char → Prop
  | zero : Integer ['0']
  | pos {c : Char} {t : List Char} : c.isDigit = true → c ≠ '0' → Digits t → Integer (c :: t)

inductive Frac : List Char → Prop
  | none : Frac []
  | some {t : List Char} : t ≠ [] → Digits t → Frac ('.' :: t)

inductive Exp : List Char → Prop
  | none : Exp []
  | some {e : Char} {s t : List Char} : e ∈ ['e', 'E'] → s ∈ [[], ['+'], ['-']] → t ≠ [] →
      Digits t → Exp (e :: (s ++ t))

def minus (negative : Bool) : List Char := if negative then ['-'] else []

/-- The number that an integer denotes. -/
def intValue (negative : Bool) (t : List Char) : Int :=
  if negative then -(Numeral.value 10 t : Int) else Numeral.value 10 t

inductive Number : List Char → Prop
  | mk {b : Bool} {i f e : List Char} : Integer i → Frac f → Exp e →
      Number (minus b ++ i ++ f ++ e)

/-- What may stand behind a value: the end, a blank, or what ends a value. -/
def Follow (rest : List Char) : Prop :=
  ∀ c ∈ rest.head?, isSpace c = true ∨ c ∈ [',', ']', '}']

/-- `atof` reads a number up to what follows a value. -/
def Reads (C : Double δ) : Prop :=
  ∀ t rest, Number t → Follow rest → C.atof (t ++ rest) = C.atof t

/-- What dumping relies on of doubles: `atof` gives the double of an integer that is small enough;
from what `%.17g` writes it gives the double back; and what equals the same double is equal. -/
structure Lawful (C : Double δ) (finite : δ → Prop) : Prop where
  reads : Reads C
  integer : ∀ b t, Integer t → Numeral.value 10 t ≤ 2 ^ 53 →
    C.eq (C.atof (minus b ++ t)) (C.ofInt (intValue b t)) = true
  number : ∀ d, finite d → Number (C.print d)
  reread : ∀ d, finite d → C.eq (C.atof (C.print d)) d = true
  eq_of_eq : ∀ a b c, C.eq a b = true → C.eq a c = true → C.eq b c = true

/-! ## Values -/

def Ws (w : List Char) : Prop := ∀ c ∈ w, isSpace c = true

/-- Parts one after the other, with commas between them. -/
inductive Separated {α : Type} (R : List Char → α → Prop) : List Char → List α → Prop
  | one {t w : List Char} {a : α} : R t a → Ws w → Separated R (t ++ w) [a]
  | cons {t w u text : List Char} {a : α} {as : List α} : R t a → Ws w → Ws u →
      Separated R text as → Separated R (t ++ w ++ ',' :: (u ++ text)) (a :: as)

inductive Member (R : List Char → Json δ → Prop) : List Char → List Char × Json δ → Prop
  | mk {s k w u t : List Char} {v : Json δ} : Str s k → Ws w → Ws u → R t v →
      Member R (s ++ w ++ ':' :: (u ++ t)) (k, v)

/-- A value, where `R` is the relation for the values in it. A short integer is an `int`; of the
members with one key the last is kept. -/
inductive Value (C : Double δ) (R : List Char → Json δ → Prop) : List Char → Json δ → Prop
  | nul : Value C R ['n', 'u', 'l', 'l'] .nul
  | true : Value C R ['t', 'r', 'u', 'e'] (.bool true)
  | false : Value C R ['f', 'a', 'l', 's', 'e'] (.bool false)
  | int {b : Bool} {i : List Char} : Integer i → (minus b ++ i).length ≤ digits10 →
      Value C R (minus b ++ i) (.int (Int32.ofInt (intValue b i)))
  | double {b : Bool} {i f e : List Char} : Integer i → Frac f → Exp e →
      f ++ e ≠ [] ∨ digits10 < (minus b ++ i).length →
      Value C R (minus b ++ i ++ f ++ e) (.double (C.atof (minus b ++ i ++ f ++ e)))
  | string {t s : List Char} : Str t s → Value C R t (.string s)
  | emptyArray {w : List Char} : Ws w → Value C R ('[' :: (w ++ [']'])) (.array [])
  | array {w t : List Char} {vs : List (Json δ)} : Ws w → Separated R t vs →
      Value C R ('[' :: (w ++ t ++ [']'])) (.array vs)
  | emptyObject {w : List Char} : Ws w → Value C R ('{' :: (w ++ ['}'])) (.object [])
  | object {w t : List Char} {ms : List (List Char × Json δ)} : Ws w →
      Separated (Member R) t ms → Value C R ('{' :: (w ++ t ++ ['}'])) (.object (SortedMap.ofList ms))

/-- The values of the texts whose arrays and objects are nested to a depth at most. -/
def Denotes (C : Double δ) : Nat → List Char → Json δ → Prop
  | 0 => Value C fun _ _ => False
  | depth + 1 => Value C (Denotes C depth)

/-- A value with blanks around it. -/
def Document (C : Double δ) (depth : Nat) (text : List Char) (v : Json δ) : Prop :=
  ∃ w t w', text = w ++ t ++ w' ∧ Ws w ∧ Ws w' ∧ Denotes C depth t v

end json11.Grammar
