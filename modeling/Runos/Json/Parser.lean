import Runos.Json.Value
import Runos.Lib.Fallible
import Runos.Lib.Numeral

/-!
# The parser of JSON (`json11.cpp`)

The position in the text is the rest of the text from there on, and behind the end of a text there
is a zero byte. A function that has not failed has read at least one byte (`Read`).
-/

namespace json11

variable {δ : Type}

/-- `esc`, where `char` is signed. -/
def esc (c : Char) : List Char :=
  let number := Json.dumpInt (if c.toNat < 0x80 then (c.toNat : Int) else c.toNat - 0x100)
  if 0x20 ≤ c.toNat ∧ c.toNat ≤ 0x7f then ['\'', c, '\'', ' ', '('] ++ number ++ [')']
  else ['('] ++ number ++ [')']

def inRange (x lower upper : Char) : Bool := decide (lower.toNat ≤ x.toNat ∧ x.toNat ≤ upper.toNat)

def maxDepth : Nat := 200

/-- `str[i]` -/
def peek (str : List Char) : Char := str.headD '\x00'

def isSpace (c : Char) : Bool := c == ' ' || c == '\r' || c == '\n' || c == '\t'

/-- `consume_whitespace` -/
def consumeWhitespace (str : List Char) : List Char := str.dropWhile isSpace

/-- A parse that has failed: the message, what the function in which it failed returns, and where
the parser stands. -/
structure Failure (δ : Type) where
  err : List Char
  value : Json δ
  rest : List Char

/-- What a function returns that has read from `str`. -/
structure Read (α : Type) (str : List Char) where
  value : α
  rest : List Char
  lt : rest.length < str.length

abbrev Result (δ α : Type) (str : List Char) := Except (Failure δ) (Read α str)

/-- What is read from the end of a text is read from the text. -/
def Read.from {α : Type} {str' str : List Char} (r : Read α str') (h : str'.length ≤ str.length) :
    Read α str :=
  ⟨r.value, r.rest, Nat.lt_of_lt_of_le r.lt h⟩

/-- `fail` of a function that returns a `Json`. -/
def fail {α : Type} (msg : List Char) (rest : List Char) : Except (Failure δ) α :=
  .error ⟨msg, .nul, rest⟩

theorem length_consumeWhitespace (str : List Char) :
    (consumeWhitespace str).length ≤ str.length :=
  (List.dropWhile_suffix isSpace).length_le

/-- `get_next_token` -/
def getNextToken (str : List Char) : Result δ Char str :=
  match h : consumeWhitespace str with
  | [] => fail "unexpected end of input".toList []
  | ch :: rest => .ok ⟨ch, rest, by
      have := length_consumeWhitespace str
      rw [h] at this
      exact this⟩

/-! ## Strings -/

def byte (n : Nat) : Char := Char.ofNat (n % 256)

/-- `encode_utf8` -/
def encodeUtf8 (pt : Nat) : List Char :=
  if pt < 0x80 then [byte pt]
  else if pt < 0x800 then [byte (pt >>> 6 ||| 0xC0), byte (pt &&& 0x3F ||| 0x80)]
  else if pt < 0x10000 then
    [byte (pt >>> 12 ||| 0xE0), byte (pt >>> 6 &&& 0x3F ||| 0x80), byte (pt &&& 0x3F ||| 0x80)]
  else
    [byte (pt >>> 18 ||| 0xF0), byte (pt >>> 12 &&& 0x3F ||| 0x80),
      byte (pt >>> 6 &&& 0x3F ||| 0x80), byte (pt &&& 0x3F ||| 0x80)]

/-- `encode_utf8(last_escaped_codepoint, out)`, where −1 is `none`. -/
def flush : Option Nat → List Char
  | none => []
  | some pt => encodeUtf8 pt

def isHexDigit (c : Char) : Bool := inRange c 'a' 'f' || inRange c 'A' 'F' || inRange c '0' '9'

def isLead (pt : Nat) : Prop := 0xD800 ≤ pt ∧ pt ≤ 0xDBFF
def isTrail (pt : Nat) : Prop := 0xDC00 ≤ pt ∧ pt ≤ 0xDFFF

instance : DecidablePred isLead := fun _ => inferInstanceAs (Decidable (_ ∧ _))
instance : DecidablePred isTrail := fun _ => inferInstanceAs (Decidable (_ ∧ _))

/-- The code point of two surrogates. -/
def combine (lead trail : Nat) : Nat := ((lead - 0xD800) <<< 10 ||| (trail - 0xDC00)) + 0x10000

/-- After an escaped code point: what is put out, and the code point that waits for its pair. -/
def escaped (last : Option Nat) (codepoint : Nat) : List Char × Option Nat :=
  match last with
  | none => ([], some codepoint)
  | some lead =>
    if isLead lead ∧ isTrail codepoint then (encodeUtf8 (combine lead codepoint), none)
    else (encodeUtf8 lead, some codepoint)

/-- The escapes of one character. -/
def unescape (ch : Char) : Option Char :=
  if ch = 'b' then some '\x08'
  else if ch = 'f' then some '\x0c'
  else if ch = 'n' then some '\n'
  else if ch = 'r' then some '\r'
  else if ch = 't' then some '\t'
  else if ch = '"' ∨ ch = '\\' ∨ ch = '/' then some ch
  else none

/-- `fail` in `parse_string`, which returns `""`. -/
def failString {α : Type} (msg : List Char) (rest : List Char) : Except (Failure δ) α :=
  .error ⟨msg, .string [], rest⟩

/-- The loop of `parse_string`, with its variables `out` and `last_escaped_codepoint`. -/
def parseString (out : List Char) (last : Option Nat) :
    List Char → Except (Failure δ) (List Char × List Char)
  | [] => failString "unexpected end of input in string".toList []
  | ch :: rest =>
    if ch = '"' then .ok (out ++ flush last, rest)
    else if inRange ch '\x00' '\x1f' then
      failString ("unescaped ".toList ++ esc ch ++ " in string".toList) rest
    else if ch ≠ '\\' then parseString (out ++ flush last ++ [ch]) none rest
    else
      match rest with
      | [] => failString "unexpected end of input in string".toList []
      | ch :: rest =>
        if ch = 'u' then
          match rest with
          | a :: b :: c :: d :: rest' =>
            if isHexDigit a && isHexDigit b && isHexDigit c && isHexDigit d then
              let (put, last) := escaped last (Numeral.value 16 [a, b, c, d])
              parseString (out ++ put) last rest'
            else failString ("bad \\u escape: ".toList ++ [a, b, c, d]) rest
          | rest => failString ("bad \\u escape: ".toList ++ rest) rest
        else
          match unescape ch with
          | some ch => parseString (out ++ flush last ++ [ch]) none rest
          | none => failString ("invalid escape character ".toList ++ esc ch) rest

/-! ## Numbers -/

def isDigit (c : Char) : Bool := inRange c '0' '9'

/-- The integer part. -/
def integerPart (str : List Char) : Except (Failure δ) (List Char) :=
  if peek str = '0' then
    if isDigit (peek str.tail) then fail "leading 0s not permitted in numbers".toList str.tail
    else .ok str.tail
  else if inRange (peek str) '1' '9' then .ok (str.tail.dropWhile isDigit)
  else fail ("invalid ".toList ++ esc (peek str) ++ " in number".toList) str

/-- The decimal part. -/
def decimalPart (str : List Char) : Except (Failure δ) (List Char) :=
  if peek str = '.' then
    if isDigit (peek str.tail) then .ok (str.tail.dropWhile isDigit)
    else fail "at least one digit required in fractional part".toList str.tail
  else .ok str

def skipSign (str : List Char) : List Char :=
  if peek str = '+' ∨ peek str = '-' then str.tail else str

/-- The exponent part. -/
def exponentPart (str : List Char) : Except (Failure δ) (List Char) :=
  if peek str = 'e' ∨ peek str = 'E' then
    if isDigit (peek (skipSign str.tail)) then .ok ((skipSign str.tail).dropWhile isDigit)
    else fail "at least one digit required in exponent".toList (skipSign str.tail)
  else .ok str

/-- `atoi` of a text that starts with a sign or a digit. -/
def atoi (str : List Char) : Int :=
  if peek str = '-' then -(Numeral.value 10 (str.tail.takeWhile isDigit) : Int)
  else Numeral.value 10 (str.takeWhile isDigit)

/-- `std::numeric_limits<int>::digits10` -/
def digits10 : Nat := 9

/-- `parse_number` -/
def parseNumber (C : Double δ) (str : List Char) : Except (Failure δ) (Json δ × List Char) := do
  let rest ← integerPart (if peek str = '-' then str.tail else str)
  if peek rest ≠ '.' ∧ peek rest ≠ 'e' ∧ peek rest ≠ 'E' ∧ str.length - rest.length ≤ digits10 then
    .ok (.int (Int32.ofInt (atoi str)), rest)
  else
    let rest ← decimalPart rest
    let rest ← exponentPart rest
    .ok (.double (C.atof str), rest)

/-- `expect`, at the character that was just read. -/
def expect (expected : List Char) (res : Json δ) (str : List Char) :
    Except (Failure δ) (Json δ × List Char) :=
  let found := str.take expected.length
  if expected = found then .ok (res, str.drop expected.length)
  else fail ("parse error: expected ".toList ++ expected ++ ", got ".toList ++ found) str

/-! ## What is read is not empty -/

theorem length_parseString {out s rest : List Char} {last : Option Nat} {str : List Char}
    (h : parseString (δ := δ) out last str = .ok (s, rest)) : rest.length < str.length := by
  fun_induction parseString (δ := δ) out last str with
  | case2 => cases h; exact Nat.lt_succ_self _
  | case4 out last ch rest _ _ _ ih => exact Nat.lt_succ_of_lt (ih h)
  | case6 =>
    rename_i ih
    have := ih h
    simp only [List.length_cons]
    omega
  | case9 =>
    rename_i ih
    have := ih h
    simp only [List.length_cons]
    omega
  | case1 | case3 | case5 | case7 | case8 | case10 => cases h

theorem length_tail_lt {str : List Char} {c : Char} (h : peek str = c) (hc : c ≠ '\x00') :
    str.tail.length < str.length := by
  cases str with
  | nil => exact absurd h.symm hc
  | cons a str => exact Nat.lt_succ_self _

theorem length_tail_le (str : List Char) : str.tail.length ≤ str.length := by
  rw [List.length_tail]
  omega

theorem length_skipSign (str : List Char) : (skipSign str).length ≤ str.length := by
  rw [skipSign]
  split
  · exact length_tail_le _
  · exact Nat.le_refl _

theorem length_dropWhile_le (p : Char → Bool) (str : List Char) :
    (str.dropWhile p).length ≤ str.length :=
  (List.dropWhile_suffix p).length_le

theorem length_integerPart {str rest : List Char} (h : integerPart (δ := δ) str = .ok rest) :
    rest.length < str.length := by
  rw [integerPart] at h
  split at h
  · rename_i h0
    split at h
    · cases h
    · cases h
      exact length_tail_lt h0 (by decide)
  · split at h
    · rename_i h1
      cases h
      refine Nat.lt_of_le_of_lt (length_dropWhile_le _ _) (length_tail_lt rfl ?_)
      intro h0
      rw [h0] at h1
      cases h1
    · cases h

theorem length_decimalPart {str rest : List Char} (h : decimalPart (δ := δ) str = .ok rest) :
    rest.length ≤ str.length := by
  rw [decimalPart] at h
  split at h
  · split at h
    · cases h
      exact (length_dropWhile_le _ _).trans (length_tail_le _)
    · cases h
  · cases h
    exact Nat.le_refl _

theorem length_exponentPart {str rest : List Char} (h : exponentPart (δ := δ) str = .ok rest) :
    rest.length ≤ str.length := by
  rw [exponentPart] at h
  split at h
  · split at h
    · cases h
      exact (length_dropWhile_le _ _).trans ((length_skipSign _).trans (length_tail_le _))
    · cases h
  · cases h
    exact Nat.le_refl _

theorem length_parseNumber {C : Double δ} {str rest : List Char} {v : Json δ}
    (h : parseNumber C str = .ok (v, rest)) : rest.length < str.length := by
  obtain ⟨r, hr, h⟩ := Fallible.bind_ok h
  have hlt : r.length < str.length := by
    refine Nat.lt_of_lt_of_le (length_integerPart hr) ?_
    split
    · exact length_tail_le _
    · exact Nat.le_refl _
  split at h
  · cases h
    exact hlt
  · obtain ⟨r₁, h₁, h⟩ := Fallible.bind_ok h
    obtain ⟨r₂, h₂, h⟩ := Fallible.bind_ok h
    cases h
    exact Nat.lt_of_le_of_lt ((length_exponentPart h₂).trans (length_decimalPart h₁)) hlt

theorem length_expect {expected str rest : List Char} {res v : Json δ} (hne : expected ≠ [])
    (h : expect expected res str = .ok (v, rest)) : rest.length < str.length := by
  rw [expect] at h
  split at h
  · rename_i heq
    cases h
    have hlen := congrArg List.length heq
    have hpos := List.length_pos_of_ne_nil hne
    rw [List.length_take] at hlen
    rw [List.length_drop]
    omega
  · cases h

/-! ## Values -/

/-- What a function has returned that reads at least one byte. -/
def Result.of {α : Type} {str : List Char} :
    (x : Except (Failure δ) (α × List Char)) →
      (∀ a rest, x = .ok (a, rest) → rest.length < str.length) → Result δ α str
  | .error f, _ => .error f
  | .ok (a, rest), h => .ok ⟨a, rest, h a rest rfl⟩

/-- `if (failed) return Json()` after a call. -/
def orNul {α : Type} (x : Except (Failure δ) α) : Except (Failure δ) α :=
  x.mapError fun f => { f with value := .nul }

/-- A string, behind its opening quote. -/
def readString (str : List Char) : Result δ (List Char) str :=
  Result.of (parseString [] none str) fun _ _ => length_parseString

/-- The loop over the items of an array, with its variable `data`. The function for the values is
given. -/
def parseItems (value : (str : List Char) → Result δ (Json δ) str) (data : List (Json δ))
    (str : List Char) : Result δ (List (Json δ)) str := do
  let v ← orNul (value str)
  let ch ← getNextToken v.rest
  if ch.value = ']' then
    .ok ⟨data ++ [v.value], ch.rest, ch.lt.trans v.lt⟩
  else if ch.value ≠ ',' then
    fail ("expected ',' in list, got ".toList ++ esc ch.value) ch.rest
  else
    let next ← getNextToken ch.rest
    -- `i--`: the item starts with the byte that was just read
    let r ← parseItems value (data ++ [v.value]) (next.value :: next.rest)
    .ok (r.from (Nat.le_of_lt (Nat.lt_of_le_of_lt next.lt (ch.lt.trans v.lt))))
termination_by str.length
decreasing_by exact Nat.lt_of_le_of_lt next.lt (ch.lt.trans v.lt)

/-- The loop over the members of an object, with its variables `data` and `ch`. -/
def parseMembers (value : (str : List Char) → Result δ (Json δ) str)
    (data : List (List Char × Json δ)) (ch : Char) (str : List Char) :
    Result δ (List (List Char × Json δ)) str := do
  if ch ≠ '"' then
    fail ("expected '\"' in object, got ".toList ++ esc ch) str
  else
    let key ← orNul (readString str)
    let colon ← getNextToken key.rest
    if colon.value ≠ ':' then
      fail ("expected ':' in object, got ".toList ++ esc colon.value) colon.rest
    else
      let v ← orNul (value colon.rest)
      let ch ← getNextToken v.rest
      have hlt : ch.rest.length < str.length :=
        ch.lt.trans (v.lt.trans (colon.lt.trans key.lt))
      if ch.value = '}' then
        .ok ⟨SortedMap.insert key.value v.value data, ch.rest, hlt⟩
      else if ch.value ≠ ',' then
        fail ("expected ',' in object, got ".toList ++ esc ch.value) ch.rest
      else
        let next ← getNextToken ch.rest
        let r ← parseMembers value (SortedMap.insert key.value v.value data) next.value next.rest
        .ok (r.from (Nat.le_of_lt (next.lt.trans hlt)))
termination_by str.length
decreasing_by exact next.lt.trans hlt

/-- `parse_json`, where the depth is counted down from `max_depth + 1`. -/
def parseJson (C : Double δ) : Nat → (str : List Char) → Result δ (Json δ) str
  | 0, str => fail "exceeded maximum nesting depth".toList str
  | depth + 1, str => do
    let ch ← getNextToken str
    -- `i--`: the text from the byte on that was just read
    let token := ch.value :: ch.rest
    have hle : token.length ≤ str.length := ch.lt
    if ch.value = '-' ∨ inRange ch.value '0' '9' then
      Result.of (parseNumber C token) fun _ _ h => Nat.lt_of_lt_of_le (length_parseNumber h) hle
    else if ch.value = 't' then
      Result.of (expect ['t', 'r', 'u', 'e'] (.bool true) token) fun _ _ h =>
        Nat.lt_of_lt_of_le (length_expect (List.cons_ne_nil _ _) h) hle
    else if ch.value = 'f' then
      Result.of (expect ['f', 'a', 'l', 's', 'e'] (.bool false) token) fun _ _ h =>
        Nat.lt_of_lt_of_le (length_expect (List.cons_ne_nil _ _) h) hle
    else if ch.value = 'n' then
      Result.of (expect ['n', 'u', 'l', 'l'] .nul token) fun _ _ h =>
        Nat.lt_of_lt_of_le (length_expect (List.cons_ne_nil _ _) h) hle
    else if ch.value = '"' then
      let s ← readString ch.rest
      .ok ⟨.string s.value, s.rest, s.lt.trans ch.lt⟩
    else if ch.value = '{' then
      let next ← getNextToken ch.rest
      if next.value = '}' then .ok ⟨.object [], next.rest, next.lt.trans ch.lt⟩
      else
        let r ← parseMembers (parseJson C depth) [] next.value next.rest
        .ok ⟨.object r.value, r.rest, r.lt.trans (next.lt.trans ch.lt)⟩
    else if ch.value = '[' then
      let next ← getNextToken ch.rest
      if next.value = ']' then .ok ⟨.array [], next.rest, next.lt.trans ch.lt⟩
      else
        let r ← parseItems (parseJson C depth) [] (next.value :: next.rest)
        .ok ⟨.array r.value, r.rest, r.lt.trans (Nat.lt_of_le_of_lt next.lt ch.lt)⟩
    else fail ("expected value, got ".toList ++ esc ch.value) ch.rest

/-- `Json::parse`, with what `err` holds before and after it. -/
def parse (C : Double δ) (text : List Char) (err : List Char) : Json δ × List Char :=
  match parseJson C (maxDepth + 1) text with
  | .error f => (if consumeWhitespace f.rest = [] then f.value else .nul, f.err)
  | .ok r =>
    match consumeWhitespace r.rest with
    | [] => (r.value, err)
    | c :: _ => (.nul, "unexpected trailing ".toList ++ esc c)

/-- `Json::parse_multi` -/
def parseMulti (C : Double δ) (text : List Char) (err : List Char) :
    List (Json δ) × List Char :=
  if text = [] then ([], err)
  else
    match parseJson C (maxDepth + 1) text with
    | .error f => ([f.value], f.err)
    | .ok r =>
      let (values, err) := parseMulti C (consumeWhitespace r.rest) err
      (r.value :: values, err)
termination_by text.length
decreasing_by exact Nat.lt_of_le_of_lt (length_consumeWhitespace _) r.lt

end json11
