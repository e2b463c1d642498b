import Runos.Rest.StringProcessing

/-!
# Which texts are cast exactly

`StartsWith val negative n`: behind blanks and a sign, `val` starts with the number `n`. That number
is what the cast takes (`extract_of_startsWith`), whatever follows it; a text of blanks gives what
the variable held before (`extract_blank`), and there is no other text (`blank_or_startsWith`). So
the cast tells a numeral from another text only where the number in front is too large
(`castsExactly_iff`).
-/

namespace Rest

open Numeral Stream

variable {T : Uint} {val text : List Char} {negative : Bool} {n : Nat} {noOverflow : UInt64}

/-! ## Numerals -/

/-- The number that a text of decimal digits denotes. -/
def decimal (text : List Char) : Option Nat :=
  if text ≠ [] ∧ text.all Char.isDigit = true then some (value 10 text) else none

/-- The number that a text of decimal digits, or of hexadecimal digits after `0x`, denotes. -/
def numeral : List Char → Option Nat
  | '0' :: 'x' :: digits =>
    if digits ≠ [] ∧ digits.all Char.isHexDigit = true then some (value 16 digits) else none
  | text => decimal text

/-- Whatever the variable holds before, the cast gives the number that the text denotes when it is
in range, and an exception for any other text. -/
def CastsExactly (T : Uint) (val : List Char) : Prop :=
  ∀ noOverflow, (∀ n, stringCast T noOverflow val = .ok n ↔ numeral val = some n ∧ n < 2 ^ T.bits) ∧
    ((¬ ∃ n, numeral val = some n ∧ n < 2 ^ T.bits) →
      ∃ e, stringCast T noOverflow val = .error e)

/-! ## What stands in front -/

/-- Behind blanks and a sign, the text starts with the number. -/
inductive StartsWith : List Char → Bool → Nat → Prop
  | decimal {blanks sign digits rest : List Char} {negative : Bool}
      (hblanks : ∀ c ∈ blanks, isSpace c = true)
      (hsign : negative = true ∧ sign = ['-'] ∨ negative = false ∧ (sign = [] ∨ sign = ['+']))
      (hne : digits ≠ []) (hdigits : ∀ c ∈ digits, c.isDigit = true)
      (hrest : ∀ c ∈ rest.head?, c.isDigit = false)
      (hhex : isHex (blanks ++ (sign ++ (digits ++ rest))) = false) :
      StartsWith (blanks ++ (sign ++ (digits ++ rest))) negative (value 10 digits)
  | hexadecimal {digits rest : List Char} (hne : digits ≠ [])
      (hdigits : ∀ c ∈ digits, c.isHexDigit = true)
      (hrest : ∀ c ∈ rest.head?, c.isHexDigit = false) :
      StartsWith ('0' :: 'x' :: (digits ++ rest)) false (value 16 digits)

/-- What the variable holds after the number. -/
def stored (negative : Bool) (n : Nat) : Nat :=
  if 2 ^ 64 ≤ n then 2 ^ 64 - 1 else if negative then (2 ^ 64 - n) % 2 ^ 64 else n

/-- The number, with its sign, is none of the type: a negative one counts from `2 ^ 64` down. -/
def TooLarge (T : Uint) (negative : Bool) (n : Nat) : Prop :=
  if negative then 1 ≤ n ∧ n ≤ 2 ^ 64 - 2 ^ T.bits ∨ 2 ^ 64 ≤ n else 2 ^ T.bits ≤ n

theorem stored_lt : stored negative n < 2 ^ 64 := by
  unfold stored
  split
  · decide
  · split <;> omega

theorem le_stored_iff : 2 ^ T.bits ≤ stored negative n ↔ T ≠ .uint64 ∧ TooLarge T negative n := by
  have hlt : stored negative n < 2 ^ 64 := stored_lt
  cases T with
  | uint64 =>
    refine ⟨fun h => ?_, fun h => ?_⟩
    · exact absurd hlt (Nat.not_lt.2 h)
    · exact absurd rfl h.1
  | _ =>
    cases negative <;> simp only [stored, TooLarge, Uint.bits, reduceCtorEq, ne_eq,
      not_false_eq_true, true_and, if_true, if_false, Bool.false_eq_true] <;> split <;> omega

theorem stored_zero (negative : Bool) : stored negative 0 = 0 := by
  cases negative <;> rfl

theorem extract_blank (h : val.dropWhile isSpace = []) (hex : Bool) :
    extract hex noOverflow val = noOverflow.toNat := if_pos h

theorem extract_of_ne (h : val.dropWhile isSpace ≠ []) (hex : Bool) :
    extract hex noOverflow val = stored (skipSign (val.dropWhile isSpace)).1
      (if hex then
        value 16 ((skipBase (skipSign (val.dropWhile isSpace)).2).takeWhile Char.isHexDigit)
      else value 10 ((skipSign (val.dropWhile isSpace)).2.takeWhile Char.isDigit)) := if_neg h

theorem skipSign_of_sign {sign : List Char} (hsign : negative = true ∧ sign = ['-'] ∨
    negative = false ∧ (sign = [] ∨ sign = ['+'])) (hne : text ≠ [])
    (htext : ∀ c ∈ text.head?, c.isDigit = true) : skipSign (sign ++ text) = (negative, text) := by
  obtain ⟨rfl, rfl⟩ | ⟨rfl, rfl | rfl⟩ := hsign
  · rfl
  · obtain ⟨c, text, rfl⟩ := List.exists_cons_of_ne_nil hne
    have hc : c.isDigit = true := htext c rfl
    -- a digit is no sign
    show skipSign (c :: text) = _
    unfold skipSign
    split
    · rename_i heq
      cases heq
      exact absurd hc (by decide)
    · rename_i heq
      cases heq
      exact absurd hc (by decide)
    · rfl
  · rfl

/-- **The number in front is what the cast takes.** -/
theorem extract_of_startsWith (h : StartsWith val negative n) :
    extract (isHex val) noOverflow val = stored negative n := by
  cases h with
  | @decimal blanks sign digits rest negative hblanks hsign hne hdigits hrest hhex =>
    obtain ⟨c, cs, rfl⟩ := List.exists_cons_of_ne_nil hne
    have hc : c.isDigit = true := hdigits c List.mem_cons_self
    have hhead : ∀ d ∈ (sign ++ (c :: cs ++ rest)).head?, isSpace d = false := by
      intro d hd
      obtain ⟨-, rfl⟩ | ⟨-, rfl | rfl⟩ := hsign
      · cases hd; rfl
      · cases hd; exact isSpace_of_isDigit hc
      · cases hd; rfl
    have hdrop : (blanks ++ (sign ++ (c :: cs ++ rest))).dropWhile isSpace =
        sign ++ (c :: cs ++ rest) := by
      rw [List.dropWhile_append_of_pos hblanks, dropWhile_isSpace_of_head hhead]
    have hsome : sign ++ (c :: cs ++ rest) ≠ [] := by simp
    have htake := (takeWhile_append_of_ends _ rest hdigits hrest).1
    have hskip : skipSign (sign ++ (c :: cs ++ rest)) = (negative, c :: cs ++ rest) := by
      refine skipSign_of_sign hsign (List.cons_ne_nil _ _) ?_
      intro d hd
      cases hd
      exact hc
    rw [hhex, extract_of_ne (by rw [hdrop]; exact hsome), hdrop, hskip]
    simp only [Bool.false_eq_true, if_false, htake]
  | @hexadecimal digits rest hne hdigits hrest =>
    have htake := (takeWhile_append_of_ends digits rest hdigits hrest).1
    show stored false (value 16 ((digits ++ rest).takeWhile Char.isHexDigit)) = _
    rw [htake]

theorem isHex_iff : isHex val = true ↔ ∃ text, val = '0' :: 'x' :: text := by
  refine ⟨fun h => ?_, fun h => ?_⟩
  · unfold isHex at h
    split at h
    · exact ⟨_, rfl⟩
    · cases h
  · obtain ⟨text, rfl⟩ := h
    rfl

theorem head?_dropWhile_false (q : Char → Bool) (text : List Char) :
    ∀ c ∈ (text.dropWhile q).head?, q c = false := by
  intro c hc
  have := List.head?_dropWhile_not q text
  rw [Option.mem_def.1 hc] at this
  exact this

theorem skipSign_spec (text : List Char) : ∃ sign, text = sign ++ (skipSign text).2 ∧
    ((skipSign text).1 = true ∧ sign = ['-'] ∨
      (skipSign text).1 = false ∧ (sign = [] ∨ sign = ['+'])) := by
  unfold skipSign
  split
  · exact ⟨['-'], rfl, .inl ⟨rfl, rfl⟩⟩
  · exact ⟨['+'], rfl, .inr ⟨rfl, .inr rfl⟩⟩
  · exact ⟨[], rfl, .inr ⟨rfl, .inl rfl⟩⟩

/-- Blanks, no number, or a number in front. -/
theorem blank_or_startsWith (val : List Char) : val.dropWhile isSpace = [] ∨
    (∀ noOverflow, extract (isHex val) noOverflow val = 0) ∨
    ∃ negative n, StartsWith val negative n := by
  cases hhex : isHex val with
  | true =>
    obtain ⟨text, rfl⟩ := isHex_iff.1 hhex
    by_cases hne : text.takeWhile Char.isHexDigit = []
    · right; left
      intro noOverflow
      show stored false (value 16 (text.takeWhile Char.isHexDigit)) = 0
      rw [hne]
      exact stored_zero false
    · right; right
      have hs := StartsWith.hexadecimal hne (fun c => List.mem_takeWhile_imp)
        (head?_dropWhile_false Char.isHexDigit text)
      rw [List.takeWhile_append_dropWhile] at hs
      exact ⟨false, _, hs⟩
  | false =>
    by_cases hblank : val.dropWhile isSpace = []
    · exact .inl hblank
    obtain ⟨sign, hval, hsign⟩ := skipSign_spec (val.dropWhile isSpace)
    generalize htext : (skipSign (val.dropWhile isSpace)).2 = text at hval
    by_cases hne : text.takeWhile Char.isDigit = []
    · right; left
      intro noOverflow
      rw [extract_of_ne hblank, htext]
      simp only [Bool.false_eq_true, if_false, hne]
      exact stored_zero _
    · right; right
      have hparts : val = val.takeWhile isSpace ++
          (sign ++ (text.takeWhile Char.isDigit ++ text.dropWhile Char.isDigit)) := by
        rw [List.takeWhile_append_dropWhile, ← hval, List.takeWhile_append_dropWhile]
      rw [hparts] at hhex
      have hs := StartsWith.decimal (fun c => List.mem_takeWhile_imp) hsign hne
        (fun c => List.mem_takeWhile_imp) (head?_dropWhile_false Char.isDigit text) hhex
      rw [← hparts] at hs
      exact ⟨_, _, hs⟩

/-! ## The cast -/

theorem stringCast_eq : stringCast T noOverflow val =
    if extract (isHex val) noOverflow val < 2 ^ T.bits then
      .ok (extract (isHex val) noOverflow val)
    else .error overflow := by
  have hpos : 0 < 2 ^ T.bits := Nat.two_pow_pos _
  simp only [stringCast]
  split
  · rename_i hne
    rw [if_neg fun hlt => hne (Nat.mod_eq_of_lt hlt)]
  · rename_i heq
    have heq := not_not.1 heq
    rw [if_pos (heq ▸ Nat.mod_lt _ hpos), heq]

theorem decimal_eq_some (h : decimal text = some n) :
    text ≠ [] ∧ (∀ c ∈ text, c.isDigit = true) ∧ value 10 text = n := by
  unfold decimal at h
  split at h
  · rename_i hdigits
    cases h
    exact ⟨hdigits.1, List.all_eq_true.1 hdigits.2, rfl⟩
  · cases h

theorem isHex_of_decimal (h : decimal text = some n) : isHex text = false := by
  rw [← Bool.not_eq_true, isHex_iff]
  intro hx
  obtain ⟨text, rfl⟩ := hx
  exact absurd ((decimal_eq_some h).2.1 'x' (List.mem_cons_of_mem _ List.mem_cons_self)) (by decide)

theorem numeral_of_decimal (h : decimal text = some n) : numeral text = some n := by
  have hhex := isHex_of_decimal h
  unfold numeral
  split
  · cases hhex
  · exact h

theorem startsWith_of_decimal (h : decimal text = some n) : StartsWith text false n := by
  have hhex := isHex_of_decimal h
  obtain ⟨hne, hdigits, rfl⟩ := decimal_eq_some h
  have hs := @StartsWith.decimal [] [] text [] false (fun c hc => absurd hc List.not_mem_nil)
    (.inr ⟨rfl, .inl rfl⟩) hne hdigits (fun c hc => by cases hc) (by simpa using hhex)
  simpa using hs

/-- A numeral starts with the number it denotes. -/
theorem startsWith_of_numeral (h : numeral val = some n) : StartsWith val false n := by
  unfold numeral at h
  split at h
  · rename_i digits
    split at h
    · rename_i hdigits
      cases h
      have hs := @StartsWith.hexadecimal digits [] hdigits.1 (List.all_eq_true.1 hdigits.2)
        (fun c hc => by cases hc)
      simpa using hs
    · cases h
  · exact startsWith_of_decimal h

theorem stringCast_of_startsWith (h : StartsWith val negative n) (noOverflow : UInt64) :
    stringCast T noOverflow val =
      if stored negative n < 2 ^ T.bits then .ok (stored negative n) else .error overflow := by
  rw [stringCast_eq, extract_of_startsWith h]

theorem stringCast_of_numeral (h : numeral val = some n) (hT : T = .uint64 → n < 2 ^ 64)
    (noOverflow : UInt64) : stringCast T noOverflow val =
      if n < 2 ^ T.bits then .ok n else .error overflow := by
  rw [stringCast_of_startsWith (startsWith_of_numeral h)]
  by_cases hn : n < 2 ^ 64
  · rw [stored, if_neg (Nat.not_le.2 hn), if_neg Bool.false_ne_true]
  · have hlow : T.bits ≤ 32 := by
      cases T with
      | uint64 => exact absurd (hT rfl) hn
      | _ => decide
    have hle : 2 ^ T.bits ≤ 2 ^ 32 := Nat.pow_le_pow_right (by decide) hlow
    rw [stored, if_pos (Nat.le_of_not_lt hn), if_neg (by omega), if_neg (by omega)]

theorem exists_error_iff : (∃ e, stringCast T noOverflow val = .error e) ↔
    2 ^ T.bits ≤ extract (isHex val) noOverflow val := by
  rw [stringCast_eq]
  refine ⟨fun h => ?_, fun h => ?_⟩
  · obtain ⟨e, he⟩ := h
    split at he
    · cases he
    · rename_i hle
      exact Nat.le_of_not_lt hle
  · rw [if_neg (Nat.not_lt.2 h)]
    exact ⟨overflow, rfl⟩

/-- A numeral is cast exactly when the greatest number of 64 bits cannot be taken for it. -/
theorem castsExactly_of_numeral (h : numeral val = some n) :
    CastsExactly T val ↔ (T = .uint64 → n < 2 ^ 64) := by
  have hs := startsWith_of_numeral h
  refine ⟨fun hexact hT => ?_, fun hT noOverflow => ?_⟩
  · subst hT
    by_contra hle
    -- the greatest number would be returned
    have hcast : stringCast .uint64 0 val = .ok (2 ^ 64 - 1) := by
      rw [stringCast_of_startsWith hs, stored, if_pos (Nat.le_of_not_lt hle)]
      rfl
    obtain ⟨hnum, hlt⟩ := ((hexact 0).1 _).1 hcast
    rw [h, Option.some.injEq] at hnum
    omega
  · rw [stringCast_of_numeral h hT, h]
    by_cases hn : n < 2 ^ T.bits
    · rw [if_pos hn]
      refine ⟨fun m => ?_, fun hno => absurd ⟨n, rfl, hn⟩ hno⟩
      constructor
      · intro heq
        cases heq
        exact ⟨rfl, hn⟩
      · intro heq
        cases heq.1
        rfl
    · rw [if_neg hn]
      refine ⟨fun m => ?_, fun _ => ⟨overflow, rfl⟩⟩
      constructor
      · intro heq
        cases heq
      · intro heq
        cases heq.1
        exact absurd heq.2 hn

/-- Another text is refused when the number in front is too large. -/
theorem castsExactly_of_not_numeral (h : numeral val = none) : CastsExactly T val ↔
    T ≠ .uint64 ∧ ∃ negative n, StartsWith val negative n ∧ TooLarge T negative n := by
  have hpos : 0 < 2 ^ T.bits := Nat.two_pow_pos _
  have hiff : CastsExactly T val ↔
      ∀ noOverflow, 2 ^ T.bits ≤ extract (isHex val) noOverflow val := by
    refine ⟨fun hexact noOverflow => ?_, fun hle noOverflow => ?_⟩
    · refine exists_error_iff.1 ((hexact noOverflow).2 ?_)
      rw [h]
      intro hsome
      obtain ⟨n, hn, -⟩ := hsome
      cases hn
    · obtain ⟨e, he⟩ := exists_error_iff.2 (hle noOverflow)
      rw [h, he]
      refine ⟨fun n => ⟨fun heq => ?_, fun heq => ?_⟩, fun _ => ⟨e, rfl⟩⟩
      · cases heq
      · cases heq.1
  rw [hiff]
  refine ⟨fun hle => ?_, fun hlarge noOverflow => ?_⟩
  · rcases blank_or_startsWith val with hblank | hzero | ⟨negative, n, hs⟩
    · have h0 := hle 0
      rw [extract_blank hblank] at h0
      exact absurd hpos (Nat.not_lt.2 h0)
    · have h0 := hle 0
      rw [hzero] at h0
      exact absurd hpos (Nat.not_lt.2 h0)
    · have h0 := hle 0
      rw [extract_of_startsWith hs] at h0
      exact ⟨(le_stored_iff.1 h0).1, negative, n, hs, (le_stored_iff.1 h0).2⟩
  · obtain ⟨hT, negative, n, hs, hn⟩ := hlarge
    rw [extract_of_startsWith hs]
    exact le_stored_iff.2 ⟨hT, hn⟩

example : stringCast .uint64 0 ['-', '1'] = .ok (2 ^ 64 - 1) := rfl

/-- **Which texts are cast exactly.** A numeral is, except for one from `2 ^ 64` on that is cast to
64 bits. Any other text is refused only where the number in front of it is too large for a type of
fewer bits. -/
theorem castsExactly_iff (T : Uint) (val : List Char) : CastsExactly T val ↔
    (∃ n, numeral val = some n ∧ (T = .uint64 → n < 2 ^ 64)) ∨
    (numeral val = none ∧ T ≠ .uint64 ∧
      ∃ negative n, StartsWith val negative n ∧ TooLarge T negative n) := by
  cases h : numeral val with
  | some n => simp [castsExactly_of_numeral h]
  | none => simp [castsExactly_of_not_numeral h]

/-- `12abc` is taken for 12. -/
theorem castsExactly_trailing : ¬ CastsExactly .uint16 ['1', '2', 'a', 'b', 'c'] := by
  intro h
  have hcast : stringCast .uint16 0 ['1', '2', 'a', 'b', 'c'] = .ok 12 := rfl
  have hnum := (((h 0).1 12).1 hcast).1
  exact absurd hnum (by decide)

end Rest
