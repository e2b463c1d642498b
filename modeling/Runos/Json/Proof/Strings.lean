import Runos.Json.Grammar

/-!
# Strings

`parse_string` reads exactly the strings of the grammar (`parseString_sound`, `parseString_complete`),
and what `dump` writes for a string is a string of the grammar that stands for it
(`str_dumpString`).
-/

namespace json11.Grammar

variable {δ : Type} {c : Char} {ps : List Piece} {out rest : List Char} {last : Option Nat}

/-- The code point that waits for its pair. -/
def pending : Option Nat → List Piece
  | none => []
  | some n => [.unit n]

theorem decode_pending : decode (pending last) = flush last := by
  cases last <;> rfl

theorem decode_pending_char :
    decode (pending last ++ .char c :: ps) = flush last ++ c :: decode ps := by
  cases last <;> rfl

theorem decode_pending_unit (n : Nat) : decode (pending last ++ .unit n :: ps) =
    (escaped last n).1 ++ decode (pending (escaped last n).2 ++ ps) := by
  cases last with
  | none => rfl
  | some lead =>
    by_cases h : isLead lead ∧ isTrail n
    · simp only [pending, List.cons_append, List.nil_append, decode, escaped, if_pos h]
    · simp only [pending, List.cons_append, List.nil_append, decode, escaped, if_neg h]

/-! ## Characters -/

theorem inRange_iff {x lower upper : Char} :
    inRange x lower upper = true ↔ lower.toNat ≤ x.toNat ∧ x.toNat ≤ upper.toNat :=
  decide_eq_true_iff

theorem isDigit_eq (c : Char) : isDigit c = c.isDigit :=
  Bool.eq_iff_iff.2 (inRange_iff.trans Numeral.isDigit_iff.symm)

theorem isHexDigit_eq (c : Char) : isHexDigit c = c.isHexDigit := by
  rw [Bool.eq_iff_iff, Numeral.isHexDigit_iff]
  simp only [isHexDigit, Bool.or_eq_true, inRange_iff]
  show ((97 ≤ c.toNat ∧ c.toNat ≤ 102) ∨ (65 ≤ c.toNat ∧ c.toNat ≤ 70)) ∨
    (48 ≤ c.toNat ∧ c.toNat ≤ 57) ↔ _
  omega

theorem unescape_eq_some {e c : Char} : unescape e = some c ↔ (e, c) ∈ escapes := by
  refine ⟨fun h => ?_, fun h => ?_⟩
  · unfold unescape at h
    split_ifs at h with h₁ h₂ h₃ h₄ h₅ h₆
    · cases h; simp [escapes, h₁]
    · cases h; simp [escapes, h₂]
    · cases h; simp [escapes, h₃]
    · cases h; simp [escapes, h₄]
    · cases h; simp [escapes, h₅]
    · cases h
      rcases h₆ with rfl | rfl | rfl <;> simp [escapes]
  · simp only [escapes, List.mem_cons, Prod.mk.injEq, List.not_mem_nil, or_false] at h
    rcases h with ⟨rfl, rfl⟩ | ⟨rfl, rfl⟩ | ⟨rfl, rfl⟩ | ⟨rfl, rfl⟩ | ⟨rfl, rfl⟩ | ⟨rfl, rfl⟩ |
      ⟨rfl, rfl⟩ | ⟨rfl, rfl⟩ <;> rfl

/-! ## Reading -/

theorem parseString_sound {s str : List Char}
    (h : parseString (δ := δ) out last str = .ok (s, rest)) :
    ∃ ps t, str = t ++ '"' :: rest ∧ Chars ps t ∧ s = out ++ decode (pending last ++ ps) := by
  fun_induction parseString (δ := δ) out last str with
  | case1 | case3 | case5 | case7 | case8 | case10 => cases h
  | case2 out last =>
    cases h
    refine ⟨[], [], rfl, .nil, ?_⟩
    rw [List.append_nil, decode_pending]
  | case4 out last ch str hq hr hb ih =>
    obtain ⟨ps, t, rfl, hps, rfl⟩ := ih h
    refine ⟨.char ch :: ps, ch :: t, rfl, .cons (.plain ?_ hq ?_) hps, ?_⟩
    · by_contra hlt
      exact hr (inRange_iff.2 ⟨Nat.zero_le _, Nat.le_of_lt_succ (Nat.not_le.1 hlt)⟩)
    · exact fun h => hb (by simp [h])
    · rw [decode_pending_char]
      simp [pending]
  | case6 out last e _ _ hb a b c d str hhex put last' hput ih =>
    obtain rfl : e = '\\' := not_not.1 hb
    obtain ⟨ps, t, rfl, hps, rfl⟩ := ih h
    refine ⟨.unit (Numeral.value 16 [a, b, c, d]) :: ps, ['\\', 'u', a, b, c, d] ++ t, rfl,
      .cons (.unit ?_) hps, ?_⟩
    · simpa [isHexDigit_eq, and_assoc] using hhex
    · rw [decode_pending_unit, hput, List.append_assoc]
  | case9 out last e _ _ hb e' str _ ch hch ih =>
    obtain rfl : e = '\\' := not_not.1 hb
    obtain ⟨ps, t, rfl, hps, rfl⟩ := ih h
    refine ⟨.char ch :: ps, ['\\', e'] ++ t, rfl, .cons (.escape (unescape_eq_some.1 hch)) hps, ?_⟩
    rw [decode_pending_char]
    simp [pending]

theorem parseString_quote :
    parseString (δ := δ) out last ('"' :: rest) = .ok (out ++ flush last, rest) := by
  rw [parseString.eq_def]
  simp only [if_true]

theorem parseString_plain (h : 0x20 ≤ c.toNat) (hq : c ≠ '"') (hb : c ≠ '\\') :
    parseString (δ := δ) out last (c :: rest) = parseString (out ++ flush last ++ [c]) none rest := by
  have hr : ¬ inRange c '\x00' '\x1f' = true := by
    rw [inRange_iff]
    exact fun h' => absurd (h.trans h'.2) (by decide)
  rw [parseString.eq_def]
  simp only [if_neg hq, if_neg hr, if_pos hb]

theorem parseString_escape {e : Char} (h : (e, c) ∈ escapes) :
    parseString (δ := δ) out last ('\\' :: e :: rest) =
      parseString (out ++ flush last ++ [c]) none rest := by
  have hu : e ≠ 'u' := by
    rintro rfl
    simp [escapes] at h
  rw [parseString.eq_def]
  simp only [if_neg (by decide : ¬ '\\' = '"'),
    if_neg (by decide : ¬ inRange '\\' '\x00' '\x1f' = true), if_neg (not_not.2 rfl : ¬ '\\' ≠ '\\'),
    if_neg hu, unescape_eq_some.2 h]

theorem parseString_unit {a b c d : Char} (h : ∀ x ∈ [a, b, c, d], x.isHexDigit = true) :
    parseString (δ := δ) out last ('\\' :: 'u' :: a :: b :: c :: d :: rest) =
      parseString (out ++ (escaped last (Numeral.value 16 [a, b, c, d])).1)
        (escaped last (Numeral.value 16 [a, b, c, d])).2 rest := by
  have hhex : (isHexDigit a && isHexDigit b && isHexDigit c && isHexDigit d) = true := by
    simpa [isHexDigit_eq, and_assoc] using h
  rw [parseString.eq_def]
  simp only [if_neg (by decide : ¬ '\\' = '"'),
    if_neg (by decide : ¬ inRange '\\' '\x00' '\x1f' = true), if_neg (not_not.2 rfl : ¬ '\\' ≠ '\\'),
    if_true, if_pos hhex]

theorem parseString_complete {t : List Char} (h : Chars ps t) :
    parseString (δ := δ) out last (t ++ '"' :: rest) =
      .ok (out ++ decode (pending last ++ ps), rest) := by
  induction h generalizing out last with
  | nil =>
    rw [List.append_nil, decode_pending, List.nil_append, parseString_quote]
  | @cons p ps t text hp _ ih =>
    cases hp with
    | @plain c hr hq hb =>
      show parseString out last (c :: (text ++ '"' :: rest)) = _
      rw [decode_pending_char, parseString_plain hr hq hb, ih]
      simp [pending]
    | @escape e c he =>
      show parseString out last ('\\' :: e :: (text ++ '"' :: rest)) = _
      rw [decode_pending_char, parseString_escape he, ih]
      simp [pending]
    | @unit a b c d hhex =>
      show parseString out last ('\\' :: 'u' :: a :: b :: c :: d :: (text ++ '"' :: rest)) = _
      rw [decode_pending_unit, parseString_unit hhex, ih, List.append_assoc]

/-! ## Writing -/

theorem decode_unit {n : Nat} (h : ¬ isLead n) :
    decode (.unit n :: ps) = encodeUtf8 n ++ decode ps := by
  cases ps with
  | nil => exact (List.append_nil _).symm
  | cons p ps =>
    cases p with
    | char c => rfl
    | unit m => rw [decode, if_neg fun h' => h h'.1]

/-- The digits of a control character. -/
theorem leftpad_toDigits : ∀ n < 0x20, (Nat.toDigits 16 n).leftpad 4 '0' =
    ['0', '0', Nat.digitChar (n / 16), Nat.digitChar (n % 16)] := by
  decide

theorem value_leftpad : ∀ n < 0x20,
    Numeral.value 16 ['0', '0', Nat.digitChar (n / 16), Nat.digitChar (n % 16)] = n := by
  decide

/-- What is written for a character is one piece, which stands for it. -/
theorem exists_piece (c : Char) :
    ∃ p : Piece, p.Text (Json.escape c) ∧ ∀ ps, decode (p :: ps) = c :: decode ps := by
  unfold Json.escape
  split_ifs with h₁ h₂ h₃ h₄ h₅ h₆ h₇ h₈
  · exact ⟨.char c, .escape (by simp [escapes, h₁]), fun _ => rfl⟩
  · exact ⟨.char c, .escape (by simp [escapes, h₂]), fun _ => rfl⟩
  · exact ⟨.char c, .escape (by simp [escapes, h₃]), fun _ => rfl⟩
  · exact ⟨.char c, .escape (by simp [escapes, h₄]), fun _ => rfl⟩
  · exact ⟨.char c, .escape (by simp [escapes, h₅]), fun _ => rfl⟩
  · exact ⟨.char c, .escape (by simp [escapes, h₆]), fun _ => rfl⟩
  · exact ⟨.char c, .escape (by simp [escapes, h₇]), fun _ => rfl⟩
  · have hlt : c.toNat < 0x20 := Nat.lt_succ_of_le h₈
    have hdiv : c.toNat / 16 < 16 := by omega
    have hmod : c.toNat % 16 < 16 := by omega
    rw [leftpad_toDigits _ hlt]
    refine ⟨_, .unit (List.forall_mem_cons.2 ⟨rfl, List.forall_mem_cons.2 ⟨rfl, List.forall_mem_cons.2
      ⟨Numeral.isHexDigit_digitChar hdiv, List.forall_mem_singleton.2
        (Numeral.isHexDigit_digitChar hmod)⟩⟩⟩), fun ps => ?_⟩
    rw [value_leftpad _ hlt, decode_unit (fun h => absurd h.1 (by omega)), encodeUtf8,
      if_pos (by omega), byte, Nat.mod_eq_of_lt (by omega), Char.ofNat_toNat]
    rfl
  · exact ⟨.char c, .plain (by omega) h₂ h₁, fun _ => rfl⟩

/-- An escaped unit that is not a surrogate, before other pieces. -/
theorem unit_pieces {a b c d : Char} {s text value : List Char}
    (hhex : ∀ x ∈ [a, b, c, d], x.isHexDigit = true) (hn : Numeral.value 16 [a, b, c, d] < 0xD800)
    (hs : encodeUtf8 (Numeral.value 16 [a, b, c, d]) = s)
    (h : ∃ ps, Chars ps text ∧ decode ps = value) :
    ∃ ps, Chars ps (['\\', 'u', a, b, c, d] ++ text) ∧ decode ps = s ++ value := by
  obtain ⟨ps, hps, rfl⟩ := h
  exact ⟨_, .cons (.unit hhex) hps, by rw [decode_unit (fun h => absurd h.1 (by omega)), hs]⟩

theorem exists_pieces (s : List Char) : ∃ ps, Chars ps (Json.dumpChars s) ∧ decode ps = s := by
  have hpiece : ∀ (c : Char) {text value : List Char}, (∃ ps, Chars ps text ∧ decode ps = value) →
      ∃ ps, Chars ps (Json.escape c ++ text) ∧ decode ps = c :: value := by
    rintro c text value ⟨ps, hps, rfl⟩
    obtain ⟨p, hp, hdec⟩ := exists_piece c
    exact ⟨p :: ps, .cons hp hps, hdec ps⟩
  fun_induction Json.dumpChars s with
  | case1 => exact ⟨[], .nil, rfl⟩
  | case2 a =>
    have h := hpiece a ⟨[], .nil, rfl⟩
    rwa [List.append_nil] at h
  | case3 a b =>
    have h := hpiece a (hpiece b ⟨[], .nil, rfl⟩)
    rwa [List.append_nil] at h
  | case4 a b c value h ih =>
    obtain ⟨rfl, rfl, rfl⟩ := h
    exact unit_pieces (List.all_eq_true.1 rfl) (by decide) rfl ih
  | case5 a b c value _ h ih =>
    obtain ⟨rfl, rfl, rfl⟩ := h
    exact unit_pieces (List.all_eq_true.1 rfl) (by decide) rfl ih
  | case6 a b c value _ _ ih => exact hpiece a ih

/-- What is written for a string stands for it. -/
theorem str_dumpString (s : List Char) : Str (Json.dumpString s) s := by
  obtain ⟨ps, hps, rfl⟩ := exists_pieces s
  exact .mk hps

end json11.Grammar
