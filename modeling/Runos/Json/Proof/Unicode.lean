import Runos.Json.Proof.Depth

/-!
# Unicode

A string in which every character stands as it is, or is escaped in any of the ways that JSON has
for it, is parsed to the UTF-8 of its characters (`parse_written`).
-/

namespace json11.Grammar

variable {δ : Type} {C : Double δ}

/-- The UTF-8 of a character. -/
def utf8 (c : Char) : List Char := (String.utf8EncodeChar c).map fun b => Char.ofNat b.toNat

/-! ## Encoding -/

theorem or_eq_add {a : Nat} (i m : Nat) (h : a < 2 ^ i) : a ||| 2 ^ i * m = a + 2 ^ i * m := by
  rw [Nat.or_comm, ← Nat.two_pow_add_eq_or_of_lt h, Nat.add_comm]

theorem and_eq_mod (a : Nat) : a &&& 0x3F = a % 64 := Nat.and_two_pow_sub_one_eq_mod a 6

theorem toNat_lt (c : Char) : c.toNat < 0x110000 := by
  show c.val.toNat < _
  rcases c.valid with h | h <;> omega

theorem byte_eq {n m : Nat} (h : n % 256 = m % 256) :
    byte n = Char.ofNat (UInt8.ofNat m).toNat := by
  rw [byte, h]
  rfl

theorem encodeUtf8_eq (c : Char) : encodeUtf8 c.toNat = utf8 c := by
  have hlt := toNat_lt c
  have hval : c.val.toNat = c.toNat := rfl
  have htail : ∀ a : Nat, a &&& 0x3F ||| 0x80 = a % 64 + 128 := fun a => by
    rw [and_eq_mod]
    exact or_eq_add 6 2 (Nat.mod_lt _ (by decide))
  rw [encodeUtf8, utf8, String.utf8EncodeChar, hval]
  split_ifs
  any_goals omega
  · exact congrArg (fun x => [x]) (byte_eq rfl)
  · have hlead : c.toNat >>> 6 ||| 0xC0 = c.toNat / 64 + 192 := by
      rw [Nat.shiftRight_eq_div_pow]
      exact or_eq_add 6 3 (by omega)
    rw [hlead, htail]
    simp only [List.map_cons, List.map_nil]
    rw [byte_eq (m := c.toNat / 64 % 32 + 192) (by omega), byte_eq rfl]
  · have hlead : c.toNat >>> 12 ||| 0xE0 = c.toNat / 4096 + 224 := by
      rw [Nat.shiftRight_eq_div_pow]
      exact or_eq_add 5 7 (by omega)
    rw [hlead, htail, htail, Nat.shiftRight_eq_div_pow]
    simp only [List.map_cons, List.map_nil]
    rw [byte_eq (m := c.toNat / 4096 % 16 + 224) (by omega), byte_eq rfl, byte_eq rfl]
  · have hlead : c.toNat >>> 18 ||| 0xF0 = c.toNat / 262144 + 240 := by
      rw [Nat.shiftRight_eq_div_pow]
      exact or_eq_add 4 15 (by omega)
    rw [hlead, htail, htail, htail, Nat.shiftRight_eq_div_pow, Nat.shiftRight_eq_div_pow]
    simp only [List.map_cons, List.map_nil]
    rw [byte_eq (m := c.toNat / 262144 % 8 + 240) (by omega), byte_eq rfl, byte_eq rfl, byte_eq rfl]

theorem toNat_byte (m : Nat) : (Char.ofNat (UInt8.ofNat m).toNat).toNat = m % 256 := by
  have hlt : m % 256 < 256 := Nat.mod_lt _ (by decide)
  show (Char.ofNat (m % 256)).toNat = m % 256
  have hvalid : (m % 256).isValidChar := .inl (by omega)
  rw [Char.ofNat, dif_pos hvalid]
  rfl

/-- A character of ASCII is a byte, and any other character has no byte of ASCII. -/
theorem utf8_cases (c : Char) :
    (c.toNat < 0x80 ∧ utf8 c = [c]) ∨ ∀ b ∈ utf8 c, 0x80 ≤ b.toNat := by
  have hlt := toNat_lt c
  have hval : c.val.toNat = c.toNat := rfl
  rw [utf8, String.utf8EncodeChar, hval]
  split_ifs with h
  · refine .inl ⟨by omega, congrArg (fun x => [x]) (Char.toNat_inj.1 ?_)⟩
    rw [toNat_byte]
    omega
  all_goals
    refine .inr ?_
    simp only [List.map_cons, List.map_nil, List.forall_mem_cons, toNat_byte, List.not_mem_nil,
      false_implies, implies_true, and_true]
    omega

/-! ## Surrogates -/

def lead (c : Char) : Nat := 0xD800 + (c.toNat - 0x10000) / 0x400
def trail (c : Char) : Nat := 0xDC00 + (c.toNat - 0x10000) % 0x400

theorem isLead_lead (c : Char) : isLead (lead c) := by
  have := toNat_lt c
  rw [lead, isLead]
  omega

theorem isTrail_trail (c : Char) : isTrail (trail c) := by
  rw [trail, isTrail]
  omega

theorem combine_lead_trail {c : Char} (h : 0x10000 ≤ c.toNat) :
    combine (lead c) (trail c) = c.toNat := by
  have hmod : (c.toNat - 0x10000) % 0x400 < 2 ^ 10 := Nat.mod_lt _ (by decide)
  rw [combine, lead, trail, Nat.add_sub_cancel_left, Nat.add_sub_cancel_left,
    ← Nat.shiftLeft_add_eq_or_of_lt hmod, Nat.shiftLeft_eq]
  omega

theorem not_isLead (c : Char) : ¬ isLead c.toNat := by
  show ¬ isLead c.val.toNat
  rw [isLead]
  rcases c.valid with h | h <;> omega

/-! ## Strings -/

/-- The ways to write a character in a string. -/
inductive Written : Char → List Char → Prop
  | plain {c : Char} : 0x20 ≤ c.toNat → c ≠ '"' → c ≠ '\\' → Written c (utf8 c)
  | escape {e c : Char} : (e, c) ∈ escapes → Written c ['\\', e]
  | unit {c : Char} {x y z w : Char} : (∀ d ∈ [x, y, z, w], d.isHexDigit = true) →
      Numeral.value 16 [x, y, z, w] = c.toNat → Written c ['\\', 'u', x, y, z, w]
  | pair {c : Char} {x y z w x' y' z' w' : Char} : 0x10000 ≤ c.toNat →
      (∀ d ∈ [x, y, z, w], d.isHexDigit = true) → Numeral.value 16 [x, y, z, w] = lead c →
      (∀ d ∈ [x', y', z', w'], d.isHexDigit = true) → Numeral.value 16 [x', y', z', w'] = trail c →
      Written c ['\\', 'u', x, y, z, w, '\\', 'u', x', y', z', w']

theorem plain_pieces (bs : List Char) (h : ∀ b ∈ bs, 0x20 ≤ b.toNat ∧ b ≠ '"' ∧ b ≠ '\\') :
    Chars (bs.map .char) bs ∧ ∀ ps, decode (bs.map .char ++ ps) = bs ++ decode ps := by
  induction bs with
  | nil => exact ⟨.nil, fun _ => rfl⟩
  | cons b bs ih =>
    obtain ⟨hb, hbs⟩ := List.forall_mem_cons.1 h
    obtain ⟨hchars, hdec⟩ := ih hbs
    exact ⟨.cons (.plain hb.1 hb.2.1 hb.2.2) hchars, fun ps => congrArg (b :: ·) (hdec ps)⟩

theorem utf8_of_escape {e c : Char} (h : (e, c) ∈ escapes) : utf8 c = [c] := by
  simp only [escapes, List.mem_cons, Prod.mk.injEq, List.not_mem_nil, or_false] at h
  rcases h with ⟨_, rfl⟩ | ⟨_, rfl⟩ | ⟨_, rfl⟩ | ⟨_, rfl⟩ | ⟨_, rfl⟩ | ⟨_, rfl⟩ | ⟨_, rfl⟩ |
    ⟨_, rfl⟩ <;> rfl

/-- A character that is written in any way is read as its UTF-8. -/
theorem written_pieces {c : Char} {t : List Char} (h : Written c t) :
    ∃ ps, Chars ps t ∧ ∀ qs, decode (ps ++ qs) = utf8 c ++ decode qs := by
  cases h with
  | plain hc hq hb =>
    refine ⟨(utf8 c).map .char, plain_pieces (utf8 c) fun b hbyte => ?_⟩
    rcases utf8_cases c with ⟨_, h⟩ | h
    · rw [h] at hbyte
      rw [List.mem_singleton.1 hbyte]
      exact ⟨hc, hq, hb⟩
    · have hge := h b hbyte
      refine ⟨by omega, ?_, ?_⟩
      · rintro rfl
        exact absurd hge (by decide)
      · rintro rfl
        exact absurd hge (by decide)
  | @escape e c he =>
    refine ⟨[.char c], ?_, fun qs => by rw [utf8_of_escape he]; rfl⟩
    exact .cons (.escape he) .nil
  | unit hhex hval =>
    refine ⟨_, .cons (.unit hhex) .nil, fun qs => ?_⟩
    rw [hval, List.singleton_append, decode_unit (not_isLead c), encodeUtf8_eq]
  | pair hc hhex hval hhex' hval' =>
    refine ⟨_, .cons (.unit hhex) (.cons (.unit hhex') .nil), fun qs => ?_⟩
    rw [hval, hval']
    show decode (.unit (lead c) :: .unit (trail c) :: qs) = _
    rw [decode, if_pos ⟨isLead_lead c, isTrail_trail c⟩, combine_lead_trail hc, encodeUtf8_eq]

theorem chars_append {ps qs : List Piece} {t t' : List Char} (h : Chars ps t) (h' : Chars qs t') :
    Chars (ps ++ qs) (t ++ t') := by
  induction h with
  | nil => exact h'
  | cons hp _ ih =>
    rw [List.append_assoc]
    exact .cons hp ih

/-- A string is read as the UTF-8 of its characters, in whatever ways these are written. -/
theorem parse_written (hC : Reads C) (cs : List Char) (ts : List (List Char))
    (h : List.Forall₂ Written cs ts) :
    parse C ('"' :: (ts.flatten ++ ['"'])) [] = (.string (cs.flatMap utf8), []) := by
  have hstr : ∃ ps, Chars ps ts.flatten ∧ decode ps = cs.flatMap utf8 := by
    induction h with
    | nil => exact ⟨[], .nil, rfl⟩
    | cons ht _ ih =>
      obtain ⟨ps, hps, hdec⟩ := written_pieces ht
      obtain ⟨qs, hqs, hval⟩ := ih
      exact ⟨ps ++ qs, chars_append hps hqs, (hdec qs).trans (congrArg (utf8 _ ++ ·) hval)⟩
  obtain ⟨ps, hps, hval⟩ := hstr
  obtain ⟨R, hR⟩ := denotes_eq C maxDepth
  refine (parse_eq_iff hC _ _).2 ⟨[], _, [], (List.append_nil _).symm, ws_nil, ws_nil, ?_⟩
  rw [hR, ← hval]
  exact .string (.mk hps)

theorem parse_written_pair :
    parse whole ('"' :: ([['é'].flatMap utf8,
      ['\\', 'u', 'd', '8', '3', 'D', '\\', 'u', 'd', 'e', '0', '0'], ['\\', 'n']].flatten ++ ['"'])) [] = (.string (['é', '😀', '\n'].flatMap utf8), []) := by
  refine parse_written reads_whole _ _ (.cons ?_ (.cons ?_ (.cons ?_ .nil)))
  · exact .plain (by decide) (by decide) (by decide)
  · exact .pair (by decide) (List.all_eq_true.1 rfl) (by decide) (List.all_eq_true.1 rfl) (by decide)
  · exact .escape (by decide)

end json11.Grammar
