import Mathlib.Data.List.TakeWhile
import Runos.Json.Proof.Strings
import Runos.Lib.Stream

/-!
# Numbers

`parse_number` reads exactly the numbers of the grammar, as far as something may stand behind them
that ends a value (`parseNumber_sound`, `parseNumber_complete`).
-/

namespace json11.Grammar

variable {δ : Type} {C : Double δ} {str rest t : List Char}

/-! ## Characters -/

theorem peek_append (h : t ≠ []) : peek (t ++ rest) = peek t := by
  cases t with
  | nil => exact absurd rfl h
  | cons c t => rfl

@[simp]
theorem peek_cons (c : Char) (str : List Char) : peek (c :: str) = c := rfl

theorem eq_cons_of_peek {c : Char} (h : peek str = c) (hc : c ≠ '\x00') : str = c :: str.tail := by
  cases str with
  | nil => exact absurd h.symm hc
  | cons a str => exact congrArg (· :: str) h

theorem peek_of_follow (h : Follow rest) : peek rest = '\x00' ∨
    peek rest ∈ [' ', '\r', '\n', '\t', ',', ']', '}'] := by
  cases rest with
  | nil => exact .inl rfl
  | cons c rest =>
    refine .inr ?_
    show c ∈ _
    rcases h c rfl with h | h
    · simp only [isSpace, Bool.or_eq_true, beq_iff_eq] at h
      rcases h with ((rfl | rfl) | rfl) | rfl <;> simp
    · simp only [List.mem_cons, List.not_mem_nil, or_false] at h
      rcases h with rfl | rfl | rfl <;> simp

theorem not_isDigit_of_follow (h : Follow rest) : isDigit (peek rest) = false := by
  rcases peek_of_follow h with h | h
  · rw [h]
    rfl
  · simp only [List.mem_cons, List.not_mem_nil, or_false] at h
    rcases h with h | h | h | h | h | h | h <;> (rw [h]; rfl)

theorem ne_of_follow {c : Char} (h : Follow rest) (hc : c ∈ ['.', 'e', 'E']) : peek rest ≠ c := by
  simp only [List.mem_cons, List.not_mem_nil, or_false] at hc
  rcases peek_of_follow h with h | h
  · rw [h]
    rcases hc with rfl | rfl | rfl <;> decide
  · simp only [List.mem_cons, List.not_mem_nil, or_false] at h
    rcases hc with rfl | rfl | rfl <;> rcases h with h | h | h | h | h | h | h <;> (rw [h]; decide)

/-! ## Digits -/

theorem digits_takeWhile (str : List Char) : Digits (str.takeWhile isDigit) := by
  intro c hc
  rw [← isDigit_eq]
  exact List.mem_takeWhile_imp hc

theorem not_isDigit_dropWhile (str : List Char) : isDigit (peek (str.dropWhile isDigit)) = false := by
  induction str with
  | nil => rfl
  | cons c str ih =>
    rw [List.dropWhile_cons]
    split
    · exact ih
    · rename_i h
      exact Bool.not_eq_true _ ▸ h

theorem takeWhile_digits (h : Digits t) (hrest : isDigit (peek rest) = false) :
    (t ++ rest).takeWhile isDigit = t ∧ (t ++ rest).dropWhile isDigit = rest := by
  refine Stream.takeWhile_append_of_ends t rest (fun c hc => (isDigit_eq c).trans (h c hc)) ?_
  intro c hc
  cases rest with
  | nil => cases hc
  | cons d rest =>
    cases hc
    exact hrest

/-! ## Parts of a number -/

theorem peek_integer (h : Integer t) : isDigit (peek t) = true := by
  cases h with
  | zero => rfl
  | pos hc _ _ => exact (isDigit_eq _).trans hc

theorem integer_ne_nil (h : Integer t) : t ≠ [] := by
  cases h <;> exact List.cons_ne_nil _ _

theorem integerPart_complete (h : Integer t) (hrest : isDigit (peek rest) = false) :
    integerPart (δ := δ) (t ++ rest) = .ok rest := by
  cases h with
  | zero => exact (if_pos rfl).trans (if_neg (Bool.eq_false_iff.1 hrest))
  | @pos c t hc h0 ht =>
    have hc' := Numeral.isDigit_iff.1 hc
    have hr : inRange c '1' '9' = true := by
      refine inRange_iff.2 ⟨?_, hc'.2⟩
      have h48 : c.toNat ≠ 48 := fun h => h0 (Char.toNat_inj.1 h)
      show 49 ≤ c.toNat
      omega
    exact (if_neg h0).trans ((if_pos hr).trans (congrArg Except.ok (takeWhile_digits ht hrest).2))

theorem integerPart_sound (h : integerPart (δ := δ) str = .ok rest) :
    ∃ i, str = i ++ rest ∧ Integer i ∧ isDigit (peek rest) = false := by
  rw [integerPart] at h
  split at h
  · rename_i h0
    split at h
    · cases h
    · rename_i hd
      cases h
      exact ⟨['0'], eq_cons_of_peek h0 (by decide), .zero, Bool.eq_false_iff.2 hd⟩
  · split at h
    · rename_i h0 h1
      cases h
      have hc := inRange_iff.1 h1
      have hne : peek str ≠ '\x00' := fun h => by rw [h] at hc; exact absurd hc.1 (by decide)
      refine ⟨peek str :: str.tail.takeWhile isDigit, ?_, .pos ?_ h0 (digits_takeWhile _),
        not_isDigit_dropWhile _⟩
      · rw [List.cons_append, List.takeWhile_append_dropWhile]
        exact eq_cons_of_peek rfl hne
      · exact Numeral.isDigit_iff.2 ⟨Nat.le_of_lt hc.1, hc.2⟩
    · cases h

/-- A run of digits that is there. -/
theorem peek_digits (h : Digits t) (hne : t ≠ []) : isDigit (peek t) = true := by
  cases t with
  | nil => exact absurd rfl hne
  | cons c t => exact (isDigit_eq c).trans (h c List.mem_cons_self)

theorem takeWhile_ne_nil (h : isDigit (peek str) = true) : str.takeWhile isDigit ≠ [] := by
  cases str with
  | nil => cases h
  | cons c str =>
    have hc : isDigit c = true := h
    simp [hc]

theorem decimalPart_complete (h : Frac t) (hrest : isDigit (peek rest) = false)
    (hdot : peek rest ≠ '.') : decimalPart (δ := δ) (t ++ rest) = .ok rest := by
  cases h with
  | none => exact if_neg hdot
  | @some t hne ht =>
    have hd : isDigit (peek (t ++ rest)) = true := by
      rw [peek_append hne]
      exact peek_digits ht hne
    exact (if_pos rfl).trans ((if_pos hd).trans (congrArg Except.ok (takeWhile_digits ht hrest).2))

theorem decimalPart_sound (h : decimalPart (δ := δ) str = .ok rest) :
    ∃ f, str = f ++ rest ∧ Frac f ∧ (f = [] → peek str ≠ '.') := by
  rw [decimalPart] at h
  split at h
  · rename_i hdot
    split at h
    · rename_i hd
      cases h
      refine ⟨'.' :: str.tail.takeWhile isDigit, ?_, .some (takeWhile_ne_nil hd) (digits_takeWhile _),
        fun h => absurd h (List.cons_ne_nil _ _)⟩
      rw [List.cons_append, List.takeWhile_append_dropWhile]
      exact eq_cons_of_peek hdot (by decide)
    · cases h
  · rename_i hdot
    cases h
    exact ⟨[], rfl, .none, fun _ => hdot⟩

theorem skipSign_append {s : List Char} (hs : s ∈ [[], ['+'], ['-']])
    (hd : isDigit (peek str) = true) : skipSign (s ++ str) = str := by
  simp only [List.mem_cons, List.not_mem_nil, or_false] at hs
  rcases hs with rfl | rfl | rfl
  · refine if_neg fun h => ?_
    rcases h with h | h <;> (rw [List.nil_append] at h; rw [h] at hd; cases hd)
  · rfl
  · rfl

theorem exists_sign (str : List Char) : ∃ s ∈ [[], ['+'], ['-']], str = s ++ skipSign str := by
  rw [skipSign]
  split
  · rename_i h
    rcases h with h | h
    · exact ⟨['+'], by simp, eq_cons_of_peek h (by decide)⟩
    · exact ⟨['-'], by simp, eq_cons_of_peek h (by decide)⟩
  · exact ⟨[], by simp, rfl⟩

theorem exponentPart_complete (h : Exp t) (hrest : isDigit (peek rest) = false)
    (he : peek rest ≠ 'e' ∧ peek rest ≠ 'E') : exponentPart (δ := δ) (t ++ rest) = .ok rest := by
  cases h with
  | none => exact if_neg fun h => h.elim he.1 he.2
  | @some e s t hmem hs hne ht =>
    have hd : isDigit (peek (t ++ rest)) = true := by
      rw [peek_append hne]
      exact peek_digits ht hne
    have hskip : skipSign (s ++ t ++ rest) = t ++ rest := by
      rw [List.append_assoc]
      exact skipSign_append hs hd
    have hmem' : peek (e :: (s ++ t ++ rest)) = 'e' ∨ peek (e :: (s ++ t ++ rest)) = 'E' := by
      simpa using hmem
    show exponentPart (e :: (s ++ t ++ rest)) = _
    rw [exponentPart, if_pos hmem', List.tail_cons, hskip, if_pos hd, (takeWhile_digits ht hrest).2]

theorem exponentPart_sound (h : exponentPart (δ := δ) str = .ok rest) :
    ∃ e, str = e ++ rest ∧ Exp e ∧ (e = [] → peek str ≠ 'e' ∧ peek str ≠ 'E') := by
  rw [exponentPart] at h
  split at h
  · rename_i he
    split at h
    · rename_i hd
      cases h
      obtain ⟨s, hs, heq⟩ := exists_sign str.tail
      refine ⟨peek str :: (s ++ (skipSign str.tail).takeWhile isDigit), ?_,
        .some (by simpa using he) hs (takeWhile_ne_nil hd) (digits_takeWhile _),
        fun h => absurd h (List.cons_ne_nil _ _)⟩
      rw [List.cons_append, List.append_assoc, List.takeWhile_append_dropWhile, ← heq]
      refine eq_cons_of_peek rfl ?_
      rcases he with he | he <;> (rw [he]; decide)
    · cases h
  · rename_i he
    cases h
    exact ⟨[], rfl, .none, fun _ => not_or.1 he⟩

/-! ## Numbers -/

theorem skipMinus {b : Bool} (h : peek str ≠ '-') :
    (if peek (minus b ++ str) = '-' then (minus b ++ str).tail
      else minus b ++ str) = str := by
  cases b with
  | false => exact if_neg h
  | true => rfl

theorem exists_minus (str : List Char) :
    ∃ b, str = minus b ++ if peek str = '-' then str.tail else str := by
  split
  · rename_i h
    exact ⟨true, eq_cons_of_peek h (by decide)⟩
  · exact ⟨false, rfl⟩

theorem peek_ne_minus (h : isDigit (peek str) = true) : peek str ≠ '-' := fun h' => by
  rw [h'] at h
  cases h

theorem digits_integer (h : Integer t) : Digits t := by
  cases h with
  | zero => exact List.forall_mem_singleton.2 rfl
  | pos hc _ ht => exact List.forall_mem_cons.2 ⟨hc, ht⟩

theorem atoi_eq {b : Bool} {i : List Char} (hi : Integer i)
    (hrest : isDigit (peek rest) = false) : atoi (minus b ++ i ++ rest) = intValue b i := by
  have htake := (takeWhile_digits (digits_integer hi) hrest).1
  cases b with
  | false =>
    have hp : peek (i ++ rest) ≠ '-' := by
      rw [peek_append (integer_ne_nil hi)]
      exact peek_ne_minus (peek_integer hi)
    show atoi (i ++ rest) = _
    rw [atoi, if_neg hp, htake]
    rfl
  | true =>
    show -((Numeral.value 10 ((i ++ rest).takeWhile isDigit) : Nat) : Int) = _
    rw [htake]
    rfl

theorem bind_integerPart {α : Type} {b : Bool} {i : List Char} (hi : Integer i)
    (hrest : isDigit (peek rest) = false) (f : List Char → Except (Failure δ) α) :
    (integerPart (if peek (minus b ++ i ++ rest) = '-' then (minus b ++ i ++ rest).tail
      else minus b ++ i ++ rest) >>= f) = f rest := by
  have hp : peek (i ++ rest) ≠ '-' := by
    rw [peek_append (integer_ne_nil hi)]
    exact peek_ne_minus (peek_integer hi)
  rw [List.append_assoc, skipMinus hp, integerPart_complete hi hrest]
  rfl

theorem parseNumber_complete_int {b : Bool} {i : List Char} (hi : Integer i)
    (hlen : (minus b ++ i).length ≤ digits10) (hrest : Follow rest) :
    parseNumber C (minus b ++ i ++ rest) =
      .ok (.int (Int32.ofInt (intValue b i)), rest) := by
  have hd := not_isDigit_of_follow hrest
  have hlen' : (minus b ++ i ++ rest).length - rest.length ≤ digits10 := by
    rw [List.length_append]
    omega
  rw [parseNumber, bind_integerPart hi hd, if_pos ⟨ne_of_follow hrest (by simp),
    ne_of_follow hrest (by simp), ne_of_follow hrest (by simp), hlen'⟩, atoi_eq hi hd]

theorem peek_frac_exp {f e : List Char} (rest : List Char) (hf : Frac f) (he : Exp e)
    (hne : f ++ e ≠ []) :
    peek (f ++ e ++ rest) = '.' ∨ peek (f ++ e ++ rest) = 'e' ∨ peek (f ++ e ++ rest) = 'E' := by
  cases hf with
  | some _ _ => exact .inl rfl
  | none =>
    cases he with
    | none => exact absurd rfl hne
    | some hmem _ _ _ => exact .inr (by simpa using hmem)

theorem parseNumber_complete_double (hC : Reads C) {b : Bool}
    {i f e : List Char} (hi : Integer i) (hf : Frac f) (he : Exp e)
    (hlong : f ++ e ≠ [] ∨ digits10 < (minus b ++ i).length) (hrest : Follow rest) :
    parseNumber C (minus b ++ i ++ f ++ e ++ rest) =
      .ok (.double (C.atof (minus b ++ i ++ f ++ e)), rest) := by
  have hd := not_isDigit_of_follow hrest
  have he' : isDigit (peek (e ++ rest)) = false ∧ peek (e ++ rest) ≠ '.' := by
    cases he with
    | none => exact ⟨hd, ne_of_follow hrest (by simp)⟩
    | some hmem _ _ _ =>
      simp only [List.mem_cons, List.not_mem_nil, or_false] at hmem
      rcases hmem with rfl | rfl <;> exact ⟨rfl, by rw [List.cons_append, peek_cons]; decide⟩
  have hf' : isDigit (peek (f ++ (e ++ rest))) = false := by
    cases hf with
    | none => exact he'.1
    | some _ _ => rfl
  have hcond : ¬ (peek (f ++ (e ++ rest)) ≠ '.' ∧ peek (f ++ (e ++ rest)) ≠ 'e' ∧
      peek (f ++ (e ++ rest)) ≠ 'E' ∧
      (minus b ++ i ++ (f ++ (e ++ rest))).length - (f ++ (e ++ rest)).length ≤ digits10) := by
    rintro ⟨h₁, h₂, h₃, hlen⟩
    rw [List.length_append, Nat.add_sub_cancel] at hlen
    rcases hlong with hne | hlt
    · have := peek_frac_exp rest hf he hne
      rw [List.append_assoc] at this
      rcases this with h | h | h
      · exact h₁ h
      · exact h₂ h
      · exact h₃ h
    · omega
  have hatof := hC _ rest (.mk (b := b) hi hf he) hrest
  simp only [List.append_assoc] at hatof ⊢ hcond
  have hbind := bind_integerPart (b := b) (δ := δ) (α := Json δ × List Char) hi hf'
  simp only [List.append_assoc] at hbind
  rw [parseNumber, hbind, if_neg hcond, decimalPart_complete hf he'.1 he'.2]
  show (exponentPart (e ++ rest) >>= _) = _
  rw [exponentPart_complete he hd ⟨ne_of_follow hrest (by simp), ne_of_follow hrest (by simp)⟩]
  show Except.ok (Json.double (C.atof _), rest) = _
  rw [hatof]

theorem parseNumber_sound (hC : Reads C) {v : Json δ}
    {R : List Char → Json δ → Prop} (h : parseNumber C str = .ok (v, rest)) (hrest : Follow rest) :
    ∃ t, str = t ++ rest ∧ Value C R t v := by
  obtain ⟨b, hneg⟩ := exists_minus str
  obtain ⟨r, hr, h⟩ := Fallible.bind_ok h
  obtain ⟨i, hi, hint, hd⟩ := integerPart_sound hr
  rw [hi, ← List.append_assoc] at hneg
  split at h
  · rename_i hcond
    cases h
    have hlen := hcond.2.2.2
    rw [hneg, List.length_append, Nat.add_sub_cancel] at hlen
    rw [hneg, atoi_eq hint hd]
    exact ⟨_, rfl, .int hint hlen⟩
  · rename_i hcond
    obtain ⟨r₁, h₁, h⟩ := Fallible.bind_ok h
    obtain ⟨r₂, h₂, h⟩ := Fallible.bind_ok h
    cases h
    obtain ⟨f, rfl, hf, hf'⟩ := decimalPart_sound h₁
    obtain ⟨e, rfl, he, he'⟩ := exponentPart_sound h₂
    have hstr : str = minus b ++ i ++ f ++ e ++ rest := by
      rw [hneg]
      simp only [List.append_assoc]
    refine ⟨minus b ++ i ++ f ++ e, hstr, ?_⟩
    rw [hstr, hC _ rest (.mk hint hf he) hrest]
    refine .double hint hf he ?_
    by_cases hne : f ++ e = []
    · refine .inr (Nat.lt_of_not_le fun hlen => hcond ?_)
      obtain ⟨rfl, rfl⟩ := List.append_eq_nil_iff.1 hne
      refine ⟨hf' rfl, (he' rfl).1, (he' rfl).2, ?_⟩
      rw [hneg, List.length_append, Nat.add_sub_cancel]
      exact hlen
    · exact .inl hne

/-- Doubles that are whole numbers. -/
def whole : Double Int := ⟨id, fun a b => a == b, Json.dumpInt, atoi⟩

theorem not_isDigit_frac_exp {f e : List Char} (hf : Frac f) (he : Exp e)
    (hrest : isDigit (peek rest) = false) : isDigit (peek (f ++ e ++ rest)) = false := by
  by_cases hne : f ++ e = []
  · rw [hne]
    exact hrest
  · rcases peek_frac_exp rest hf he hne with h | h | h <;> (rw [h]; rfl)

theorem reads_whole : Reads whole := by
  rintro t rest ⟨hi, hf, he⟩ hrest
  rename_i b i f e
  have hlong := not_isDigit_frac_exp hf he (not_isDigit_of_follow hrest)
  have hshort : isDigit (peek (f ++ e ++ [])) = false := not_isDigit_frac_exp hf he rfl
  have h₁ := atoi_eq (b := b) hi hlong
  have h₂ := atoi_eq (b := b) hi hshort
  rw [List.append_nil, ← List.append_assoc] at h₂
  rw [← List.append_assoc, ← List.append_assoc] at h₁
  exact h₁.trans h₂.symm

end json11.Grammar
