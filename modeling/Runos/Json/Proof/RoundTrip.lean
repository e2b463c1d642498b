import Runos.Json.Proof.Refused

/-!
# Dumping and parsing

What is dumped of a value is a text of the grammar for an equal value (`denotes_dump`), so it is
parsed again if and only if the value is not nested too deep (`parse_dump`).
-/

namespace json11.Grammar

variable {δ : Type} {C : Double δ} {finite : δ → Prop}

/-! ## Integers -/

theorem toDigits_pos (n : Nat) (h : 0 < n) :
    ∃ c t, Nat.toDigits 10 n = c :: t ∧ c.isDigit = true ∧ c ≠ '0' ∧ Digits t := by
  induction n using Nat.strongRecOn with
  | ind n ih =>
    by_cases hlt : n < 10
    · rw [Nat.toDigits_of_lt_base hlt]
      have hc : n.digitChar.isDigit = true ∧ (0 < n → n.digitChar ≠ '0') :=
        (by decide : ∀ n < 10, (Nat.digitChar n).isDigit = true ∧ (0 < n → Nat.digitChar n ≠ '0'))
          n hlt
      exact ⟨_, [], rfl, hc.1, hc.2 h, List.forall_mem_nil _⟩
    · obtain ⟨c, t, heq, hc, h0, ht⟩ := ih (n / 10) (by omega) (by omega)
      have hd : (n % 10).digitChar.isDigit = true :=
        (by decide : ∀ n < 10, (Nat.digitChar n).isDigit = true) _ (Nat.mod_lt n (by decide))
      rw [Nat.toDigits_of_base_le (by decide) (Nat.le_of_not_lt hlt), heq]
      exact ⟨c, t ++ [_], rfl, hc, h0, List.forall_mem_append.2 ⟨ht, List.forall_mem_singleton.2 hd⟩⟩

theorem integer_toDigits (n : Nat) : Integer (Nat.toDigits 10 n) := by
  by_cases h : 0 < n
  · obtain ⟨c, t, heq, hc, h0, ht⟩ := toDigits_pos n h
    rw [heq]
    exact .pos hc h0 ht
  · obtain rfl : n = 0 := by omega
    exact .zero

theorem dumpInt_eq (n : Int) :
    Json.dumpInt n = minus (decide (n < 0)) ++ Nat.toDigits 10 n.natAbs := by
  rw [Json.dumpInt]
  by_cases h : n < 0
  · rw [if_pos h, decide_eq_true h]
    rfl
  · rw [if_neg h, decide_eq_false h]
    rfl

theorem intValue_dumpInt (n : Int) : intValue (decide (n < 0)) (Nat.toDigits 10 n.natAbs) = n := by
  rw [intValue, Numeral.value_toDigits (by decide) (by decide)]
  by_cases h : n < 0
  · rw [decide_eq_true h, if_pos rfl]
    omega
  · rw [decide_eq_false h, if_neg (by decide)]
    omega

/-- A short integer fits into an `int`. -/
theorem toInt_ofInt_intValue {b : Bool} {i : List Char} (hi : Integer i)
    (hlen : (minus b ++ i).length ≤ digits10) :
    Numeral.value 10 i < 10 ^ 9 ∧ (Int32.ofInt (intValue b i)).toInt = intValue b i := by
  have hlt : Numeral.value 10 i < 10 ^ 9 := by
    have hd : ∀ c ∈ i, Numeral.digit c < 10 := by
      intro c hc
      have := digits_integer hi c hc
      have := Numeral.isDigit_iff.1 this
      rw [Numeral.digit, if_pos ‹_›]
      omega
    refine Nat.lt_of_lt_of_le (Numeral.value_lt hd) (Nat.pow_le_pow_right (by decide) ?_)
    rw [List.length_append] at hlen
    exact Nat.le_trans (Nat.le_add_left _ _) hlen
  refine ⟨hlt, Int32.toInt_ofInt_of_le ?_ ?_⟩
  · rw [intValue]
    split <;> omega
  · rw [intValue]
    split <;> omega

/-! ## Numbers -/

theorem exists_parts {t : List Char} (h : Number t) : ∃ b i f e, Integer i ∧ Frac f ∧ Exp e ∧
    t = minus b ++ i ++ f ++ e := by
  obtain ⟨hi, hf, he⟩ := h
  exact ⟨_, _, _, _, hi, hf, he, rfl⟩

section
variable {R : List Char → Json δ → Prop}

/-- An integer that is too long for an `int` is a double. -/
theorem value_long {b : Bool} {i : List Char} (hi : Integer i)
    (hlen : ¬ (minus b ++ i).length ≤ digits10) :
    Value C R (minus b ++ i) (.double (C.atof (minus b ++ i))) := by
  have h := Value.double (C := C) (R := R) hi .none .none (.inr (Nat.lt_of_not_le hlen))
  rwa [List.append_nil, List.append_nil] at h

theorem value_int (hC : Lawful C finite) (n : Int32) :
    ∃ v, Value C R (Json.dumpInt n.toInt) v ∧ v.equals C (.int n) = true := by
  have hi := integer_toDigits n.toInt.natAbs
  have hsmall : Numeral.value 10 (Nat.toDigits 10 n.toInt.natAbs) ≤ 2 ^ 53 := by
    have := Int32.le_toInt n
    have := Int32.toInt_lt n
    rw [Numeral.value_toDigits (by decide) (by decide)]
    omega
  have heq := hC.integer (decide (n.toInt < 0)) _ hi hsmall
  rw [intValue_dumpInt] at heq
  rw [dumpInt_eq]
  by_cases hlen : (minus (decide (n.toInt < 0)) ++ Nat.toDigits 10 n.toInt.natAbs).length ≤ digits10
  · refine ⟨_, .int hi hlen, ?_⟩
    rw [intValue_dumpInt, Int32.ofInt_toInt, Json.equals]
    exact hC.eq_of_eq _ _ _ heq heq
  · refine ⟨_, value_long hi hlen, ?_⟩
    rw [Json.equals]
    exact heq

theorem value_double (hC : Lawful C finite) {d : δ} (hd : finite d) :
    ∃ v, Value C R (C.print d) v ∧ v.equals C (.double d) = true := by
  have heq := hC.reread d hd
  obtain ⟨b, i, f, e, hi, hf, he, htext⟩ := exists_parts (hC.number d hd)
  rw [htext] at heq ⊢
  by_cases h : f ++ e = [] ∧ (minus b ++ i).length ≤ digits10
  · obtain ⟨hnil, hlen⟩ := h
    obtain ⟨rfl, rfl⟩ := List.append_eq_nil_iff.1 hnil
    rw [List.append_nil, List.append_nil] at heq ⊢
    obtain ⟨hlt, hint⟩ := toInt_ofInt_intValue hi hlen
    refine ⟨_, .int hi hlen, ?_⟩
    rw [Json.equals, hint]
    refine hC.eq_of_eq _ _ _ (hC.integer b i hi ?_) heq
    omega
  · refine ⟨_, .double hi hf he ?_, ?_⟩
    · rcases not_and_or.1 h with h | h
      · exact .inl h
      · exact .inr (Nat.lt_of_not_le h)
    · rw [Json.equals]
      exact heq

theorem atoi_whole {b : Bool} {t : List Char} (h : Integer t) :
    whole.atof (minus b ++ t) = intValue b t := by
  have hatoi : atoi (minus b ++ t ++ []) = intValue b t := atoi_eq h rfl
  rwa [List.append_nil] at hatoi

theorem lawful_whole : Lawful whole fun d => d.natAbs ≤ 2 ^ 53 where
  reads := reads_whole
  integer _ _ h _ := beq_iff_eq.2 (atoi_whole h)
  number d _ := by
    have h := Number.mk (b := decide (d < 0)) (integer_toDigits d.natAbs) .none .none
    rw [List.append_nil, List.append_nil, ← dumpInt_eq] at h
    exact h
  reread d _ := by
    show (atoi (Json.dumpInt d) == d) = true
    rw [dumpInt_eq]
    exact beq_iff_eq.2 ((atoi_whole (integer_toDigits d.natAbs)).trans (intValue_dumpInt d))
  eq_of_eq a b c hab hac := beq_iff_eq.2 ((beq_iff_eq.1 hab).symm.trans (beq_iff_eq.1 hac))

/-! ## Arrays and objects -/

/-- What is dumped of a value is a text for a value that equals it. -/
def Again (C : Double δ) (R : List Char → Json δ → Prop) (v : Json δ) : Prop :=
  ∃ v', R (v.dump C) v' ∧ v'.equals C v = true

theorem separated_items (v : Json δ) (vs : List (Json δ)) (h : ∀ u ∈ v :: vs, Again C R u) :
    ∃ us, Separated R (Json.dumpItems C true (v :: vs)) us ∧
      Json.equalsItems C us (v :: vs) = true := by
  induction vs generalizing v with
  | nil =>
    obtain ⟨v', ht, heq⟩ := h v List.mem_cons_self
    refine ⟨[v'], .one ht ws_nil, ?_⟩
    rw [Json.equalsItems, heq]
    rfl
  | cons u vs ih =>
    obtain ⟨v', ht, heq⟩ := h v List.mem_cons_self
    obtain ⟨us, hus, heqs⟩ := ih u fun w hw => h w (List.mem_cons_of_mem _ hw)
    refine ⟨v' :: us, ?_, ?_⟩
    · have hcons := Separated.cons ht ws_nil (u := [' ']) (List.forall_mem_singleton.2 rfl) hus
      simpa [Json.dumpItems, Json.separator] using hcons
    · rw [Json.equalsItems, heq, heqs]
      rfl

theorem separated_members (m : List Char × Json δ) (ms : List (List Char × Json δ))
    (h : ∀ l ∈ m :: ms, Again C R l.2) :
    ∃ ls, Separated (Member R) (Json.dumpMembers C true (m :: ms)) ls ∧
      Json.equalsMembers C ls (m :: ms) = true ∧ ls.map Prod.fst = (m :: ms).map Prod.fst := by
  have hmember : ∀ m : List Char × Json δ, Again C R m.2 → ∃ v',
      Member R (Json.dumpString m.1 ++ [':', ' '] ++ m.2.dump C) (m.1, v') ∧
        v'.equals C m.2 = true := by
    rintro ⟨k, v⟩ ⟨v', ht, heq⟩
    have hmk := Member.mk (str_dumpString k) ws_nil (u := [' ']) (List.forall_mem_singleton.2 rfl) ht
    refine ⟨v', ?_, heq⟩
    simpa using hmk
  induction ms generalizing m with
  | nil =>
    obtain ⟨v', hm, heq⟩ := hmember m (h m List.mem_cons_self)
    obtain ⟨k, v⟩ := m
    refine ⟨[(k, v')], ?_, ?_, rfl⟩
    · have hone := Separated.one hm ws_nil
      simpa [Json.dumpMembers, Json.separator] using hone
    · simp only [Json.equalsMembers, heq, beq_self_eq_true, Bool.and_self]
  | cons l ms ih =>
    obtain ⟨v', hm, heq⟩ := hmember m (h m List.mem_cons_self)
    obtain ⟨ls, hls, heqs, hkeys⟩ := ih l fun w hw => h w (List.mem_cons_of_mem _ hw)
    obtain ⟨k, v⟩ := m
    obtain ⟨k', u⟩ := l
    refine ⟨(k, v') :: ls, ?_, ?_, congrArg (k :: ·) hkeys⟩
    · have hcons := Separated.cons hm ws_nil (u := [' ']) (List.forall_mem_singleton.2 rfl) hls
      simpa [Json.dumpMembers, Json.separator] using hcons
    · simp only [Json.equalsMembers, heq, heqs, beq_self_eq_true, Bool.and_self]

end

/-! ## Values -/

theorem denotes_eq (C : Double δ) (n : Nat) : ∃ R, Denotes C n = Value C R := by
  cases n with
  | zero => exact ⟨_, rfl⟩
  | succ n => exact ⟨_, rfl⟩

theorem array_again {R : List Char → Json δ → Prop} {vs : List (Json δ)}
    (h : ∀ v ∈ vs, Again C R v) : Again C (Value C R) (.array vs) := by
  cases vs with
  | nil => exact ⟨.array [], .emptyArray ws_nil, rfl⟩
  | cons v vs =>
    obtain ⟨us, hus, heq⟩ := separated_items v vs h
    exact ⟨.array us, .array (w := []) ws_nil hus, heq⟩

theorem object_again {R : List Char → Json δ → Prop} {ms : List (List Char × Json δ)}
    (hs : SortedMap.Sorted ms) (h : ∀ m ∈ ms, Again C R m.2) :
    Again C (Value C R) (.object ms) := by
  cases ms with
  | nil => exact ⟨.object [], .emptyObject ws_nil, rfl⟩
  | cons m ms =>
    obtain ⟨ls, hls, heq, hkeys⟩ := separated_members m ms h
    have hsorted : SortedMap.Sorted ls := by
      rw [SortedMap.Sorted, ← List.pairwise_map (f := Prod.fst) (R := (· < ·))] at hs ⊢
      rwa [hkeys]
    refine ⟨.object (SortedMap.ofList ls), .object (w := []) ws_nil hls, ?_⟩
    rw [SortedMap.ofList_of_sorted hsorted]
    exact heq

/-- What is dumped of a value that is not nested too deep. -/
theorem denotes_dump (hC : Lawful C finite) (v : Json δ) (hs : v.Sorted) (hf : v.Finite finite)
    (n : Nat) (hn : v.depth ≤ n) : Again C (Denotes C n) v := by
  induction v using Json.induction generalizing n with
  | nul =>
    obtain ⟨R, hR⟩ := denotes_eq C n
    exact hR ▸ ⟨.nul, .nul, rfl⟩
  | bool b =>
    obtain ⟨R, hR⟩ := denotes_eq C n
    cases b
    · exact hR ▸ ⟨.bool false, .false, rfl⟩
    · exact hR ▸ ⟨.bool true, .true, rfl⟩
  | int k =>
    obtain ⟨R, hR⟩ := denotes_eq C n
    exact hR ▸ value_int hC k
  | double d =>
    obtain ⟨R, hR⟩ := denotes_eq C n
    exact hR ▸ value_double hC (hf d rfl)
  | string s =>
    obtain ⟨R, hR⟩ := denotes_eq C n
    exact hR ▸ ⟨.string s, .string (str_dumpString s), beq_self_eq_true s⟩
  | array vs ih =>
    have hs' := allItems_iff.1 hs.2
    have hf' := allItems_iff.1 hf.2
    have hn' := depth_array_le.1 hn
    cases n with
    | zero => exact array_again fun v hv => absurd (hn' v hv) (Nat.not_lt_zero _)
    | succ n =>
      exact array_again fun v hv => ih v hv (hs' v hv) (hf' v hv) n (Nat.le_of_lt_succ (hn' v hv))
  | object ms ih =>
    have hs' := allMembers_iff.1 hs.2
    have hf' := allMembers_iff.1 hf.2
    have hn' := depth_object_le.1 hn
    cases n with
    | zero => exact object_again hs.1 fun m hm => absurd (hn' m hm) (Nat.not_lt_zero _)
    | succ n =>
      exact object_again hs.1 fun m hm =>
        ih m hm (hs' m hm) (hf' m hm) n (Nat.le_of_lt_succ (hn' m hm))

end json11.Grammar
