import Runos.Json.Proof.Parser

/-!
# Accepted and refused texts

A text is accepted with a value if and only if the grammar gives it the value, with arrays and
objects nested at most `max_depth` deep (`parse_iff`); a text that is refused leaves a message and
no members or items (`parse_refused`).
-/

namespace json11.Grammar

open Fallible

variable {δ α : Type} {C : Double δ} {str : List Char}

/-- A failure with a message, in a function whose value is then `Json()`. -/
def Refused (f : Failure δ) : Prop := f.err ≠ [] ∧ f.value = .nul

/-- A failure with a message, in a function that reads a string. -/
def RefusedString (f : Failure δ) : Prop := f.err ≠ [] ∧ f.value = .string []

theorem throws_fail {msg rest : List Char} (h : msg ≠ []) :
    Throws (fail msg rest : Except (Failure δ) α) Refused :=
  .error ⟨h, rfl⟩

theorem throws_failString {msg rest : List Char} (h : msg ≠ []) :
    Throws (failString msg rest : Except (Failure δ) α) RefusedString :=
  .error ⟨h, rfl⟩

theorem of_eq_error {x : Except (Failure δ) (α × List Char)}
    {hx : ∀ a rest, x = .ok (a, rest) → rest.length < str.length} {f : Failure δ} :
    Result.of x hx = .error f ↔ x = .error f := by
  refine ⟨fun h => ?_, fun h => ?_⟩
  · cases x with
    | error f' => cases h; rfl
    | ok a => cases h
  · subst h
    rfl

theorem throws_of {P : Failure δ → Prop} {x : Except (Failure δ) (α × List Char)}
    {hx : ∀ a rest, x = .ok (a, rest) → rest.length < str.length} (h : Throws x P) :
    Throws (Result.of x hx) P :=
  fun f hf => h f (of_eq_error.1 hf)

theorem throws_orNul {P : Failure δ → Prop} {x : Except (Failure δ) α} (h : Throws x P)
    (hP : ∀ f, P f → f.err ≠ []) : Throws (orNul x) Refused := by
  intro f hf
  cases x with
  | error f' => cases hf; exact ⟨hP f' (h f' rfl), rfl⟩
  | ok a => cases hf

theorem throws_getNextToken (str : List Char) : Throws (getNextToken (δ := δ) str) Refused := by
  unfold getNextToken
  split
  · exact throws_fail (by simp)
  · exact .ok _

theorem throws_parseString (out : List Char) (last : Option Nat) (str : List Char) :
    Throws (parseString (δ := δ) out last str) RefusedString := by
  fun_induction parseString (δ := δ) out last str with
  | case1 => exact throws_failString (by simp)
  | case2 => exact .ok _
  | case3 => exact throws_failString (by simp)
  | case4 => assumption
  | case5 => exact throws_failString (by simp)
  | case6 => assumption
  | case7 => exact throws_failString (by simp)
  | case8 => exact throws_failString (by simp)
  | case9 => assumption
  | case10 => exact throws_failString (by simp)

theorem throws_readString (str : List Char) : Throws (readString (δ := δ) str) RefusedString :=
  throws_of (throws_parseString [] none str)

theorem throws_integerPart (str : List Char) : Throws (integerPart (δ := δ) str) Refused := by
  rw [integerPart]
  split
  · split
    · exact throws_fail (by simp)
    · exact .ok _
  · split
    · exact .ok _
    · exact throws_fail (by simp)

theorem throws_decimalPart (str : List Char) : Throws (decimalPart (δ := δ) str) Refused := by
  rw [decimalPart]
  split
  · split
    · exact .ok _
    · exact throws_fail (by simp)
  · exact .ok _

theorem throws_exponentPart (str : List Char) : Throws (exponentPart (δ := δ) str) Refused := by
  rw [exponentPart]
  split
  · split
    · exact .ok _
    · exact throws_fail (by simp)
  · exact .ok _

theorem throws_parseNumber (str : List Char) : Throws (parseNumber C str) Refused := by
  refine (throws_integerPart _).bind fun rest => ?_
  split
  · exact .ok _
  · exact (throws_decimalPart _).bind fun _ => (throws_exponentPart _).bind fun _ => .ok _

theorem throws_expect {expected : List Char} {res : Json δ} (str : List Char) :
    Throws (expect expected res str) Refused := by
  rw [expect]
  split
  · exact .ok _
  · exact throws_fail (by simp)

/-! ## Arrays and objects -/

section
variable {p : (str : List Char) → Result δ (Json δ) str}

theorem throws_parseItems (hp : ∀ str, Throws (p str) fun f => f.err ≠ [])
    (data : List (Json δ)) (str : List Char) : Throws (parseItems p data str) Refused := by
  rw [parseItems]
  refine (throws_orNul (hp str) fun _ h => h).bind fun v => ?_
  refine (throws_getNextToken _).bind fun ch => ?_
  split
  · exact .ok _
  · split
    · exact throws_fail (by simp)
    · refine (throws_getNextToken _).bind fun next => ?_
      have hlt : (next.value :: next.rest).length < str.length :=
        Nat.lt_of_le_of_lt next.lt (ch.lt.trans v.lt)
      exact (throws_parseItems hp _ _).bind fun _ => .ok _
termination_by str.length

theorem throws_parseMembers (hp : ∀ str, Throws (p str) fun f => f.err ≠ [])
    (data : List (List Char × Json δ)) (ch : Char) (str : List Char) :
    Throws (parseMembers p data ch str) Refused := by
  rw [parseMembers]
  split
  · exact throws_fail (by simp)
  · refine (throws_orNul (throws_readString str) fun _ h => h.1).bind fun key => ?_
    refine (throws_getNextToken _).bind fun colon => ?_
    split
    · exact throws_fail (by simp)
    · refine (throws_orNul (hp _) fun _ h => h).bind fun v => ?_
      refine (throws_getNextToken _).bind fun ch => ?_
      dsimp only
      split
      · exact .ok _
      · split
        · exact throws_fail (by simp)
        · refine (throws_getNextToken _).bind fun next => ?_
          have hlt : next.rest.length < str.length :=
            next.lt.trans (ch.lt.trans (v.lt.trans (colon.lt.trans key.lt)))
          exact (throws_parseMembers hp _ _ _).bind fun _ => .ok _
termination_by str.length

end

/-! ## Values -/

/-- How the parser fails on a value: with `Json()`, or on a string that the text opens. -/
def RefusedValue (str : List Char) (f : Failure δ) : Prop :=
  Refused f ∨ RefusedString f ∧ ∃ w t, str = w ++ '"' :: t ∧ Ws w ∧
    parseString [] none t = .error f

theorem throws_parseJson :
    ∀ n str, Throws (parseJson C n str) (RefusedValue str)
  | 0, str => (throws_fail (by simp)).mono fun _ h => .inl h
  | n + 1, str => by
    have hsub : ∀ str, Throws (parseJson C n str) fun f => f.err ≠ [] := fun str =>
      (throws_parseJson n str).mono fun f h => h.elim (·.1) (·.1.1)
    rw [parseJson]
    refine ((throws_getNextToken str).mono fun _ h => .inl h).bind_of_ok fun ch hch => ?_
    obtain ⟨w, hstr, hw, _⟩ := getNextToken_sound hch
    dsimp only
    split
    · exact (throws_of (throws_parseNumber _)).mono fun _ h => .inl h
    split
    · exact (throws_of (throws_expect _)).mono fun _ h => .inl h
    split
    · exact (throws_of (throws_expect _)).mono fun _ h => .inl h
    split
    · exact (throws_of (throws_expect _)).mono fun _ h => .inl h
    split
    · rename_i hc
      refine Throws.bind (fun f hf => .inr ⟨throws_readString _ f hf, w, ch.rest, hc ▸ hstr, hw, ?_⟩)
        fun _ => .ok _
      exact of_eq_error.1 hf
    split
    · refine Throws.mono ((throws_getNextToken _).bind fun next => ?_) fun _ h => .inl h
      split
      · exact .ok _
      · exact (throws_parseMembers hsub _ _ _).bind fun _ => .ok _
    split
    · refine Throws.mono ((throws_getNextToken _).bind fun next => ?_) fun _ h => .inl h
      split
      · exact .ok _
      · exact (throws_parseItems hsub _ _).bind fun _ => .ok _
    · exact (throws_fail (by simp)).mono fun _ h => .inl h

/-! ## Whole texts -/

theorem eq_append_self {w : List Char} : Ws w ↔ consumeWhitespace w = [] := by
  rw [consumeWhitespace, List.dropWhile_eq_nil_iff]
  rfl

/-- The texts that are accepted are those of the grammar, with their values. -/
theorem parse_eq_iff (hC : Reads C) (text : List Char) (v : Json δ) :
    parse C text [] = (v, []) ↔ Document C maxDepth text v := by
  refine ⟨fun h => ?_, fun h => ?_⟩
  · rw [parse] at h
    split at h
    · rename_i f hf
      have herr : f.err ≠ [] := (throws_parseJson _ _ f hf).elim (·.1) (·.1.1)
      exact absurd (congrArg Prod.snd h) herr
    · rename_i r hr
      split at h
      · rename_i hend
        cases h
        have hws : Ws r.rest := eq_append_self.2 hend
        have hfollow : Follow r.rest := fun c hc => .inl (hws c (List.mem_of_mem_head? hc))
        obtain ⟨w, t, hstr, hw, ht⟩ := parse_sound hC maxDepth text r hr hfollow
        exact ⟨w, t, r.rest, hstr, hw, hws, ht⟩
      · have herr := congrArg Prod.snd h
        simp at herr
  · obtain ⟨w, t, w', rfl, hw, hw', ht⟩ := h
    have hfollow : Follow w' := fun c hc => .inl (hw' c (List.mem_of_mem_head? hc))
    obtain ⟨_, hr⟩ := (parse_complete hC maxDepth t v ht).2 w w' hw hfollow
    rw [parse, hr]
    dsimp only
    rw [eq_append_self.1 hw']

/-! ## Accepted values -/

theorem allItems_iff {P : Json δ → Prop} {vs : List (Json δ)} :
    Json.AllItems P vs ↔ ∀ v ∈ vs, v.All P := by
  induction vs with
  | nil => exact ⟨fun _ => List.forall_mem_nil _, fun _ => trivial⟩
  | cons v vs ih => rw [Json.AllItems, ih, List.forall_mem_cons]

theorem allMembers_iff {P : Json δ → Prop} {ms : List (List Char × Json δ)} :
    Json.AllMembers P ms ↔ ∀ m ∈ ms, m.2.All P := by
  induction ms with
  | nil => exact ⟨fun _ => List.forall_mem_nil _, fun _ => trivial⟩
  | cons m ms ih =>
    obtain ⟨k, v⟩ := m
    rw [Json.AllMembers, ih, List.forall_mem_cons]

theorem depth_array_le {vs : List (Json δ)} {n : Nat} :
    (Json.array vs).depth ≤ n ↔ ∀ v ∈ vs, v.depth < n := by
  rw [Json.depth]
  induction vs with
  | nil => exact ⟨fun _ => List.forall_mem_nil _, fun _ => Nat.zero_le _⟩
  | cons v vs ih => rw [Json.depthItems, Nat.max_le, ih, List.forall_mem_cons, Nat.succ_le_iff]

theorem depth_object_le {ms : List (List Char × Json δ)} {n : Nat} :
    (Json.object ms).depth ≤ n ↔ ∀ m ∈ ms, m.2.depth < n := by
  rw [Json.depth]
  induction ms with
  | nil => exact ⟨fun _ => List.forall_mem_nil _, fun _ => Nat.zero_le _⟩
  | cons m ms ih =>
    obtain ⟨k, v⟩ := m
    rw [Json.depthMembers, Nat.max_le, ih, List.forall_mem_cons, Nat.succ_le_iff]

theorem forall_separated {R : List Char → α → Prop} {t : List Char} {as : List α}
    (h : Separated R t as) : ∀ a ∈ as, ∃ t, R t a := by
  induction h with
  | one ht _ => exact List.forall_mem_singleton.2 ⟨_, ht⟩
  | cons ht _ _ _ ih => exact List.forall_mem_cons.2 ⟨⟨_, ht⟩, ih⟩

/-- Objects are in order of their keys, and nothing is nested deeper than the texts are. -/
theorem value_wf {R : List Char → Json δ → Prop} {n : Nat}
    (hR : ∀ t v, R t v → v.Sorted ∧ v.depth < n) {t : List Char} {v : Json δ} (h : Value C R t v) :
    v.Sorted ∧ v.depth ≤ n := by
  have hnil : SortedMap.Sorted ([] : List (List Char × Json δ)) := .nil
  cases h with
  | nul | true | false | int _ _ | double _ _ _ _ | string _ => exact ⟨hnil, Nat.zero_le _⟩
  | emptyArray _ => exact ⟨⟨hnil, trivial⟩, Nat.zero_le _⟩
  | emptyObject _ => exact ⟨⟨hnil, trivial⟩, Nat.zero_le _⟩
  | @array _ _ vs _ hvs =>
    have hparts : ∀ v ∈ vs, v.Sorted ∧ v.depth < n := fun v hv =>
      (forall_separated hvs v hv).elim fun t ht => hR t v ht
    exact ⟨⟨hnil, allItems_iff.2 fun v hv => (hparts v hv).1⟩,
      depth_array_le.2 fun v hv => (hparts v hv).2⟩
  | @object _ _ ms _ hms =>
    have hparts : ∀ m ∈ SortedMap.ofList ms, m.2.Sorted ∧ m.2.depth < n := fun m hm => by
      obtain ⟨t, _, _, _, ht⟩ := forall_separated hms m (SortedMap.mem_ofList hm)
      exact hR _ _ ht
    exact ⟨⟨SortedMap.sorted_ofList _, allMembers_iff.2 fun m hm => (hparts m hm).1⟩,
      depth_object_le.2 fun m hm => (hparts m hm).2⟩

theorem denotes_wf : ∀ (n : Nat) (t : List Char) (v : Json δ), Denotes C n t v →
    v.Sorted ∧ v.depth ≤ n
  | 0, _, _, h => value_wf (fun _ _ h => h.elim) h
  | n + 1, _, _, h => value_wf (fun t v h => (denotes_wf n t v h).imp id Nat.lt_succ_of_le) h

/-- The texts that are accepted are those of the grammar, with their values; in these the members of
an object are in the order of their keys, and nothing is nested deeper than `max_depth`. -/
theorem parse_accepts (hC : Reads C) (text : List Char) (v : Json δ) :
    (parse C text [] = (v, []) ↔ Document C maxDepth text v) ∧
      (parse C text [] = (v, []) → v.Sorted ∧ v.depth ≤ maxDepth) := by
  refine ⟨parse_eq_iff hC text v, fun h => ?_⟩
  obtain ⟨_, t, _, _, _, _, ht⟩ := (parse_eq_iff hC text v).1 h
  exact denotes_wf maxDepth t v ht

theorem parse_accepts_list : parse whole ['[', '7', ',', ' ', 't', 'r', 'u', 'e', ']'] [] =
    (.array [.int 7, .bool true], []) :=
  (parse_accepts reads_whole _ _).1.2 ⟨[], _, [], (List.append_nil _).symm, ws_nil, ws_nil,
    .array (w := []) ws_nil (.cons (t := ['7']) (w := [])
      (.int (b := false) (.pos rfl (by decide) (List.forall_mem_nil _)) (by decide)) ws_nil
      (u := [' ']) (List.forall_mem_singleton.2 rfl)
      (.one (t := ['t', 'r', 'u', 'e']) (w := []) .true ws_nil))⟩

/-! ## Refused texts -/

/-- A text that opens a string at its start and has nothing but blanks behind what is wrong in it. -/
def OpenString (δ : Type) (text : List Char) : Prop :=
  ∃ w t, ∃ f : Failure δ, text = w ++ '"' :: t ∧ Ws w ∧ parseString [] none t = .error f ∧ Ws f.rest

theorem parse_openString {text : List Char} (h : OpenString δ text) :
    (parse C text []).1 = .string [] := by
  obtain ⟨w, t, f, rfl, hw, hf, hrest⟩ := h
  obtain ⟨_, hch⟩ := (getNextToken_complete (δ := δ) (c := '"') hw rfl).bind
  have hs : readString t = .error f := of_eq_error.2 hf
  have hjson : parseJson C (maxDepth + 1) (w ++ '"' :: t) = .error f := by
    rw [parseJson, hch]
    dsimp only
    rw [if_neg (by decide), if_neg (by decide), if_neg (by decide), if_neg (by decide), if_pos rfl,
      hs]
    rfl
  rw [parse, hjson]
  dsimp only
  rw [if_pos (eq_append_self.1 hrest)]
  exact (throws_parseString _ _ _ f hf).2

/-- A text that is not of the grammar is refused with a message. The value is then `Json()`, but
`""` where the text is a string that is broken or not closed. -/
theorem parse_refused (hC : Reads C) (text : List Char) (h : ∀ v, ¬ Document C maxDepth text v) :
    (parse C text []).2 ≠ [] ∧ ((parse C text []).1 = .string [] ∧ OpenString δ text ∨
      (parse C text []).1 = .nul ∧ ¬ OpenString δ text) := by
  refine ⟨fun herr => h _ ((parse_eq_iff hC text _).1 (Prod.ext rfl herr)), ?_⟩
  by_cases hopen : OpenString δ text
  · exact .inl ⟨parse_openString hopen, hopen⟩
  · refine .inr ⟨?_, hopen⟩
    rw [parse]
    split
    · rename_i f hf
      split
      · rename_i hrest
        rcases throws_parseJson _ _ f hf with hf | ⟨_, w, t, htext, hw, hs⟩
        · exact hf.2
        · exact absurd ⟨w, t, f, htext, hw, hs, eq_append_self.2 hrest⟩ hopen
      · rfl
    · rename_i r hr
      split
      · rename_i hend
        refine absurd ((parse_eq_iff hC text r.value).1 ?_) (h _)
        rw [parse, hr]
        dsimp only
        rw [hend]
      · rfl

theorem parse_refused_open : (parse whole ['"', 'a'] []).2 ≠ [] ∧
    ((parse whole ['"', 'a'] []).1 = .string [] ∧ OpenString Int ['"', 'a'] ∨
      (parse whole ['"', 'a'] []).1 = .nul ∧ ¬ OpenString Int ['"', 'a']) := by
  refine parse_refused reads_whole ['"', 'a'] fun v h => ?_
  have herr : (parse whole ['"', 'a'] []).2 = [] :=
    congrArg Prod.snd ((parse_eq_iff reads_whole _ v).2 h)
  have hval : parse whole ['"', 'a'] [] = (.string [], "unexpected end of input in string".toList) :=
    rfl
  rw [hval] at herr
  simp at herr

end json11.Grammar
