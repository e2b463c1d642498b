import Runos.Json.Proof.RoundTrip

/-!
# Values that are nested too deep

What is dumped of a value that is nested deeper than `max_depth` is refused with the message about
the nesting (`parse_dump`), and what is dumped of any other value is parsed to an equal one.
-/

namespace json11.Grammar

variable {δ α β : Type} {C : Double δ} {finite : δ → Prop}

def TooDeep (x : Except (Failure δ) α) : Prop :=
  ∃ f, x = .error f ∧ f.err = "exceeded maximum nesting depth".toList ∧ f.value = .nul

theorem TooDeep.bind {x : Except (Failure δ) α} (h : TooDeep x) (f : α → Except (Failure δ) β) :
    TooDeep (x >>= f) := by
  obtain ⟨e, rfl, h⟩ := h
  exact ⟨e, rfl, h⟩

theorem TooDeep.orNul {x : Except (Failure δ) α} (h : TooDeep x) : TooDeep (orNul x) := by
  obtain ⟨e, rfl, h⟩ := h
  exact ⟨_, rfl, h.1, rfl⟩

/-- What a parser of values does with what is dumped of a value, whatever stands around it: it gives
a value back, or it finds it too deep. -/
structure Dumped (C : Double δ) (p : (str : List Char) → Result δ (Json δ) str) (v : Json δ) :
    Prop where
  head : ∃ c t, v.dump C = c :: t ∧ isSpace c = false ∧ c ≠ ']'
  reads : (∃ v', ∀ w rest, Ws w → Follow rest → Returns (p (w ++ v.dump C ++ rest)) v' rest) ∨
    ∀ w rest, Ws w → Follow rest → TooDeep (p (w ++ v.dump C ++ rest))

theorem returns_token {c : Char} {rest : List Char} (hc : isSpace c = false) :
    Returns (getNextToken (δ := δ) (c :: rest)) c rest :=
  getNextToken_complete (w := []) ws_nil hc

theorem returns_blank {c : Char} {rest : List Char} (hc : isSpace c = false) :
    Returns (getNextToken (δ := δ) (' ' :: c :: rest)) c rest :=
  getNextToken_complete (w := [' ']) (List.forall_mem_singleton.2 rfl) hc

/-! ## Arrays and objects -/

section
variable {p : (str : List Char) → Result δ (Json δ) str}

theorem follow_dumpItems (vs : List (Json δ)) (rest : List Char) :
    Follow (Json.dumpItems C false vs ++ ']' :: rest) := by
  cases vs with
  | nil => exact follow_token (w := []) ws_nil (by simp)
  | cons v vs => exact follow_token (w := []) (c := ',') ws_nil (by simp)

theorem dumpItems_true (v : Json δ) (vs : List (Json δ)) :
    Json.dumpItems C true (v :: vs) = v.dump C ++ Json.dumpItems C false vs := rfl

theorem dumpItems_false (v : Json δ) (vs : List (Json δ)) :
    Json.dumpItems C false (v :: vs) = ',' :: ' ' :: Json.dumpItems C true (v :: vs) := rfl

theorem parseItems_tooDeep (vs : List (Json δ)) (data : List (Json δ)) (w rest : List Char)
    (hw : Ws w) (h : ∀ v ∈ vs, Dumped C p v)
    (hdeep : ∃ v ∈ vs, ∀ w rest, Ws w → Follow rest → TooDeep (p (w ++ v.dump C ++ rest))) :
    TooDeep (parseItems p data (w ++ Json.dumpItems C true vs ++ ']' :: rest)) := by
  induction vs generalizing data w with
  | nil =>
    obtain ⟨v, hv, _⟩ := hdeep
    cases hv
  | cons v vs ih =>
    have hstr : w ++ Json.dumpItems C true (v :: vs) ++ ']' :: rest =
        w ++ v.dump C ++ (Json.dumpItems C false vs ++ ']' :: rest) := by
      rw [dumpItems_true]
      simp only [List.append_assoc]
    have hfollow := follow_dumpItems (C := C) vs rest
    have hhead : (∀ w rest, Ws w → Follow rest → TooDeep (p (w ++ v.dump C ++ rest))) →
        TooDeep (parseItems p data
          (w ++ v.dump C ++ (Json.dumpItems C false vs ++ ']' :: rest))) := by
      intro hbad
      rw [parseItems]
      exact (hbad w _ hw hfollow).orNul.bind _
    rw [hstr]
    obtain ⟨u, hu, hbad⟩ := hdeep
    rcases List.mem_cons.1 hu with rfl | hu
    · exact hhead hbad
    rcases (h v List.mem_cons_self).reads with ⟨v', hv'⟩ | hbad'
    · cases vs with
      | nil => cases hu
      | cons u' us =>
        obtain ⟨c, t, hc, hspace, _⟩ := (h u' (by simp)).head
        have hitems : Json.dumpItems C true (u' :: us) ++ ']' :: rest =
            c :: (t ++ Json.dumpItems C false us ++ ']' :: rest) := by
          rw [dumpItems_true, hc]
          rfl
        have htail := ih (data ++ [v']) [] ws_nil (fun x hx => h x (List.mem_cons_of_mem _ hx))
          ⟨u, hu, hbad⟩
        rw [List.nil_append, hitems] at htail
        rw [dumpItems_false, List.cons_append, List.cons_append, hitems] at hfollow ⊢
        obtain ⟨_, hv'⟩ := (hv' w _ hw hfollow).orNul.bind
        obtain ⟨_, hcomma⟩ := (returns_token (δ := δ) (c := ',') rfl).bind
        obtain ⟨_, hnext⟩ := (returns_blank (δ := δ) hspace).bind
        rw [parseItems, hv', hcomma]
        dsimp only
        rw [if_neg (by decide), if_neg (by decide), hnext]
        exact htail.bind _
    · exact hhead hbad'

theorem dumpMembers_true (k : List Char) (v : Json δ) (ms : List (List Char × Json δ)) :
    Json.dumpMembers C true ((k, v) :: ms) = '"' :: (Json.dumpChars k ++ '"' :: ':' :: ' ' ::
      (v.dump C ++ Json.dumpMembers C false ms)) := by
  simp [Json.dumpMembers, Json.separator, Json.dumpString]

theorem dumpMembers_false (m : List Char × Json δ) (ms : List (List Char × Json δ)) :
    Json.dumpMembers C false (m :: ms) = ',' :: ' ' :: Json.dumpMembers C true (m :: ms) := rfl

theorem follow_dumpMembers (ms : List (List Char × Json δ)) (rest : List Char) :
    Follow (Json.dumpMembers C false ms ++ '}' :: rest) := by
  cases ms with
  | nil => exact follow_token (w := []) ws_nil (by simp)
  | cons m ms => exact follow_token (w := []) (c := ',') ws_nil (by simp)

theorem returns_dumpString (k rest : List Char) :
    Returns (readString (δ := δ) (Json.dumpChars k ++ '"' :: rest)) k rest := by
  obtain ⟨t, ht, hread⟩ := readString_complete (δ := δ) (str_dumpString k)
  obtain rfl : Json.dumpChars k ++ ['"'] = t := List.cons_inj_right _ |>.1 ht
  have h := hread rest
  rwa [List.append_assoc] at h

/-- The start of a round, up to the value of the member. -/
theorem tooDeep_member {k : List Char} {v : Json δ} {data : List (List Char × Json δ)}
    {rest : List Char} (h : TooDeep (p ([' '] ++ v.dump C ++ rest))) :
    TooDeep (parseMembers p data '"' (Json.dumpChars k ++ '"' :: ':' :: ' ' ::
      (v.dump C ++ rest))) := by
  obtain ⟨_, hkey⟩ := (returns_dumpString (δ := δ) k (':' :: ' ' :: (v.dump C ++ rest))).orNul.bind
  obtain ⟨_, hcolon⟩ := (returns_token (δ := δ) (c := ':')
    rfl).bind
  rw [parseMembers, if_neg (by decide), hkey, hcolon]
  dsimp only
  rw [if_neg (by decide)]
  exact h.orNul.bind _

theorem parseMembers_tooDeep (k : List Char) (v : Json δ) (ms : List (List Char × Json δ))
    (data : List (List Char × Json δ)) (rest : List Char)
    (h : ∀ m ∈ (k, v) :: ms, Dumped C p m.2)
    (hdeep : ∃ m ∈ (k, v) :: ms, ∀ w rest, Ws w → Follow rest →
      TooDeep (p (w ++ m.2.dump C ++ rest))) :
    TooDeep (parseMembers p data '"' (Json.dumpChars k ++ '"' :: ':' :: ' ' ::
      (v.dump C ++ (Json.dumpMembers C false ms ++ '}' :: rest)))) := by
  induction ms generalizing data k v with
  | nil =>
    obtain ⟨m, hm, hbad⟩ := hdeep
    obtain rfl := List.mem_singleton.1 hm
    exact tooDeep_member (hbad [' '] _ (List.forall_mem_singleton.2 rfl) (follow_dumpMembers _ _))
  | cons m ms ih =>
    obtain ⟨k', u⟩ := m
    have hfollow := follow_dumpMembers (C := C) ((k', u) :: ms) rest
    have hspace : Ws [' '] := List.forall_mem_singleton.2 rfl
    obtain ⟨m, hm, hbad⟩ := hdeep
    rcases List.mem_cons.1 hm with rfl | hm
    · exact tooDeep_member (hbad [' '] _ hspace hfollow)
    rcases (h (k, v) List.mem_cons_self).reads with ⟨v', hv'⟩ | hbad'
    · have htail := ih k' u (SortedMap.insert k v' data)
        (fun x hx => h x (List.mem_cons_of_mem _ hx)) ⟨m, hm, hbad⟩
      have hv' := hv' [' '] _ hspace hfollow
      rw [dumpMembers_false, dumpMembers_true] at hv' ⊢
      simp only [List.cons_append, List.append_assoc, List.nil_append] at hv' ⊢
      obtain ⟨_, hkey⟩ := (returns_dumpString (δ := δ) k _).orNul.bind
      obtain ⟨_, hcolon⟩ := (returns_token (δ := δ) (c := ':') rfl).bind
      obtain ⟨_, hv'⟩ := hv'.orNul.bind
      obtain ⟨_, hcomma⟩ := (returns_token (δ := δ) (c := ',') rfl).bind
      obtain ⟨_, hnext⟩ := (returns_blank (δ := δ) (c := '"') rfl).bind
      rw [parseMembers, if_neg (by decide), hkey, hcolon]
      dsimp only
      rw [if_neg (by decide), hv', hcomma]
      dsimp only
      rw [if_neg (by decide), if_neg (by decide), hnext]
      exact htail.bind _
    · exact tooDeep_member (hbad' [' '] _ hspace hfollow)

end

/-! ## Values -/

theorem head_dump (hC : Lawful C finite) {v : Json δ} (hs : v.Sorted) (hf : v.Finite finite) :
    ∃ c t, v.dump C = c :: t ∧ isSpace c = false ∧ c ≠ ']' := by
  obtain ⟨v', ht, _⟩ := denotes_dump hC v hs hf v.depth (Nat.le_refl _)
  exact (parse_complete hC.reads v.depth _ _ ht).1

/-- What the parser does with what is dumped of a value, when it finds too deep what is deeper than
the values it is to read. -/
theorem dumped (hC : Lawful C finite) (n : Nat) {v : Json δ} (hs : v.Sorted) (hf : v.Finite finite)
    (hdeep : n ≤ v.depth → ∀ w rest, Ws w → Follow rest →
      TooDeep (parseJson C n (w ++ v.dump C ++ rest))) : Dumped C (parseJson C n) v := by
  refine ⟨head_dump hC hs hf, ?_⟩
  by_cases h : n ≤ v.depth
  · exact .inr (hdeep h)
  · obtain ⟨m, rfl⟩ : ∃ m, n = m + 1 := ⟨n - 1, by omega⟩
    obtain ⟨v', ht, _⟩ := denotes_dump hC v hs hf m (by omega)
    exact .inl ⟨v', (parse_complete hC.reads m _ _ ht).2⟩

theorem tooDeep_zero (str : List Char) : TooDeep (parseJson C 0 str) := ⟨_, rfl, rfl, rfl⟩

theorem parseJson_array (v : Json δ) (vs : List (Json δ)) {n : Nat} {w rest : List Char} (hw : Ws w)
    (h : ∀ u ∈ v :: vs, Dumped C (parseJson C n) u)
    (hdeep : ∃ u ∈ v :: vs, ∀ w rest, Ws w → Follow rest →
      TooDeep (parseJson C n (w ++ u.dump C ++ rest))) :
    TooDeep (parseJson C (n + 1) (w ++ (Json.array (v :: vs)).dump C ++ rest)) := by
  obtain ⟨c, t, hc, hspace, hne⟩ := (h v List.mem_cons_self).head
  have hitems := parseItems_tooDeep (v :: vs) [] [] rest ws_nil h hdeep
  have hstr : w ++ (Json.array (v :: vs)).dump C ++ rest =
      w ++ '[' :: (Json.dumpItems C true (v :: vs) ++ ']' :: rest) := by simp [Json.dump]
  rw [hstr]
  rw [dumpItems_true, hc] at hitems ⊢
  simp only [List.cons_append, List.nil_append] at hitems ⊢
  obtain ⟨_, hch⟩ := (getNextToken_complete (δ := δ) (c := '[') hw rfl).bind
  obtain ⟨_, hnext⟩ := (returns_token (δ := δ) hspace).bind
  rw [parseJson, hch]
  dsimp only
  rw [if_neg (by decide), if_neg (by decide), if_neg (by decide), if_neg (by decide),
    if_neg (by decide), if_neg (by decide), if_pos rfl, hnext]
  dsimp only
  rw [if_neg hne]
  exact hitems.bind _

theorem parseJson_object (k : List Char) (v : Json δ) (ms : List (List Char × Json δ)) {n : Nat}
    {w rest : List Char} (hw : Ws w) (h : ∀ m ∈ (k, v) :: ms, Dumped C (parseJson C n) m.2)
    (hdeep : ∃ m ∈ (k, v) :: ms, ∀ w rest, Ws w → Follow rest →
      TooDeep (parseJson C n (w ++ m.2.dump C ++ rest))) :
    TooDeep (parseJson C (n + 1) (w ++ (Json.object ((k, v) :: ms)).dump C ++ rest)) := by
  have hmembers := parseMembers_tooDeep k v ms [] rest h hdeep
  have hstr : w ++ (Json.object ((k, v) :: ms)).dump C ++ rest =
      w ++ '{' :: '"' :: (Json.dumpChars k ++ '"' :: ':' :: ' ' ::
        (v.dump C ++ (Json.dumpMembers C false ms ++ '}' :: rest))) := by
    simp [Json.dump, dumpMembers_true]
  rw [hstr]
  obtain ⟨_, hch⟩ := (getNextToken_complete (δ := δ) (c := '{') hw rfl).bind
  obtain ⟨_, hnext⟩ := (returns_token (δ := δ) (c := '"') rfl).bind
  rw [parseJson, hch]
  dsimp only
  rw [if_neg (by decide), if_neg (by decide), if_neg (by decide), if_neg (by decide),
    if_neg (by decide), if_pos rfl, hnext]
  dsimp only
  rw [if_neg (by decide)]
  exact hmembers.bind _

theorem parseJson_tooDeep (hC : Lawful C finite) (v : Json δ) (hs : v.Sorted)
    (hf : v.Finite finite) (n : Nat) (hn : n ≤ v.depth) (w rest : List Char) (hw : Ws w)
    (hrest : Follow rest) : TooDeep (parseJson C n (w ++ v.dump C ++ rest)) := by
  induction v using Json.induction generalizing n w rest with
  | nul | bool b | int k | double d | string s =>
    obtain rfl := Nat.le_zero.1 hn
    exact tooDeep_zero _
  | array vs ih =>
    cases n with
    | zero => exact tooDeep_zero _
    | succ n =>
      have hs' := allItems_iff.1 hs.2
      have hf' := allItems_iff.1 hf.2
      obtain ⟨u, hu, hdeep⟩ : ∃ v ∈ vs, n ≤ v.depth := by
        by_contra hall
        have hle := depth_array_le.2 fun v hv => Nat.lt_of_not_le fun h => hall ⟨v, hv, h⟩
        omega
      have hitem : ∀ v ∈ vs, Dumped C (parseJson C n) v := fun v hv =>
        dumped hC n (hs' v hv) (hf' v hv) (ih v hv (hs' v hv) (hf' v hv) n)
      have hbad := ih u hu (hs' u hu) (hf' u hu) n hdeep
      cases vs with
      | nil => cases hu
      | cons v vs => exact parseJson_array v vs hw hitem ⟨u, hu, hbad⟩
  | object ms ih =>
    cases n with
    | zero => exact tooDeep_zero _
    | succ n =>
      have hs' := allMembers_iff.1 hs.2
      have hf' := allMembers_iff.1 hf.2
      obtain ⟨u, hu, hdeep⟩ : ∃ m ∈ ms, n ≤ m.2.depth := by
        by_contra hall
        have hle := depth_object_le.2 fun m hm => Nat.lt_of_not_le fun h => hall ⟨m, hm, h⟩
        omega
      have hitem : ∀ m ∈ ms, Dumped C (parseJson C n) m.2 := fun m hm =>
        dumped hC n (hs' m hm) (hf' m hm) (ih m hm (hs' m hm) (hf' m hm) n)
      have hbad := ih u hu (hs' u hu) (hf' u hu) n hdeep
      cases ms with
      | nil => cases hu
      | cons m ms =>
        obtain ⟨k, v⟩ := m
        exact parseJson_object k v ms hw hitem ⟨u, hu, hbad⟩

/-! ## Whole texts -/

/-- What is dumped of a value is parsed to an equal value, or refused if the value is nested deeper
than `max_depth`. -/
theorem parse_dump (hC : Lawful C finite) (v : Json δ) (hs : v.Sorted) (hf : v.Finite finite) :
    (v.depth ≤ maxDepth → ∃ v', parse C (v.dump C) [] = (v', []) ∧ v'.equals C v = true) ∧
      (maxDepth < v.depth →
        parse C (v.dump C) [] = (.nul, "exceeded maximum nesting depth".toList)) := by
  refine ⟨fun h => ?_, fun h => ?_⟩
  · obtain ⟨v', ht, heq⟩ := denotes_dump hC v hs hf maxDepth h
    refine ⟨v', (parse_eq_iff hC.reads _ v').2 ⟨[], _, [], ?_, ws_nil, ws_nil, ht⟩, heq⟩
    rw [List.append_nil]
    rfl
  · have hnil : Follow [] := fun c hc => by cases hc
    have hdeep := parseJson_tooDeep hC v hs hf (maxDepth + 1) h [] [] ws_nil hnil
    rw [List.append_nil, List.nil_append] at hdeep
    obtain ⟨f, hf, herr, hval⟩ := hdeep
    rw [parse, hf]
    dsimp only
    rw [herr, hval, ite_self]

theorem parse_dump_object :
    ∃ v', parse whole ((Json.object [(['a'], .array [.int 5, .double 12345678901])]).dump whole) [] =
        (v', []) ∧
      v'.equals whole (.object [(['a'], .array [.int 5, .double 12345678901])]) = true := by
  have hs : (Json.object [(['a'], .array [.int 5, .double (12345678901 : Int)])]).Sorted := by
    simp [Json.Sorted, Json.All, Json.AllMembers, Json.AllItems, Json.objectItems, SortedMap.Sorted]
  have hf : (Json.object [(['a'], .array [.int 5, .double (12345678901 : Int)])]).Finite
      fun d => d.natAbs ≤ 2 ^ 53 := by
    simp [Json.Finite, Json.All, Json.AllMembers, Json.AllItems]
  exact (parse_dump lawful_whole _ hs hf).1 (by decide)

/-- Values that are dumped one after the other, with blanks behind each, are all read back. -/
theorem parseMulti_dump (hC : Lawful C finite) (vs : List (Json δ × List Char))
    (h : ∀ x ∈ vs, x.1.Sorted ∧ x.1.Finite finite ∧ x.1.depth ≤ maxDepth ∧ Ws x.2 ∧ x.2 ≠ []) :
    ∃ us, parseMulti C (vs.flatMap fun x => x.1.dump C ++ x.2) [] = (us, []) ∧
      Json.equalsItems C us (vs.map Prod.fst) = true := by
  induction vs with
  | nil =>
    refine ⟨[], ?_, rfl⟩
    rw [List.flatMap_nil, parseMulti, if_pos rfl]
  | cons x vs ih =>
    obtain ⟨v, w⟩ := x
    obtain ⟨⟨hs, hf, hn, hw, hne⟩, hrest⟩ := List.forall_mem_cons.1 h
    obtain ⟨us, hus, heqs⟩ := ih hrest
    obtain ⟨v', ht, heq⟩ := denotes_dump hC v hs hf maxDepth hn
    obtain ⟨⟨c, t, hc, _, _⟩, hread⟩ := parse_complete hC.reads maxDepth _ _ ht
    have hblank : Follow (w ++ vs.flatMap fun x => x.1.dump C ++ x.2) := by
      intro d hd
      cases w with
      | nil => exact absurd rfl hne
      | cons a w =>
        cases hd
        exact .inl (hw d List.mem_cons_self)
    have hstart : consumeWhitespace (w ++ vs.flatMap fun x => x.1.dump C ++ x.2) =
        vs.flatMap fun x => x.1.dump C ++ x.2 := by
      rw [consumeWhitespace_append hw]
      cases vs with
      | nil => rfl
      | cons y vs =>
        obtain ⟨hs', hf', _⟩ := hrest y List.mem_cons_self
        obtain ⟨d, t', hd, hspace, _⟩ := head_dump hC hs' hf'
        rw [List.flatMap_cons, hd]
        exact consumeWhitespace_cons hspace
    have hr : Returns (parseJson C (maxDepth + 1)
        (v.dump C ++ (w ++ vs.flatMap fun x => x.1.dump C ++ x.2))) v' _ :=
      hread [] _ ws_nil hblank
    obtain ⟨_, hr⟩ := hr
    refine ⟨v' :: us, ?_, ?_⟩
    · rw [List.flatMap_cons, List.append_assoc, parseMulti, if_neg (by rw [hc]; simp), hr]
      dsimp only
      rw [hstart, hus]
    · rw [List.map_cons, Json.equalsItems, heq, heqs]
      rfl

end json11.Grammar
