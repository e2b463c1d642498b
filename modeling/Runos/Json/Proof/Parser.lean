import Runos.Json.Proof.Numbers

/-!
# What the parser accepts

`Json::parse` accepts a text with a value if and only if the grammar gives the text that value, with
arrays and objects nested at most `max_depth` deep (`parse_iff`).
-/

namespace json11.Grammar

variable {δ α : Type} {C : Double δ} {str rest : List Char}

/-! ## Results -/

def Returns (x : Result δ α str) (a : α) (rest : List Char) : Prop := ∃ h, x = .ok ⟨a, rest, h⟩

theorem Returns.bind {x : Result δ α str} {a : α} (h : Returns x a rest) :
    ∃ hlt, ∀ {β : Type} (f : Read α str → Except (Failure δ) β), (x >>= f) = f ⟨a, rest, hlt⟩ := by
  obtain ⟨hlt, rfl⟩ := h
  exact ⟨hlt, fun _ => rfl⟩

theorem Returns.orNul {x : Result δ α str} {a : α} (h : Returns x a rest) :
    Returns (orNul x) a rest := by
  obtain ⟨hlt, rfl⟩ := h
  exact ⟨hlt, rfl⟩

theorem of_ok {x : Except (Failure δ) (α × List Char)}
    {hx : ∀ a rest, x = .ok (a, rest) → rest.length < str.length} {r : Read α str}
    (h : Result.of x hx = .ok r) : x = .ok (r.value, r.rest) := by
  cases x with
  | error f => cases h
  | ok a => cases h; rfl

theorem returns_of {x : Except (Failure δ) (α × List Char)} {a : α}
    {hx : ∀ a rest, x = .ok (a, rest) → rest.length < str.length} (h : x = .ok (a, rest)) :
    Returns (Result.of x hx) a rest := by
  subst h
  exact ⟨hx a rest rfl, rfl⟩

/-! ## Tokens -/

theorem ws_nil : Ws [] := List.forall_mem_nil _

theorem ws_append {w w' : List Char} (h : Ws w) (h' : Ws w') : Ws (w ++ w') :=
  List.forall_mem_append.2 ⟨h, h'⟩

theorem consumeWhitespace_append {w : List Char} (h : Ws w) :
    consumeWhitespace (w ++ str) = consumeWhitespace str :=
  List.dropWhile_append_of_pos h

theorem consumeWhitespace_cons {c : Char} (h : isSpace c = false) :
    consumeWhitespace (c :: str) = c :: str :=
  List.dropWhile_cons_of_neg (Bool.eq_false_iff.1 h)

/-- The blanks that are skipped, and where it stops. -/
theorem exists_ws (str : List Char) :
    ∃ w, str = w ++ consumeWhitespace str ∧ Ws w ∧
      ∀ c ∈ (consumeWhitespace str).head?, isSpace c = false := by
  refine ⟨str.takeWhile isSpace, List.takeWhile_append_dropWhile.symm,
    fun c hc => List.mem_takeWhile_imp hc, fun c hc => ?_⟩
  have h := List.head?_dropWhile_not isSpace str
  rw [consumeWhitespace] at hc
  rw [hc] at h
  simpa using h

theorem getNextToken_sound {r : Read Char str} (h : getNextToken (δ := δ) str = .ok r) :
    ∃ w, str = w ++ r.value :: r.rest ∧ Ws w ∧ isSpace r.value = false := by
  obtain ⟨w, hw, hws, hhead⟩ := exists_ws str
  unfold getNextToken at h
  split at h
  · cases h
  · rename_i ch rest heq
    cases h
    rw [heq] at hw hhead
    exact ⟨w, hw, hws, hhead ch rfl⟩

theorem getNextToken_complete {w : List Char} {c : Char} (hw : Ws w) (hc : isSpace c = false) :
    Returns (getNextToken (δ := δ) (w ++ c :: rest)) c rest := by
  have heq : consumeWhitespace (w ++ c :: rest) = c :: rest := by
    rw [consumeWhitespace_append hw, consumeWhitespace_cons hc]
  unfold getNextToken
  split
  · rename_i h
    rw [heq] at h
    cases h
  · rename_i h
    rw [heq] at h
    cases h
    exact ⟨_, rfl⟩

theorem follow_token {w : List Char} {c : Char} (hw : Ws w) (hc : c ∈ [',', ']', '}']) :
    Follow (w ++ c :: rest) := by
  intro d hd
  cases w with
  | nil =>
    cases hd
    exact .inr hc
  | cons a w =>
    cases hd
    exact .inl (hw d List.mem_cons_self)

/-! ## Strings and literals -/

theorem readString_sound {r : Read (List Char) str} (h : readString (δ := δ) str = .ok r) :
    ∃ t, '"' :: str = t ++ r.rest ∧ Str t r.value := by
  obtain ⟨ps, t, hstr, hps, hs⟩ := parseString_sound (of_ok h)
  refine ⟨'"' :: (t ++ ['"']), ?_, hs ▸ .mk hps⟩
  simpa using hstr

theorem readString_complete {t s : List Char} (h : Str t s) :
    ∃ t', t = '"' :: t' ∧ ∀ rest, Returns (readString (δ := δ) (t' ++ rest)) s rest := by
  obtain ⟨hps⟩ := h
  refine ⟨_, rfl, fun rest => returns_of ?_⟩
  rw [List.append_assoc]
  exact parseString_complete hps

theorem expect_sound {expected : List Char} {res v : Json δ}
    (h : expect expected res str = .ok (v, rest)) : str = expected ++ rest ∧ v = res := by
  rw [expect] at h
  split at h
  · rename_i heq
    cases h
    refine ⟨?_, rfl⟩
    conv_lhs => rw [← List.take_append_drop expected.length str, ← heq]
  · cases h

theorem expect_complete {e : List Char} {res : Json δ} :
    expect e res (e ++ rest) = .ok (res, rest) := by
  rw [expect]
  simp

/-! ## Arrays and objects -/

section
variable {p : (str : List Char) → Result δ (Json δ) str} {R : List Char → Json δ → Prop}

/-- A parser of values reads what `R` gives a value, -/
def Sound (p : (str : List Char) → Result δ (Json δ) str) (R : List Char → Json δ → Prop) : Prop :=
  ∀ str r, p str = .ok r → Follow r.rest →
    ∃ w t, str = w ++ t ++ r.rest ∧ Ws w ∧ R t r.value

/-- and it reads all of that. -/
def Complete (p : (str : List Char) → Result δ (Json δ) str) (R : List Char → Json δ → Prop) :
    Prop :=
  ∀ t v, R t v → (∃ c t', t = c :: t' ∧ isSpace c = false ∧ c ≠ ']') ∧
    ∀ w rest, Ws w → Follow rest → Returns (p (w ++ t ++ rest)) v rest

theorem parseItems_sound (hp : Sound p R) (data : List (Json δ)) (str : List Char)
    {r : Read (List (Json δ)) str} (h : parseItems p data str = .ok r) :
    ∃ w t vs, str = w ++ t ++ ']' :: r.rest ∧ Ws w ∧ Separated R t vs ∧ r.value = data ++ vs := by
  rw [parseItems] at h
  obtain ⟨v, hv, h⟩ := Fallible.bind_ok h
  obtain ⟨ch, hch, h⟩ := Fallible.bind_ok h
  obtain ⟨w₁, hrest, hw₁, _⟩ := getNextToken_sound hch
  split at h
  · rename_i hend
    cases h
    rw [hend] at hrest
    obtain ⟨w, t, hstr, hw, ht⟩ := hp _ _ (Fallible.mapError_ok hv)
      (hrest ▸ follow_token hw₁ (by simp))
    refine ⟨w, t ++ w₁, [v.value], ?_, hw, .one ht hw₁, rfl⟩
    refine hstr.trans ((congrArg (w ++ t ++ ·) hrest).trans ?_)
    simp
  · split at h
    · cases h
    · rename_i hcomma
      obtain ⟨next, hnext, h⟩ := Fallible.bind_ok h
      obtain ⟨r', hr', h⟩ := Fallible.bind_ok h
      cases h
      rw [not_not.1 hcomma] at hrest
      obtain ⟨w, t, hstr, hw, ht⟩ := hp _ _ (Fallible.mapError_ok hv)
        (hrest ▸ follow_token hw₁ (by simp))
      obtain ⟨w₂, hrest₂, hw₂, _⟩ := getNextToken_sound hnext
      have hlt : (next.value :: next.rest).length < str.length :=
        Nat.lt_of_le_of_lt next.lt (ch.lt.trans v.lt)
      obtain ⟨w₃, text, vs, heq, hw₃, hvs, hval⟩ := parseItems_sound hp _ _ hr'
      refine ⟨w, t ++ w₁ ++ ',' :: (w₂ ++ w₃ ++ text), v.value :: vs, ?_, hw,
        .cons ht hw₁ (ws_append hw₂ hw₃) hvs, ?_⟩
      · refine hstr.trans ((congrArg (w ++ t ++ ·) hrest).trans ?_)
        have hrest' : ch.rest = w₂ ++ (w₃ ++ text ++ ']' :: r'.rest) := heq ▸ hrest₂
        simp [Read.from, hrest']
      · show r'.value = _
        rw [hval]
        simp
termination_by str.length

theorem head_of_separated (hp : Complete p R) {t : List Char} {vs : List (Json δ)}
    (h : Separated R t vs) : ∃ c t', t = c :: t' ∧ isSpace c = false ∧ c ≠ ']' := by
  cases h with
  | one ht _ =>
    obtain ⟨c, t', rfl, hc⟩ := (hp _ _ ht).1
    exact ⟨c, _, rfl, hc⟩
  | cons ht _ _ _ =>
    obtain ⟨c, t', rfl, hc⟩ := (hp _ _ ht).1
    exact ⟨c, _, rfl, hc⟩

theorem parseItems_complete (hp : Complete p R) {t : List Char} {vs : List (Json δ)}
    (h : Separated R t vs) (data : List (Json δ)) {w : List Char} (hw : Ws w) :
    Returns (parseItems p data (w ++ t ++ ']' :: rest)) (data ++ vs) rest := by
  induction h generalizing data w with
  | @one t w₁ v ht hw₁ =>
    have hv := (hp t v ht).2 w (w₁ ++ ']' :: rest) hw (follow_token hw₁ (by simp))
    have hstr : w ++ (t ++ w₁) ++ ']' :: rest = w ++ t ++ (w₁ ++ ']' :: rest) := by simp
    obtain ⟨_, hv⟩ := hv.orNul.bind
    obtain ⟨_, hend⟩ := (getNextToken_complete (δ := δ) (c := ']') hw₁ rfl).bind
    rw [hstr, parseItems, hv, hend, if_pos rfl]
    exact ⟨_, rfl⟩
  | @cons t w₁ w₂ text v vs ht hw₁ hw₂ htext ih =>
    have hv := (hp t v ht).2 w (w₁ ++ ',' :: (w₂ ++ text ++ ']' :: rest)) hw
      (follow_token hw₁ (by simp))
    have hstr : w ++ (t ++ w₁ ++ ',' :: (w₂ ++ text)) ++ ']' :: rest =
        w ++ t ++ (w₁ ++ ',' :: (w₂ ++ text ++ ']' :: rest)) := by simp
    obtain ⟨c, t', rfl, hc, _⟩ := head_of_separated hp htext
    obtain ⟨_, hv⟩ := hv.orNul.bind
    obtain ⟨_, hcomma⟩ := (getNextToken_complete (δ := δ) (c := ',') hw₁ rfl).bind
    have hnext : Returns (getNextToken (δ := δ) (w₂ ++ c :: t' ++ ']' :: rest)) c
        (t' ++ ']' :: rest) := by
      rw [List.append_assoc]
      exact getNextToken_complete hw₂ hc
    obtain ⟨_, hnext⟩ := hnext.bind
    have hr : Returns (parseItems p (data ++ [v]) (c :: (t' ++ ']' :: rest))) (data ++ [v] ++ vs)
      rest := ih (data ++ [v]) ws_nil
    obtain ⟨_, hr⟩ := hr.bind
    rw [hstr, parseItems, hv, hcomma]
    dsimp only
    rw [if_neg (by decide), if_neg (by decide), hnext, hr,
      List.append_cons data v vs]
    exact ⟨_, rfl⟩

theorem parseMembers_sound (hp : Sound p R) (data : List (List Char × Json δ)) (ch : Char)
    (str : List Char) {r : Read (List (List Char × Json δ)) str}
    (h : parseMembers p data ch str = .ok r) :
    ∃ t ms, ch :: str = t ++ '}' :: r.rest ∧ Separated (Member R) t ms ∧
      r.value = ms.foldl (fun m kx => SortedMap.insert kx.1 kx.2 m) data := by
  rw [parseMembers] at h
  split at h
  · cases h
  · rename_i hquote
    obtain ⟨key, hkey, h⟩ := Fallible.bind_ok h
    obtain ⟨colon, hcolon, h⟩ := Fallible.bind_ok h
    obtain ⟨w₁, hrest₁, hw₁, _⟩ := getNextToken_sound hcolon
    obtain ⟨s, hs, hstr⟩ := readString_sound (Fallible.mapError_ok hkey)
    split at h
    · cases h
    · rename_i hc
      obtain ⟨v, hv, h⟩ := Fallible.bind_ok h
      obtain ⟨c, hcomma, h⟩ := Fallible.bind_ok h
      obtain ⟨w₃, hrest₃, hw₃, _⟩ := getNextToken_sound hcomma
      have hlt : c.rest.length < str.length := c.lt.trans (v.lt.trans (colon.lt.trans key.lt))
      rw [not_not.1 hc] at hrest₁
      have hmember : c.value ∈ [',', ']', '}'] → ∃ w₂ t,
          ch :: str = s ++ w₁ ++ ':' :: (w₂ ++ t) ++ w₃ ++ c.value :: c.rest ∧
          Member R (s ++ w₁ ++ ':' :: (w₂ ++ t)) (key.value, v.value) := by
        intro hmem
        obtain ⟨w₂, t, hrest₂, hw₂, ht⟩ := hp _ _ (Fallible.mapError_ok hv)
          (hrest₃ ▸ follow_token hw₃ hmem)
        refine ⟨w₂, t, ?_, .mk hstr hw₁ hw₂ ht⟩
        have hrest' : key.rest = w₁ ++ ':' :: (w₂ ++ t ++ (w₃ ++ c.value :: c.rest)) :=
          hrest₁.trans (congrArg (w₁ ++ ':' :: ·)
            (hrest₂.trans (congrArg (w₂ ++ t ++ ·) hrest₃)))
        rw [not_not.1 hquote, hs]
        refine (congrArg (s ++ ·) hrest').trans ?_
        simp
      split at h
      · rename_i hend
        cases h
        obtain ⟨w₂, t, heq, hm⟩ := hmember (by simp [hend])
        exact ⟨_, _, hend ▸ heq, .one hm hw₃, rfl⟩
      · split at h
        · cases h
        · rename_i hc'
          obtain ⟨next, hnext, h⟩ := Fallible.bind_ok h
          obtain ⟨r', hr', h⟩ := Fallible.bind_ok h
          cases h
          rw [not_not.1 hc'] at hmember
          obtain ⟨w₂, t, heq, hm⟩ := hmember (by simp)
          obtain ⟨w₄, hrest₄, hw₄, _⟩ := getNextToken_sound hnext
          have hlt' : next.rest.length < str.length := next.lt.trans hlt
          obtain ⟨text, ms, heq', hms, hval⟩ := parseMembers_sound hp _ _ _ hr'
          refine ⟨_, _, ?_, .cons hm hw₃ hw₄ hms, hval⟩
          have hrest' : c.rest = w₄ ++ (text ++ '}' :: r'.rest) := heq' ▸ hrest₄
          refine heq.trans ?_
          simp [Read.from, hrest']
termination_by str.length

/-- The start of a round, up to the token behind the value of the member. -/
theorem parseMembers_member (hp : Complete p R) {t : List Char} {m : List Char × Json δ}
    (h : Member R t m) (data : List (List Char × Json δ)) {w : List Char} {c : Char} (hw : Ws w)
    (hc : c ∈ [',', '}']) (rest : List Char) :
    ∃ t', t = '"' :: t' ∧ ∃ hlt : rest.length < (t' ++ w ++ c :: rest).length,
      parseMembers p data '"' (t' ++ w ++ c :: rest) =
        if c = '}' then .ok ⟨SortedMap.insert m.1 m.2 data, rest, hlt⟩
        else if c ≠ ',' then
          fail ("expected ',' in object, got ".toList ++ esc c) rest
        else getNextToken rest >>= fun next =>
          parseMembers p (SortedMap.insert m.1 m.2 data) next.value next.rest >>= fun r =>
            .ok (r.from (Nat.le_of_lt (next.lt.trans hlt))) := by
  obtain ⟨hk, hw₁, hw₂, ht⟩ := h
  obtain ⟨s', rfl, hread⟩ := readString_complete (δ := δ) hk
  rename_i k w₁ w₂ t v
  have hspace : isSpace c = false := by
    simp only [List.mem_cons, List.not_mem_nil, or_false] at hc
    rcases hc with rfl | rfl <;> rfl
  have hfollow : c ∈ [',', ']', '}'] := by
    simp only [List.mem_cons, List.not_mem_nil, or_false] at hc ⊢
    exact hc.imp id .inr
  have hstr : s' ++ w₁ ++ ':' :: (w₂ ++ t) ++ w ++ c :: rest =
      s' ++ (w₁ ++ ':' :: (w₂ ++ t ++ (w ++ c :: rest))) := by simp
  refine ⟨s' ++ w₁ ++ ':' :: (w₂ ++ t), rfl, ?_⟩
  rw [hstr]
  obtain ⟨_, hkey⟩ := (hread (w₁ ++ ':' :: (w₂ ++ t ++ (w ++ c :: rest)))).orNul.bind
  obtain ⟨_, hcolon⟩ := (getNextToken_complete (δ := δ) (c := ':') hw₁ rfl).bind
  obtain ⟨_, hv⟩ := ((hp t v ht).2 w₂ (w ++ c :: rest) hw₂ (follow_token hw hfollow)).orNul.bind
  obtain ⟨_, htoken⟩ := (getNextToken_complete (δ := δ) hw hspace).bind
  refine ⟨?_, ?_⟩
  · simp only [List.length_append, List.length_cons]
    omega
  · rw [parseMembers, if_neg (by decide), hkey, hcolon]
    dsimp only
    rw [if_neg (by decide), hv, htoken]

theorem parseMembers_complete (hp : Complete p R) {t : List Char} {ms : List (List Char × Json δ)}
    (h : Separated (Member R) t ms) (data : List (List Char × Json δ)) :
    ∃ t', t = '"' :: t' ∧ Returns (parseMembers p data '"' (t' ++ '}' :: rest))
      (ms.foldl (fun m kx => SortedMap.insert kx.1 kx.2 m) data) rest := by
  induction h generalizing data with
  | @one t w m hm hw =>
    obtain ⟨t', rfl, hlt, heq⟩ := parseMembers_member hp hm data hw (c := '}') (by simp) rest
    refine ⟨t' ++ w, rfl, ?_⟩
    rw [heq, if_pos rfl]
    exact ⟨hlt, rfl⟩
  | @cons t w w' text m ms hm hw hw' _ ih =>
    obtain ⟨u, rfl, hr⟩ := ih (SortedMap.insert m.1 m.2 data)
    obtain ⟨t', rfl, hlt, heq⟩ := parseMembers_member hp hm data hw (c := ',') (by simp)
      (w' ++ '"' :: (u ++ '}' :: rest))
    have hstr : t' ++ w ++ ',' :: (w' ++ '"' :: u) ++ '}' :: rest =
        t' ++ w ++ ',' :: (w' ++ '"' :: (u ++ '}' :: rest)) := by simp
    refine ⟨t' ++ w ++ ',' :: (w' ++ '"' :: u), rfl, ?_⟩
    obtain ⟨_, hnext⟩ := (getNextToken_complete (δ := δ) (c := '"') hw'
      rfl).bind
    obtain ⟨_, hr⟩ := hr.bind
    rw [hstr, heq, if_neg (by decide), if_neg (by decide), hnext]
    dsimp only
    rw [hr]
    exact ⟨_, rfl⟩

end

/-! ## Values -/

section
variable {R : List Char → Json δ → Prop} {n : Nat}

theorem parseJson_sound (hC : Reads C) (hp : Sound (parseJson C n) R) :
    Sound (parseJson C (n + 1)) (Value C R) := by
  intro str r h hfollow
  rw [parseJson] at h
  obtain ⟨ch, hch, h⟩ := Fallible.bind_ok h
  obtain ⟨w, hstr, hw, _⟩ := getNextToken_sound hch
  have hread : ∀ {t : List Char}, ch.value :: ch.rest = t ++ r.rest → Value C R t r.value →
      ∃ w t, str = w ++ t ++ r.rest ∧ Ws w ∧ Value C R t r.value := fun heq ht =>
    ⟨w, _, hstr.trans ((congrArg (w ++ ·) heq).trans (List.append_assoc _ _ _).symm), hw, ht⟩
  have hliteral : ∀ {expected : List Char} {res : Json δ}, Value C R expected res →
      expect expected res (ch.value :: ch.rest) = .ok (r.value, r.rest) →
      ∃ w t, str = w ++ t ++ r.rest ∧ Ws w ∧ Value C R t r.value := by
    intro expected res hval he
    obtain ⟨heq, hres⟩ := expect_sound he
    exact hread heq (hres ▸ hval)
  dsimp only at h
  split at h
  · obtain ⟨t, heq, ht⟩ := parseNumber_sound hC (R := R) (of_ok h) hfollow
    exact hread heq ht
  split at h
  · exact hliteral .true (of_ok h)
  split at h
  · exact hliteral .false (of_ok h)
  split at h
  · exact hliteral .nul (of_ok h)
  split at h
  · rename_i hc
    obtain ⟨s, hs, h⟩ := Fallible.bind_ok h
    cases h
    obtain ⟨t, heq, ht⟩ := readString_sound hs
    exact hread (hc ▸ heq) (.string ht)
  split at h
  · rename_i hc
    obtain ⟨next, hnext, h⟩ := Fallible.bind_ok h
    obtain ⟨w₁, hrest, hw₁, _⟩ := getNextToken_sound hnext
    split at h
    · rename_i hend
      cases h
      refine hread (t := '{' :: (w₁ ++ ['}'])) ?_ (.emptyObject hw₁)
      rw [hc]
      simp [hrest, hend]
    · obtain ⟨r', hr', h⟩ := Fallible.bind_ok h
      cases h
      obtain ⟨t, ms, heq, hms, hval⟩ := parseMembers_sound hp _ _ _ hr'
      have hobj := Value.object (C := C) hw₁ hms
      rw [SortedMap.ofList, ← hval] at hobj
      refine hread ?_ hobj
      rw [hc]
      simp [hrest, heq]
  split at h
  · rename_i hc
    obtain ⟨next, hnext, h⟩ := Fallible.bind_ok h
    obtain ⟨w₁, hrest, hw₁, _⟩ := getNextToken_sound hnext
    split at h
    · rename_i hend
      cases h
      refine hread (t := '[' :: (w₁ ++ [']'])) ?_ (.emptyArray hw₁)
      rw [hc]
      simp [hrest, hend]
    · obtain ⟨r', hr', h⟩ := Fallible.bind_ok h
      cases h
      obtain ⟨w₂, t, vs, heq, hw₂, hvs, hval⟩ := parseItems_sound hp _ _ hr'
      have harr := Value.array (C := C) (ws_append hw₁ hw₂) hvs
      rw [← List.nil_append vs, ← hval] at harr
      refine hread ?_ harr
      rw [hc]
      simp [hrest, heq]
  · cases h

/-- The first byte of a number. -/
theorem head_of_number {b : Bool} {i : List Char} (hi : Integer i) (t : List Char) :
    ∃ c t', minus b ++ i ++ t = c :: t' ∧ isSpace c = false ∧
      (c = '-' ∨ inRange c '0' '9' = true) := by
  have hd := peek_integer hi
  cases b with
  | true => exact ⟨'-', i ++ t, rfl, rfl, .inl rfl⟩
  | false =>
    cases i with
    | nil => cases hd
    | cons c i =>
      rw [peek_cons] at hd
      refine ⟨c, i ++ t, rfl, ?_, .inr hd⟩
      cases hs : isSpace c with
      | false => rfl
      | true =>
        simp only [isSpace, Bool.or_eq_true, beq_iff_eq] at hs
        rcases hs with ((rfl | rfl) | rfl) | rfl <;> cases hd

theorem parseJson_number {t : List Char} {v : Json δ}
    (hhead : ∃ c t', t = c :: t' ∧ isSpace c = false ∧ (c = '-' ∨ inRange c '0' '9' = true))
    (h : ∀ rest, Follow rest → parseNumber C (t ++ rest) = .ok (v, rest)) :
    (∃ c t', t = c :: t' ∧ isSpace c = false ∧ c ≠ ']') ∧ ∀ w rest, Ws w → Follow rest →
      Returns (parseJson C (n + 1) (w ++ t ++ rest)) v rest := by
  obtain ⟨c, t, rfl, hspace, hc⟩ := hhead
  have hne : c ≠ ']' := by
    rintro rfl
    exact absurd hc (by decide)
  refine ⟨⟨c, t, rfl, hspace, hne⟩, fun w rest hw hrest => ?_⟩
  obtain ⟨_, hch⟩ := (getNextToken_complete (δ := δ) hw hspace).bind
  rw [List.append_assoc, List.cons_append, parseJson, hch]
  dsimp only
  rw [if_pos hc]
  exact returns_of (h rest hrest)

theorem parseJson_complete (hC : Reads C) (hp : Complete (parseJson C n) R) :
    Complete (parseJson C (n + 1)) (Value C R) := by
  intro t v h
  have htoken : ∀ {str w rest : List Char} (c : Char), str = w ++ c :: rest → Ws w →
      isSpace c = false → Returns (getNextToken (δ := δ) str) c rest := by
    rintro str w rest c rfl hw hc
    exact getNextToken_complete hw hc
  cases h with
  | @int b i hi hlen =>
    refine parseJson_number ?_ fun rest hrest => parseNumber_complete_int hi hlen hrest
    have h := head_of_number (b := b) hi []
    rwa [List.append_nil] at h
  | @double b i f e hi hf he hlong =>
    refine parseJson_number ?_ fun rest hrest => parseNumber_complete_double hC hi hf he hlong hrest
    have h := head_of_number (b := b) hi (f ++ e)
    rwa [← List.append_assoc] at h
  | nul =>
    refine ⟨⟨_, _, rfl, rfl, by decide⟩, fun w rest hw hrest => ?_⟩
    have hstr : w ++ ['n', 'u', 'l', 'l'] ++ rest = w ++ 'n' :: (['u', 'l', 'l'] ++ rest) := by simp
    obtain ⟨_, hch⟩ := (htoken 'n' hstr hw rfl).bind
    rw [parseJson, hch]
    dsimp only
    rw [if_neg (by decide), if_neg (by decide), if_neg (by decide), if_pos rfl]
    exact returns_of (expect_complete (e := ['n', 'u', 'l', 'l']))
  | true =>
    refine ⟨⟨_, _, rfl, rfl, by decide⟩, fun w rest hw hrest => ?_⟩
    have hstr : w ++ ['t', 'r', 'u', 'e'] ++ rest = w ++ 't' :: (['r', 'u', 'e'] ++ rest) := by simp
    obtain ⟨_, hch⟩ := (htoken 't' hstr hw rfl).bind
    rw [parseJson, hch]
    dsimp only
    rw [if_neg (by decide), if_pos rfl]
    exact returns_of (expect_complete (e := ['t', 'r', 'u', 'e']))
  | false =>
    refine ⟨⟨_, _, rfl, rfl, by decide⟩, fun w rest hw hrest => ?_⟩
    have hstr : w ++ ['f', 'a', 'l', 's', 'e'] ++ rest =
        w ++ 'f' :: (['a', 'l', 's', 'e'] ++ rest) := by simp
    obtain ⟨_, hch⟩ := (htoken 'f' hstr hw rfl).bind
    rw [parseJson, hch]
    dsimp only
    rw [if_neg (by decide), if_neg (by decide), if_pos rfl]
    exact returns_of (expect_complete (e := ['f', 'a', 'l', 's', 'e']))
  | string hs =>
    obtain ⟨t', rfl, hread⟩ := readString_complete (δ := δ) hs
    refine ⟨⟨_, _, rfl, rfl, by decide⟩, fun w rest hw hrest => ?_⟩
    have hstr : w ++ '"' :: t' ++ rest = w ++ '"' :: (t' ++ rest) := by simp
    obtain ⟨_, hch⟩ := (htoken '"' hstr hw rfl).bind
    obtain ⟨_, hs⟩ := (hread rest).bind
    rw [parseJson, hch]
    dsimp only
    rw [if_neg (by decide), if_neg (by decide), if_neg (by decide), if_neg (by decide), if_pos rfl,
      hs]
    exact ⟨_, rfl⟩
  | @emptyArray w₁ hw₁ =>
    refine ⟨⟨_, _, rfl, rfl, by decide⟩, fun w rest hw hrest => ?_⟩
    have hstr : w ++ '[' :: (w₁ ++ [']']) ++ rest = w ++ '[' :: (w₁ ++ ']' :: rest) := by simp
    obtain ⟨_, hch⟩ := (htoken '[' hstr hw rfl).bind
    obtain ⟨_, hend⟩ := (getNextToken_complete (δ := δ) (c := ']') hw₁ rfl).bind
    rw [parseJson, hch]
    dsimp only
    rw [if_neg (by decide), if_neg (by decide), if_neg (by decide), if_neg (by decide),
      if_neg (by decide), if_neg (by decide), if_pos rfl, hend]
    exact ⟨_, rfl⟩
  | @emptyObject w₁ hw₁ =>
    refine ⟨⟨_, _, rfl, rfl, by decide⟩, fun w rest hw hrest => ?_⟩
    have hstr : w ++ '{' :: (w₁ ++ ['}']) ++ rest = w ++ '{' :: (w₁ ++ '}' :: rest) := by simp
    obtain ⟨_, hch⟩ := (htoken '{' hstr hw rfl).bind
    obtain ⟨_, hend⟩ := (getNextToken_complete (δ := δ) (c := '}') hw₁ rfl).bind
    rw [parseJson, hch]
    dsimp only
    rw [if_neg (by decide), if_neg (by decide), if_neg (by decide), if_neg (by decide),
      if_neg (by decide), if_pos rfl, hend]
    exact ⟨_, rfl⟩
  | @array w₁ t vs hw₁ ht =>
    refine ⟨⟨_, _, rfl, rfl, by decide⟩, fun w rest hw hrest => ?_⟩
    obtain ⟨c, t', rfl, hc, hne⟩ := head_of_separated hp ht
    have hstr : w ++ '[' :: (w₁ ++ c :: t' ++ [']']) ++ rest =
        w ++ '[' :: (w₁ ++ c :: (t' ++ ']' :: rest)) := by simp
    obtain ⟨_, hch⟩ := (htoken '[' hstr hw rfl).bind
    obtain ⟨_, hnext⟩ := (getNextToken_complete (δ := δ) hw₁ hc).bind
    have hr : Returns (parseItems (parseJson C n) [] (c :: (t' ++ ']' :: rest))) vs rest :=
      parseItems_complete hp ht [] ws_nil
    obtain ⟨_, hr⟩ := hr.bind
    rw [parseJson, hch]
    dsimp only
    rw [if_neg (by decide), if_neg (by decide), if_neg (by decide), if_neg (by decide),
      if_neg (by decide), if_neg (by decide), if_pos rfl, hnext]
    dsimp only
    rw [if_neg hne, hr]
    exact ⟨_, rfl⟩
  | @object w₁ t ms hw₁ ht =>
    refine ⟨⟨_, _, rfl, rfl, by decide⟩, fun w rest hw hrest => ?_⟩
    obtain ⟨t', rfl, hr⟩ := parseMembers_complete hp ht []
    have hstr : w ++ '{' :: (w₁ ++ '"' :: t' ++ ['}']) ++ rest =
        w ++ '{' :: (w₁ ++ '"' :: (t' ++ '}' :: rest)) := by simp
    obtain ⟨_, hch⟩ := (htoken '{' hstr hw rfl).bind
    obtain ⟨_, hnext⟩ := (getNextToken_complete (δ := δ) (c := '"') hw₁
      rfl).bind
    obtain ⟨_, hr⟩ := hr.bind
    rw [parseJson, hch]
    dsimp only
    rw [if_neg (by decide), if_neg (by decide), if_neg (by decide), if_neg (by decide),
      if_neg (by decide), if_pos rfl, hnext]
    dsimp only
    rw [if_neg (by decide), hr]
    exact ⟨_, rfl⟩

theorem parse_sound (hC : Reads C) : ∀ depth, Sound (parseJson C (depth + 1)) (Denotes C depth)
  | 0 => parseJson_sound hC fun _ _ h => by cases h
  | depth + 1 => parseJson_sound hC (parse_sound hC depth)

theorem parse_complete (hC : Reads C) :
    ∀ depth, Complete (parseJson C (depth + 1)) (Denotes C depth)
  | 0 => parseJson_complete hC fun _ _ h => h.elim
  | depth + 1 => parseJson_complete hC (parse_complete hC depth)

end

end json11.Grammar
