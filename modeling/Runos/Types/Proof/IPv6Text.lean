import Runos.Lib.Separated
import Runos.Types.IPv6Addr

/-!
# What an IPv6 text denotes

A text of an address is written in full, or abbreviated, with groups before and after `::` (`Form`).
The first expression accepts exactly these texts (`validation_iff`). The second one wants exactly
seven colons; inserting colons into an abbreviated text makes it one, with empty groups for those left
out (`expand`), unless seven groups stand before or after `::`, which has eight colons already. So
`parseIPv6` returns the number of the text exactly for the others (`parseIPv6_iff`).
-/

namespace IPv6Addr

open Separated Numeral Regex

/-! ## Forms -/

/-- One to four hexadecimal digits. -/
structure Group where
  digits : List Char
  length : 1 ≤ digits.length ∧ digits.length ≤ 4
  hex : ∀ c ∈ digits, c.isHexDigit = true

/-- A text of an address. -/
inductive Form
  | full (groups : List Group) (h : groups.length = 8)
  | abbreviated (before after : List Group) (h : before.length + after.length ≤ 7)

/-- The groups with colons between them. -/
def joined (groups : List Group) : List Char := join ':' (groups.map Group.digits)

namespace Form

def text : Form → List Char
  | full groups _ => joined groups
  | abbreviated before after _ => joined before ++ [':', ':'] ++ joined after

/-- The eight numbers that the text stands for. -/
def hextets : Form → List Nat
  | full groups _ => groups.map (value 16 ·.digits)
  | abbreviated before after _ => before.map (value 16 ·.digits) ++
      List.replicate (8 - before.length - after.length) 0 ++ after.map (value 16 ·.digits)

/-- Seven groups, and `::` in front of them or behind them. -/
def SevenAtEnd : Form → Prop
  | full _ _ => False
  | abbreviated before after _ => before.length = 7 ∨ after.length = 7

end Form

/-- The number with these groups of 16 bits, the most significant one first. -/
def ofHextets (hextets : List Nat) : Nat := hextets.foldl (fun n h => 2 ^ 16 * n + h) 0

/-- A pair of halves as one number. -/
def number (num : UInt64 × UInt64) : Nat := 2 ^ 64 * num.1.toNat + num.2.toNat

/-! ## Groups -/

theorem isHexDigit_colon : Char.isHexDigit ':' = false := by decide

theorem Group.colon_notMem (g : Group) : ':' ∉ g.digits := by
  intro h
  have := g.hex ':' h
  rw [isHexDigit_colon] at this
  cases this

theorem colon_notMem_map (groups : List Group) : ∀ x ∈ groups.map Group.digits, ':' ∉ x := by
  intro x hx
  obtain ⟨g, -, rfl⟩ := List.mem_map.1 hx
  exact g.colon_notMem

theorem matches_xdigits {text : List Char} :
    (xdigits 1 4).Matches text ↔ ∃ g : Group, g.digits = text := by
  rw [matches_rep_sat]
  constructor
  · rintro ⟨hlen, hhex⟩
    exact ⟨⟨text, hlen, hhex⟩, rfl⟩
  · rintro ⟨g, rfl⟩
    exact ⟨g.length, g.hex⟩

theorem matches_colon {text : List Char} : colon.Matches text ↔ text = [':'] := by
  rw [matches_sat]
  constructor
  · rintro ⟨c, rfl, hc⟩
    rw [eq_of_beq hc]
  · rintro rfl
    exact ⟨':', rfl, rfl⟩

/-- Repeated parts that hold a group each. -/
theorem matches_times {r : Regex Char} (wrap : List Char → List Char) {lo hi : Nat}
    (hr : ∀ {text}, r.Matches text ↔ ∃ g : Group, wrap g.digits = text) (hle : lo ≤ hi)
    {text : List Char} : (times r lo hi).Matches text ↔ ∃ groups : List Group,
      (lo ≤ groups.length ∧ groups.length ≤ hi) ∧
        text = ((groups.map Group.digits).map wrap).flatten := by
  rw [matches_rep, Nat.add_sub_cancel' hle]
  constructor
  · rintro ⟨parts, hlen, rfl, hparts⟩
    obtain ⟨groups, rfl⟩ : ∃ groups : List Group, (groups.map Group.digits).map wrap = parts := by
      clear hlen
      induction parts with
      | nil => exact ⟨[], rfl⟩
      | cons part parts ih =>
        obtain ⟨g, rfl⟩ := hr.1 (hparts part List.mem_cons_self)
        obtain ⟨groups, rfl⟩ := ih fun p hp => hparts p (List.mem_cons_of_mem _ hp)
        exact ⟨g :: groups, rfl⟩
    rw [List.length_map, List.length_map] at hlen
    exact ⟨groups, hlen, rfl⟩
  · rintro ⟨groups, hlen, rfl⟩
    refine ⟨_, by rwa [List.length_map, List.length_map], rfl, fun part hpart => ?_⟩
    obtain ⟨digits, hdigits, rfl⟩ := List.mem_map.1 hpart
    obtain ⟨g, -, rfl⟩ := List.mem_map.1 hdigits
    exact hr.2 ⟨g, rfl⟩

theorem matches_group_colon {text : List Char} :
    (Regex.seq (xdigits 1 4) colon).Matches text ↔ ∃ g : Group, g.digits ++ [':'] = text := by
  rw [matches_seq]
  constructor
  · rintro ⟨x, y, rfl, hx, hy⟩
    obtain ⟨g, rfl⟩ := matches_xdigits.1 hx
    exact ⟨g, by rw [matches_colon.1 hy]⟩
  · rintro ⟨g, rfl⟩
    exact ⟨_, _, rfl, matches_xdigits.2 ⟨g, rfl⟩, matches_colon.2 rfl⟩

theorem matches_colon_group {text : List Char} :
    (Regex.seq colon (xdigits 1 4)).Matches text ↔ ∃ g : Group, ':' :: g.digits = text := by
  rw [matches_seq]
  constructor
  · rintro ⟨x, y, rfl, hx, hy⟩
    obtain ⟨g, rfl⟩ := matches_xdigits.1 hy
    exact ⟨g, by rw [matches_colon.1 hx]; rfl⟩
  · rintro ⟨g, rfl⟩
    exact ⟨[':'], g.digits, rfl, matches_colon.2 rfl, matches_xdigits.2 ⟨g, rfl⟩⟩

/-- Groups, at least one, each with a colon behind it. -/
theorem matches_front {lo hi : Nat} (hlo : 1 ≤ lo) (hle : lo ≤ hi) {text : List Char} :
    (times (.seq (xdigits 1 4) colon) lo hi).Matches text ↔ ∃ groups : List Group,
      (lo ≤ groups.length ∧ groups.length ≤ hi) ∧ text = joined groups ++ [':'] := by
  rw [matches_times (· ++ [':']) matches_group_colon hle]
  refine exists_congr fun groups => and_congr_right fun hlen => ?_
  rw [trailing_eq (List.ne_nil_of_length_pos (by rw [List.length_map]; omega))]
  rfl

/-- Groups, at least one, each with a colon in front of it. -/
theorem matches_back {hi : Nat} (hle : 1 ≤ hi) {text : List Char} :
    (times (.seq colon (xdigits 1 4)) 1 hi).Matches text ↔ ∃ groups : List Group,
      (1 ≤ groups.length ∧ groups.length ≤ hi) ∧ text = ':' :: joined groups := by
  rw [matches_times (':' :: ·) matches_colon_group hle]
  refine exists_congr fun groups => and_congr_right fun hlen => ?_
  rw [leading_eq (List.ne_nil_of_length_pos (by rw [List.length_map]; omega))]
  rfl

/-! ## The first expression -/

/-- An abbreviated text with so many groups before and after `::`. -/
def Abbreviates (lo hi lo' hi' : Nat) (text : List Char) : Prop :=
  ∃ before after : List Group, (lo ≤ before.length ∧ before.length ≤ hi) ∧
    (lo' ≤ after.length ∧ after.length ≤ hi') ∧ text = joined before ++ [':', ':'] ++ joined after

theorem joined_singleton (g : Group) : joined [g] = g.digits := List.intercalate_singleton

theorem joined_append {l m : List Group} (hl : l ≠ []) (hm : m ≠ []) :
    joined (l ++ m) = joined l ++ ':' :: joined m := by
  rw [joined, List.map_append, join_append (by simpa using hl) (by simpa using hm)]
  rfl

theorem matches_full {text : List Char} :
    (Regex.seq (times (.seq (xdigits 1 4) colon) 7 7) (xdigits 1 4)).Matches text ↔
      ∃ groups : List Group, groups.length = 8 ∧ text = joined groups := by
  simp only [matches_seq, matches_front (show 1 ≤ 7 by decide) (Nat.le_refl 7), matches_xdigits]
  constructor
  · rintro ⟨_, _, rfl, ⟨groups, hlen, rfl⟩, g, rfl⟩
    have hne : groups ≠ [] := List.ne_nil_of_length_pos (by omega)
    refine ⟨groups ++ [g], by rw [List.length_append, List.length_singleton]; omega, ?_⟩
    rw [joined_append hne (List.cons_ne_nil g []), joined_singleton, List.append_assoc]
    rfl
  · rintro ⟨groups, hlen, rfl⟩
    obtain ⟨front, g, rfl⟩ : ∃ front g, groups = front ++ [g] :=
      ⟨_, _, (List.dropLast_append_getLast (List.ne_nil_of_length_eq_add_one hlen)).symm⟩
    rw [List.length_append, List.length_singleton] at hlen
    have hne : front ≠ [] := List.ne_nil_of_length_pos (by omega)
    refine ⟨_, _, ?_, ⟨front, by omega, rfl⟩, g, rfl⟩
    rw [joined_append hne (List.cons_ne_nil g []), joined_singleton, List.append_assoc]
    rfl

/-- Groups before `::`, and a pattern for what follows the first colon of it. -/
theorem matches_front_seq {q : Regex Char} {hi lo' hi' : Nat} (hhi : 1 ≤ hi)
    (hq : ∀ {text}, q.Matches text ↔ ∃ after : List Group,
      (lo' ≤ after.length ∧ after.length ≤ hi') ∧ text = ':' :: joined after)
    {text : List Char} : (Regex.seq (times (.seq (xdigits 1 4) colon) 1 hi) q).Matches text ↔
      Abbreviates 1 hi lo' hi' text := by
  simp only [matches_seq, matches_front (Nat.le_refl 1) hhi, hq]
  constructor
  · rintro ⟨_, _, rfl, ⟨before, hb, rfl⟩, after, ha, rfl⟩
    exact ⟨before, after, hb, ha, by simp⟩
  · rintro ⟨before, after, hb, ha, rfl⟩
    exact ⟨joined before ++ [':'], ':' :: joined after, by simp, ⟨before, hb, rfl⟩, after, ha, rfl⟩

theorem matches_colon_none {text : List Char} : colon.Matches text ↔ ∃ after : List Group,
    (0 ≤ after.length ∧ after.length ≤ 0) ∧ text = ':' :: joined after := by
  rw [matches_colon]
  constructor
  · rintro rfl
    exact ⟨[], by simp, rfl⟩
  · rintro ⟨after, hlen, rfl⟩
    obtain rfl : after = [] := List.length_eq_zero_iff.1 (by omega)
    rfl

theorem matches_colon_one {text : List Char} : (Regex.seq colon (xdigits 1 4)).Matches text ↔
    ∃ after : List Group, (1 ≤ after.length ∧ after.length ≤ 1) ∧ text = ':' :: joined after := by
  rw [matches_colon_group]
  constructor
  · rintro ⟨g, rfl⟩
    exact ⟨[g], by simp, by rw [joined_singleton]⟩
  · rintro ⟨after, hlen, rfl⟩
    obtain ⟨g, rfl⟩ := List.length_eq_one_iff.1 (show after.length = 1 by omega)
    exact ⟨g, by rw [joined_singleton]⟩

theorem matches_both {front back : Nat} (hf : 1 ≤ front) (hb : 1 ≤ back) {text : List Char} :
    (both front back).Matches text ↔ Abbreviates 1 front 1 back text :=
  matches_front_seq hf (matches_back hb)

theorem matches_one_back {text : List Char} : (Regex.seq (.seq (xdigits 1 4) colon)
    (times (.seq colon (xdigits 1 4)) 1 6)).Matches text ↔ Abbreviates 1 1 1 6 text := by
  rw [matches_seq]
  simp only [matches_group_colon, matches_back (show 1 ≤ 6 by decide)]
  constructor
  · rintro ⟨_, _, rfl, ⟨g, rfl⟩, after, ha, rfl⟩
    exact ⟨[g], after, by simp, ha, by rw [joined_singleton]; simp⟩
  · rintro ⟨before, after, hb, ha, rfl⟩
    obtain ⟨g, rfl⟩ := List.length_eq_one_iff.1 (show before.length = 1 by omega)
    exact ⟨g.digits ++ [':'], ':' :: joined after, by rw [joined_singleton]; simp, ⟨g, rfl⟩, after,
      ha, rfl⟩

theorem matches_no_front {text : List Char} : (Regex.seq colon
    (.alt (times (.seq colon (xdigits 1 4)) 1 7) colon)).Matches text ↔
      Abbreviates 0 0 0 7 text := by
  simp only [matches_seq, matches_alt, matches_colon, matches_back (show 1 ≤ 7 by decide)]
  constructor
  · rintro ⟨_, _, rfl, rfl, ⟨after, ha, rfl⟩ | rfl⟩
    · exact ⟨[], after, by simp, by omega, rfl⟩
    · exact ⟨[], [], by simp, by simp, rfl⟩
  · rintro ⟨before, after, hb, ha, rfl⟩
    obtain rfl : before = [] := List.length_eq_zero_iff.1 (by omega)
    refine ⟨[':'], ':' :: joined after, rfl, rfl, ?_⟩
    by_cases h : after = []
    · exact .inr (by rw [h]; rfl)
    · exact .inl ⟨after, ⟨List.length_pos_iff.2 h, ha.2⟩, rfl⟩

/-- **The first expression accepts the texts of addresses**, and nothing else. -/
theorem validation_iff {text : List Char} :
    (validation.fullMatch text).isSome = true ↔ ∃ f : Form, f.text = text := by
  have hform : (∃ f : Form, f.text = text) ↔
      (∃ groups : List Group, groups.length = 8 ∧ text = joined groups) ∨
      ∃ before after : List Group, before.length + after.length ≤ 7 ∧
        text = joined before ++ [':', ':'] ++ joined after := by
    constructor
    · rintro ⟨f, rfl⟩
      cases f with
      | full groups h => exact .inl ⟨groups, h, rfl⟩
      | abbreviated before after h => exact .inr ⟨before, after, h, rfl⟩
    · rintro (⟨groups, h, rfl⟩ | ⟨before, after, h, rfl⟩)
      · exact ⟨.full groups h, rfl⟩
      · exact ⟨.abbreviated before after h, rfl⟩
  rw [isSome_fullMatch, hform, validation]
  simp only [matches_alt, matches_full, matches_front_seq (show 1 ≤ 7 by decide) matches_colon_none,
    matches_front_seq (show 1 ≤ 6 by decide) matches_colon_one,
    matches_both (show 1 ≤ 5 by decide) (show 1 ≤ 2 by decide),
    matches_both (show 1 ≤ 4 by decide) (show 1 ≤ 3 by decide),
    matches_both (show 1 ≤ 3 by decide) (show 1 ≤ 4 by decide),
    matches_both (show 1 ≤ 2 by decide) (show 1 ≤ 5 by decide), matches_one_back,
    matches_no_front]
  refine or_congr_right ?_
  constructor
  · rintro (⟨b, a, hb, ha, h⟩ | ⟨b, a, hb, ha, h⟩ | ⟨b, a, hb, ha, h⟩ | ⟨b, a, hb, ha, h⟩ |
      ⟨b, a, hb, ha, h⟩ | ⟨b, a, hb, ha, h⟩ | ⟨b, a, hb, ha, h⟩ | ⟨b, a, hb, ha, h⟩)
    all_goals exact ⟨b, a, by omega, h⟩
  · rintro ⟨b, a, hlen, h⟩
    -- the alternatives by the number of groups before the abbreviation
    have hcases : b.length = 0 ∨ a.length = 0 ∧ 1 ≤ b.length ∨ b.length = 6 ∧ a.length = 1 ∨
        1 ≤ a.length ∧ (b.length = 5 ∨ b.length = 4 ∨ b.length = 3 ∨ b.length = 2 ∨
          b.length = 1) := by omega
    rcases hcases with h0 | ⟨ha, hb⟩ | ⟨hb, ha⟩ | ⟨ha, hb | hb | hb | hb | hb⟩
    · exact .inr (.inr (.inr (.inr (.inr (.inr (.inr ⟨b, a, by omega, by omega, h⟩))))))
    · exact .inl ⟨b, a, by omega, by omega, h⟩
    · exact .inr (.inl ⟨b, a, by omega, by omega, h⟩)
    · exact .inr (.inr (.inl ⟨b, a, by omega, by omega, h⟩))
    · exact .inr (.inr (.inr (.inl ⟨b, a, by omega, by omega, h⟩)))
    · exact .inr (.inr (.inr (.inr (.inl ⟨b, a, by omega, by omega, h⟩))))
    · exact .inr (.inr (.inr (.inr (.inr (.inl ⟨b, a, by omega, by omega, h⟩)))))
    · exact .inr (.inr (.inr (.inr (.inr (.inr (.inl ⟨b, a, by omega, by omega, h⟩))))))

/-! ## Inserting colons -/

theorem find_append {front rest : List Char} (h : ':' ∉ front) :
    find [':', ':'] (front ++ rest) = (find [':', ':'] rest).map (· + front.length) := by
  induction front with
  | nil => simp
  | cons c front ih =>
    have hc : (':' == c) = false := by
      rw [beq_eq_false_iff_ne]
      rintro rfl
      exact h List.mem_cons_self
    have hno : [':', ':'].isPrefixOf (c :: (front ++ rest)) = false := by
      rw [List.isPrefixOf, hc, Bool.false_and]
    rw [List.cons_append, find, hno, ih fun hm => h (List.mem_cons_of_mem c hm), Option.map_map]
    simp [Function.comp_def, Nat.add_assoc]

/-- `::` is found behind the groups that stand before it. -/
theorem find_joined (before : List Group) (rest : List Char) :
    find [':', ':'] (joined before ++ ':' :: ':' :: rest) = some (joined before).length := by
  induction before with
  | nil => simp [joined, find]
  | cons g before ih =>
    cases before with
    | nil =>
      rw [joined_singleton, find_append g.colon_notMem]
      simp [find]
    | cons g' before =>
      have hjoin : joined (g :: g' :: before) = g.digits ++ ':' :: joined (g' :: before) :=
        join_cons_cons _ _ _ _
      -- the colon behind `g` is followed by a digit
      obtain ⟨c, digits, hdigits⟩ := List.exists_cons_of_length_pos g'.length.1
      obtain ⟨more, hmore⟩ : ∃ more, joined (g' :: before) = c :: more := by
        cases before with
        | nil => exact ⟨digits, by rw [joined_singleton, hdigits]⟩
        | cons g'' before =>
          refine ⟨digits ++ ':' :: joined (g'' :: before), (join_cons_cons _ _ _ _).trans ?_⟩
          rw [hdigits]
          rfl
      have hc : (':' == c) = false := by
        rw [beq_eq_false_iff_ne]
        rintro rfl
        exact g'.colon_notMem (by rw [hdigits]; exact List.mem_cons_self)
      have hno : [':', ':'].isPrefixOf (':' :: (joined (g' :: before) ++ ':' :: ':' :: rest)) =
          false := by
        rw [hmore, List.cons_append, List.isPrefixOf, List.isPrefixOf, hc]
        simp
      rw [hjoin, List.append_assoc, find_append g.colon_notMem, List.cons_append, find, hno, ih]
      simp
      omega

theorem insert_append (front rest : List Char) (n : Nat) (c : Char) :
    insert (front ++ rest) front.length n c = front ++ List.replicate n c ++ rest := by
  rw [insert, List.take_left, List.drop_left]

theorem count_joined (groups : List Group) : (joined groups).count ':' = groups.length - 1 := by
  rw [joined, count_join (colon_notMem_map groups), List.length_map]

theorem count_abbreviated (before after : List Group) :
    (joined before ++ [':', ':'] ++ joined after).count ':' =
      before.length - 1 + 2 + (after.length - 1) := by
  rw [List.count_append, List.count_append, count_joined, count_joined]
  rfl

/-- **The text with seven colons** has empty groups for those left out. -/
theorem expand {before after : List Group} (h : before.length + after.length ≤ 7) :
    joined before ++ List.replicate (7 - (before.length - 1) - (after.length - 1)) ':' ++
      joined after =
    join ':' (before.map Group.digits ++
      List.replicate (8 - before.length - after.length) [] ++ after.map Group.digits) := by
  obtain ⟨k, hk⟩ : ∃ k, 8 - before.length - after.length = k + 1 :=
    ⟨7 - before.length - after.length, by omega⟩
  have hempty : List.replicate (k + 1) ([] : List Char) ≠ [] := List.cons_ne_nil _ _
  rw [hk]
  by_cases hb : before = []
  · subst hb
    by_cases ha : after = []
    · subst ha
      obtain rfl : k = 7 := by simpa using hk.symm
      rw [List.map_nil, List.nil_append, List.append_nil, join_replicate]
      rfl
    · have hpos := List.length_pos_iff.2 ha
      have hm : 7 - (([] : List Group).length - 1) - (after.length - 1) = k + 1 := by
        simp at hk ⊢
        omega
      rw [hm, List.map_nil, List.nil_append, join_append hempty (by simpa using ha), join_replicate,
        List.replicate_succ']
      simp [joined]
  · have hpos := List.length_pos_iff.2 hb
    by_cases ha : after = []
    · subst ha
      have hm : 7 - (before.length - 1) - (([] : List Group).length - 1) = k + 1 := by
        simp at hk ⊢
        omega
      rw [hm, List.map_nil, List.append_nil, join_append (by simpa using hb) hempty, join_replicate,
        List.replicate_succ]
      simp [joined]
    · have hpos' := List.length_pos_iff.2 ha
      have hm : 7 - (before.length - 1) - (after.length - 1) = k + 2 := by omega
      rw [hm, join_append (by simp) (by simpa using ha), join_append (by simpa using hb) hempty,
        join_replicate, List.replicate_succ, List.replicate_succ']
      simp [joined]

/-! ## The second expression -/

/-- Up to four hexadecimal digits. -/
def IsField (text : List Char) : Prop := text.length ≤ 4 ∧ ∀ c ∈ text, c.isHexDigit = true

theorem Group.isField (g : Group) : IsField g.digits := ⟨g.length.2, g.hex⟩

theorem isField_nil : IsField [] := ⟨by decide, by simp⟩

theorem pattern_iff {text : List Char} {fields : List (List Char)} :
    pattern.fullMatch text = some fields ↔
      fields.length = 8 ∧ text = join ':' fields ∧ ∀ x ∈ fields, IsField x := by
  have hmatch : ∀ {text}, (xdigits 0 4).Matches text ↔ IsField text := by
    intro text
    rw [matches_rep_sat]
    simp [IsField]
  have hsep : ∀ {text}, (xdigits 0 4).Matches text → ':' ∉ text := by
    intro text h hc
    have := (hmatch.1 h).2 ':' hc
    rw [isHexDigit_colon] at this
    cases this
  rw [pattern, fullMatch_fields groups_rep_sat hsep]
  simp only [hmatch]

theorem IsField.value_lt {x : List Char} (h : IsField x) : value 16 x < 2 ^ 16 :=
  calc value 16 x < 16 ^ x.length := Numeral.value_lt fun c hc => digit_lt_sixteen (h.2 c hc)
    _ ≤ 16 ^ 4 := Nat.pow_le_pow_right (by decide) h.1
    _ = 2 ^ 16 := by decide

theorem ofHextets_append_singleton (l : List Nat) (h : Nat) :
    ofHextets (l ++ [h]) = 2 ^ 16 * ofHextets l + h := by
  rw [ofHextets, List.foldl_append]
  rfl

/-- A half with one more group. -/
theorem half_append_singleton (l : List (List Char)) {x : List Char} (hx : IsField x)
    (hl : (half l).toNat < 2 ^ 48) :
    (half (l ++ [x])).toNat = 2 ^ 16 * (half l).toNat + value 16 x := by
  have hlt := hx.value_lt
  have hshift : (half l <<< 16).toNat = 2 ^ 16 * (half l).toNat := by
    rw [UInt64.toNat_shiftLeft, Nat.shiftLeft_eq]
    simp
    omega
  have hstep : half (l ++ [x]) = if 0 < x.length then
      (half l <<< 16) ||| (UInt16.ofNat (value 16 x)).toUInt64 else half l <<< 16 := by
    rw [half, List.foldl_append]
    rfl
  rw [hstep]
  split
  · rw [UInt64.toNat_or, hshift, UInt16.toNat_toUInt64, UInt16.toNat_ofNat_of_lt' hlt,
      ← Nat.two_pow_add_eq_or_of_lt hlt]
  · rename_i hnil
    obtain rfl : x = [] := List.length_eq_zero_iff.1 (by omega)
    rw [hshift]
    rfl

/-- The number of a half. -/
theorem toNat_half {l : List (List Char)} (hlen : l.length ≤ 4) (h : ∀ x ∈ l, IsField x) :
    (half l).toNat = ofHextets (l.map (value 16)) ∧ (half l).toNat < 2 ^ (16 * l.length) := by
  induction l using List.reverseRecOn with
  | nil => exact ⟨rfl, by decide⟩
  | append_singleton l x ih =>
    have hx : IsField x := h x (List.mem_append_right _ (List.mem_singleton_self x))
    rw [List.length_append, List.length_singleton] at hlen
    obtain ⟨heq, hlt⟩ := ih (by omega) fun y hy => h y (List.mem_append_left _ hy)
    have hl : (half l).toNat < 2 ^ 48 :=
      Nat.lt_of_lt_of_le hlt (Nat.pow_le_pow_right (by decide) (by omega))
    have hstep := half_append_singleton l hx hl
    refine ⟨?_, ?_⟩
    · rw [hstep, List.map_append, List.map_singleton, ofHextets_append_singleton, heq]
    · have hxlt := hx.value_lt
      rw [hstep, List.length_append, List.length_singleton, Nat.mul_add, Nat.mul_one, Nat.pow_add]
      calc 2 ^ 16 * (half l).toNat + value 16 x < 2 ^ 16 * ((half l).toNat + 1) := by omega
        _ ≤ 2 ^ 16 * 2 ^ (16 * l.length) := Nat.mul_le_mul_left _ hlt
        _ = 2 ^ (16 * l.length) * 2 ^ 16 := Nat.mul_comm _ _

theorem ofHextets_append (l m : List Nat) :
    ofHextets (l ++ m) = 2 ^ (16 * m.length) * ofHextets l + ofHextets m := by
  induction m using List.reverseRecOn with
  | nil => simp [ofHextets]
  | append_singleton m h ih =>
    rw [← List.append_assoc, ofHextets_append_singleton, ih, ofHextets_append_singleton,
      List.length_append, List.length_singleton, Nat.mul_add 16, Nat.mul_one, Nat.pow_add,
      Nat.mul_add]
    ac_rfl

/-- The number of eight fields. -/
theorem number_halves {fields : List (List Char)} (hlen : fields.length = 8)
    (h : ∀ x ∈ fields, IsField x) :
    number (half (fields.take 4), half (fields.drop 4)) = ofHextets (fields.map (value 16)) := by
  have hfront : (fields.take 4).length = 4 := by rw [List.length_take, hlen]; rfl
  have hback : (fields.drop 4).length = 4 := by rw [List.length_drop, hlen]
  have hone := toNat_half (Nat.le_of_eq hfront) fun x hx => h x (List.mem_of_mem_take hx)
  have htwo := toNat_half (Nat.le_of_eq hback) fun x hx => h x (List.mem_of_mem_drop hx)
  conv_rhs => rw [← List.take_append_drop 4 fields]
  rw [List.map_append, ofHextets_append, List.length_map, hback, ← hone.1, ← htwo.1]
  rfl

/-! ## The parser -/

theorem parseIPv6_eq {text expanded : List Char}
    (hv : (validation.fullMatch text).isSome = true)
    (h : (7 ≤ text.count ':' ∧ expanded = text) ∨ (text.count ':' < 7 ∧
      ∃ pos, find [':', ':'] text = some pos ∧
        expanded = insert text pos (7 - text.count ':') ':')) :
    parseIPv6 text = match pattern.fullMatch expanded with
      | none => .error .badRepresentation
      | some groups => .ok (half (groups.take 4), half (groups.drop 4)) := by
  have hnone : (validation.fullMatch text).isNone = false := by
    rw [← Option.not_isSome, hv]
    rfl
  unfold parseIPv6
  simp only [hnone, Bool.false_eq_true, if_false]
  rcases h with ⟨hn, rfl⟩ | ⟨hn, pos, hpos, rfl⟩
  · simp only [if_neg (Nat.not_lt.2 hn)]
    rfl
  · simp only [if_pos hn, hpos]
    rfl

/-- The parser on a text whose colons, after the insertion, separate eight fields. -/
theorem parseIPv6_of_fields {text : List Char} {fields : List (List Char)}
    (hv : (validation.fullMatch text).isSome = true) (hlen : fields.length = 8)
    (hfields : ∀ x ∈ fields, IsField x)
    (h : (7 ≤ text.count ':' ∧ join ':' fields = text) ∨ (text.count ':' < 7 ∧
      ∃ pos, find [':', ':'] text = some pos ∧
        join ':' fields = insert text pos (7 - text.count ':') ':')) :
    ∃ num, parseIPv6 text = .ok num ∧ number num = ofHextets (fields.map (value 16)) := by
  refine ⟨_, ?_, number_halves hlen hfields⟩
  rw [parseIPv6_eq hv h, pattern_iff.2 ⟨hlen, rfl, hfields⟩]

theorem isField_digits (groups : List Group) : ∀ x ∈ groups.map Group.digits, IsField x := by
  intro x hx
  obtain ⟨g, -, rfl⟩ := List.mem_map.1 hx
  exact g.isField

theorem parseIPv6_full (groups : List Group) (h : groups.length = 8) :
    ∃ num, parseIPv6 (joined groups) = .ok num ∧
      number num = ofHextets (groups.map (value 16 ·.digits)) := by
  have hcount : (joined groups).count ':' = 7 := by rw [count_joined, h]
  have hv := validation_iff.2 ⟨.full groups h, rfl⟩
  obtain ⟨num, hnum, heq⟩ := parseIPv6_of_fields hv (by rwa [List.length_map])
    (isField_digits groups) (.inl ⟨Nat.le_of_eq hcount.symm, rfl⟩)
  rw [List.map_map] at heq
  exact ⟨num, hnum, heq⟩

theorem parseIPv6_abbreviated {before after : List Group}
    (h : before.length + after.length ≤ 7) (hb : before.length ≠ 7) (ha : after.length ≠ 7) :
    ∃ num, parseIPv6 (joined before ++ [':', ':'] ++ joined after) = .ok num ∧
      number num = ofHextets (Form.abbreviated before after h).hextets := by
  have hv : (validation.fullMatch (joined before ++ [':', ':'] ++ joined after)).isSome = true :=
    validation_iff.2 ⟨.abbreviated before after h, rfl⟩
  let fields := before.map Group.digits ++ List.replicate (8 - before.length - after.length) [] ++
    after.map Group.digits
  have hlen : fields.length = 8 := by
    simp only [fields, List.length_append, List.length_map, List.length_replicate]
    omega
  have hfields : ∀ x ∈ fields, IsField x := by
    intro x hx
    rcases List.mem_append.1 hx with hx | hx
    · rcases List.mem_append.1 hx with hx | hx
      · exact isField_digits before x hx
      · rw [List.eq_of_mem_replicate hx]
        exact isField_nil
    · exact isField_digits after x hx
  have hvalues : fields.map (value 16) = (Form.abbreviated before after h).hextets := by
    simp only [fields, Form.hextets, List.map_append, List.map_map, List.map_replicate]
    rfl
  rw [← hvalues]
  refine parseIPv6_of_fields hv hlen hfields ?_
  rw [count_abbreviated, ← expand h]
  by_cases hn : before.length - 1 + 2 + (after.length - 1) < 7
  · -- colons are inserted in front of those of the abbreviation
    refine .inr ⟨hn, (joined before).length, ?_, ?_⟩
    · rw [List.append_assoc]
      exact find_joined before (joined after)
    · have hm : 7 - (before.length - 1) - (after.length - 1) =
          7 - (before.length - 1 + 2 + (after.length - 1)) + 2 := by omega
      rw [hm, List.replicate_add, List.append_assoc _ [':', ':'], insert_append]
      simp
  · have hm : 7 - (before.length - 1) - (after.length - 1) = 2 := by omega
    exact .inl ⟨by omega, by rw [hm]; rfl⟩

/-- Nine fields do not match. -/
theorem parseIPv6_sevenAtEnd {before after : List Group}
    (h : before.length + after.length ≤ 7) (hseven : before.length = 7 ∨ after.length = 7) :
    parseIPv6 (joined before ++ [':', ':'] ++ joined after) = .error .badRepresentation := by
  have hcount : (joined before ++ [':', ':'] ++ joined after).count ':' = 8 := by
    rw [count_abbreviated]
    omega
  have hv : (validation.fullMatch (joined before ++ [':', ':'] ++ joined after)).isSome = true :=
    validation_iff.2 ⟨.abbreviated before after h, rfl⟩
  rw [parseIPv6_eq hv (.inl ⟨by rw [hcount]; decide, rfl⟩)]
  cases hp : pattern.fullMatch (joined before ++ [':', ':'] ++ joined after) with
  | none => rfl
  | some fields =>
    obtain ⟨hlen, htext, hfields⟩ := pattern_iff.1 hp
    have hno : ∀ x ∈ fields, ':' ∉ x := by
      intro x hx hc
      have := (hfields x hx).2 ':' hc
      rw [isHexDigit_colon] at this
      cases this
    have hseven := count_join hno
    rw [← htext, hcount, hlen] at hseven
    cases hseven

/-- **What the parser expands right**: the first expression accepts the texts of addresses, and
`parseIPv6` returns the number of such a text, the groups left out being zero, exactly when there are
not seven groups on one side of `::`. -/
theorem parseIPv6_iff (text : List Char) :
    ((validation.fullMatch text).isSome = true ↔ ∃ f : Form, f.text = text) ∧
    ∀ f : Form, f.text = text →
      ((∃ num, parseIPv6 text = .ok num ∧ number num = ofHextets f.hextets) ↔
        ¬ f.SevenAtEnd) := by
  refine ⟨validation_iff, fun f htext => ?_⟩
  subst htext
  cases f with
  | full groups h => exact iff_of_true (parseIPv6_full groups h) not_false
  | abbreviated before after h =>
    constructor
    · rintro ⟨num, hnum, -⟩ hseven
      rw [Form.text, parseIPv6_sevenAtEnd h hseven] at hnum
      cases hnum
    · intro hnot
      rw [Form.SevenAtEnd, not_or] at hnot
      exact parseIPv6_abbreviated h hnot.1 hnot.2

/-- `1:1:1:1:1:1:1::` -/
theorem seven_groups_refused : ¬ ∀ f : Form, ∃ num, parseIPv6 f.text = .ok num ∧
    number num = ofHextets f.hextets := by
  intro h
  let one : Group := ⟨['1'], by decide, List.forall_mem_singleton.2 rfl⟩
  obtain ⟨num, hnum, -⟩ := h (.abbreviated (List.replicate 7 one) [] (by simp))
  rw [Form.text, parseIPv6_sevenAtEnd (by simp) (.inl (by simp))] at hnum
  cases hnum

end IPv6Addr
