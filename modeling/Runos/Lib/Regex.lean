import Mathlib.Data.List.Basic
import Mathlib.Tactic.Common

/-!
# Backtracking patterns

A pattern over the characters `α`, matched the way a backtracking engine does: `ways` lists every way
to match a front part of a text, in the order in which they are tried, with the texts of the groups
that were captured and the text that is left. A repetition is greedy. `fullMatch` is the first way
that leaves nothing.

`Derives r text groups` says the same without the order (`mem_ways`), so what is accepted is read off
the pattern (`matches_seq`, `matches_alt`, `matches_rep`, `matches_rep_sat`), and so are the groups
where only one way exists (`fullMatch_eq_some`), as for fields between separators
(`fullMatch_fields`).
-/

inductive Regex (α : Type)
  /-- one character of a class -/
  | sat (p : α → Bool)
  | seq (r q : Regex α)
  | alt (r q : Regex α)
  /-- `min` rounds, and up to `more` after them -/
  | rep (r : Regex α) (min more : Nat)
  | group (r : Regex α)

namespace Regex

variable {α : Type} {r q : Regex α} {text rest : List α} {groups : List (List α)}

/-- A way to match: the texts captured, and the text that is left. -/
abbrev Way (α : Type) := List (List α) × List α

/-- One way after another. -/
def andThen (ways : List (Way α)) (next : List α → List (Way α)) : List (Way α) :=
  ways.flatMap fun w => (next w.2).map fun v => (w.1 ++ v.1, v.2)

/-- The rounds of a repetition, as many as possible first. -/
def rounds (round : List α → List (Way α)) : Nat → Nat → List α → List (Way α)
  | 0, 0, text => [([], text)]
  | 0, more + 1, text => andThen (round text) (rounds round 0 more) ++ [([], text)]
  | min + 1, more, text => andThen (round text) (rounds round min more)

/-- The ways to match a front part of a text, in order. -/
def ways : Regex α → List α → List (Way α)
  | sat _, [] => []
  | sat p, c :: text => if p c then [([], text)] else []
  | seq r q, text => andThen (r.ways text) q.ways
  | alt r q, text => r.ways text ++ q.ways text
  | rep r min more, text => rounds r.ways min more text
  | group r, text =>
    (r.ways text).map fun w => (text.take (text.length - w.2.length) :: w.1, w.2)

/-- The groups of the first way to match the whole text. -/
def fullMatch (r : Regex α) (text : List α) : Option (List (List α)) :=
  ((r.ways text).find? (·.2.isEmpty)).map Prod.fst

/-- `n + 1` fields that are captured, with a separator between them. -/
def fields [BEq α] (field : Regex α) (sep : α) : Nat → Regex α
  | 0 => group field
  | n + 1 => seq (group field) (seq (sat (· == sep)) (fields field sep n))

/-- The pattern can match the text, with the groups. -/
def Derives : Regex α → List α → List (List α) → Prop
  | sat p, text, groups => (∃ c, text = [c] ∧ p c = true) ∧ groups = []
  | seq r q, text, groups => ∃ text₁ text₂ groups₁ groups₂, text = text₁ ++ text₂ ∧
      groups = groups₁ ++ groups₂ ∧ r.Derives text₁ groups₁ ∧ q.Derives text₂ groups₂
  | alt r q, text, groups => r.Derives text groups ∨ q.Derives text groups
  | rep r min more, text, groups => ∃ parts : List (List α × List (List α)),
      (min ≤ parts.length ∧ parts.length ≤ min + more) ∧ text = (parts.map Prod.fst).flatten ∧
        groups = (parts.map Prod.snd).flatten ∧ ∀ part ∈ parts, r.Derives part.1 part.2
  | group r, text, groups => ∃ inner, groups = text :: inner ∧ r.Derives text inner

/-- The pattern can match the text. -/
def Matches (r : Regex α) (text : List α) : Prop := ∃ groups, r.Derives text groups

/-! ## The ways and what they match -/

theorem mem_andThen {ways : List (Way α)} {next : List α → List (Way α)} {w : Way α} :
    w ∈ andThen ways next ↔ ∃ u ∈ ways, ∃ v ∈ next u.2, w = (u.1 ++ v.1, v.2) := by
  simp only [andThen, List.mem_flatMap, List.mem_map, eq_comm]

/-- Every round is a way of the pattern, each starting where the one before ended. -/
theorem mem_rounds {round : List α → List (Way α)} {D : List α → List (List α) → Prop}
    (hround : ∀ {text groups rest}, (groups, rest) ∈ round text ↔
      ∃ front, text = front ++ rest ∧ D front groups) :
    ∀ {min more : Nat} {text : List α} {groups rest},
      (groups, rest) ∈ rounds round min more text ↔ ∃ parts : List (List α × List (List α)),
        (min ≤ parts.length ∧ parts.length ≤ min + more) ∧
        text = (parts.map Prod.fst).flatten ++ rest ∧ groups = (parts.map Prod.snd).flatten ∧
        ∀ part ∈ parts, D part.1 part.2 := by
  -- one more round in front
  have hcons : ∀ {lo hi text groups rest} {next : List α → List (Way α)},
      (∀ {text groups rest}, (groups, rest) ∈ next text ↔
        ∃ parts : List (List α × List (List α)), (lo ≤ parts.length ∧ parts.length ≤ hi) ∧
          text = (parts.map Prod.fst).flatten ++ rest ∧ groups = (parts.map Prod.snd).flatten ∧
          ∀ part ∈ parts, D part.1 part.2) →
      ((groups, rest) ∈ andThen (round text) next ↔
        ∃ parts : List (List α × List (List α)), (lo + 1 ≤ parts.length ∧ parts.length ≤ hi + 1) ∧
          text = (parts.map Prod.fst).flatten ++ rest ∧ groups = (parts.map Prod.snd).flatten ∧
          ∀ part ∈ parts, D part.1 part.2) := by
    intro lo hi text groups rest next hnext
    rw [mem_andThen]
    constructor
    · rintro ⟨⟨g₁, rest₁⟩, hfirst, ⟨g₂, rest₂⟩, hrest, heq⟩
      cases heq
      obtain ⟨front, rfl, hfront⟩ := hround.1 hfirst
      obtain ⟨parts, ⟨hlo, hhi⟩, rfl, rfl, hparts⟩ := hnext.1 hrest
      refine ⟨(front, g₁) :: parts, ?_, ?_, rfl, List.forall_mem_cons.2 ⟨hfront, hparts⟩⟩
      · rw [List.length_cons]
        omega
      · simp
    · rintro ⟨parts, ⟨hlo, hhi⟩, rfl, rfl, hparts⟩
      cases parts with
      | nil => simp at hlo
      | cons part parts =>
        obtain ⟨hpart, hparts⟩ := List.forall_mem_cons.1 hparts
        rw [List.length_cons] at hlo hhi
        refine ⟨(part.2, (parts.map Prod.fst).flatten ++ rest), hround.2 ⟨part.1, by simp, hpart⟩,
          ((parts.map Prod.snd).flatten, rest),
          hnext.2 ⟨parts, ⟨by omega, by omega⟩, rfl, rfl, hparts⟩, rfl⟩
  -- no round
  have hnil : ∀ {text : List α} {groups rest}, (groups, rest) ∈ [(([] : List (List α)), text)] ↔
      ∃ parts : List (List α × List (List α)), (0 ≤ parts.length ∧ parts.length ≤ 0) ∧
        text = (parts.map Prod.fst).flatten ++ rest ∧ groups = (parts.map Prod.snd).flatten ∧
        ∀ part ∈ parts, D part.1 part.2 := by
    intro text groups rest
    rw [List.mem_singleton, Prod.mk.injEq]
    constructor
    · rintro ⟨rfl, rfl⟩
      exact ⟨[], by simp, rfl, rfl, by simp⟩
    · rintro ⟨parts, ⟨-, hlen⟩, rfl, rfl, -⟩
      obtain rfl : parts = [] := List.length_eq_zero_iff.1 (Nat.le_zero.1 hlen)
      exact ⟨rfl, rfl⟩
  intro min
  induction min with
  | zero =>
    intro more
    induction more with
    | zero =>
      intro text groups rest
      rw [rounds]
      exact hnil
    | succ more ih =>
      intro text groups rest
      rw [rounds, List.mem_append, hcons ih, hnil]
      constructor
      · rintro (⟨parts, hlen, hparts⟩ | ⟨parts, hlen, hparts⟩)
        · exact ⟨parts, by omega, hparts⟩
        · exact ⟨parts, by omega, hparts⟩
      · rintro ⟨parts, hlen, hparts⟩
        by_cases h : parts.length = 0
        · exact .inr ⟨parts, by omega, hparts⟩
        · exact .inl ⟨parts, by omega, hparts⟩
  | succ min ih =>
    intro more text groups rest
    rw [rounds, hcons ih]
    refine exists_congr fun parts => and_congr_left fun _ => ?_
    omega

/-- **The ways are the derivations**, each with the text that it leaves. -/
theorem mem_ways : (groups, rest) ∈ r.ways text ↔
    ∃ front, text = front ++ rest ∧ r.Derives front groups := by
  induction r generalizing text groups rest with
  | sat p =>
    cases text with
    | nil =>
      rw [ways]
      constructor
      · intro h
        cases h
      · rintro ⟨front, htext, ⟨c, rfl, -⟩, -⟩
        cases htext
    | cons c text =>
      rw [ways]
      constructor
      · intro h
        split at h
        · rename_i hc
          cases List.mem_singleton.1 h
          exact ⟨[c], rfl, ⟨c, rfl, hc⟩, rfl⟩
        · cases h
      · rintro ⟨front, htext, ⟨d, rfl, hd⟩, rfl⟩
        cases htext
        rw [if_pos hd]
        exact List.mem_singleton_self _
  | seq r q ihr ihq =>
    rw [ways, mem_andThen]
    constructor
    · rintro ⟨⟨g₁, rest₁⟩, h₁, ⟨g₂, rest₂⟩, h₂, heq⟩
      cases heq
      obtain ⟨front₁, rfl, hd₁⟩ := ihr.1 h₁
      obtain ⟨front₂, rfl, hd₂⟩ := ihq.1 h₂
      exact ⟨front₁ ++ front₂, (List.append_assoc _ _ _).symm, front₁, front₂, g₁, g₂, rfl, rfl,
        hd₁, hd₂⟩
    · rintro ⟨_, rfl, front₁, front₂, g₁, g₂, rfl, rfl, hd₁, hd₂⟩
      exact ⟨(g₁, front₂ ++ rest), ihr.2 ⟨front₁, List.append_assoc _ _ _, hd₁⟩, (g₂, rest),
        ihq.2 ⟨front₂, rfl, hd₂⟩, rfl⟩
  | alt r q ihr ihq =>
    rw [ways, List.mem_append, ihr, ihq]
    constructor
    · rintro (⟨front, htext, hd⟩ | ⟨front, htext, hd⟩)
      · exact ⟨front, htext, .inl hd⟩
      · exact ⟨front, htext, .inr hd⟩
    · rintro ⟨front, htext, hd | hd⟩
      · exact .inl ⟨front, htext, hd⟩
      · exact .inr ⟨front, htext, hd⟩
  | rep r min more ih =>
    rw [ways, mem_rounds ih]
    constructor
    · rintro ⟨parts, hlen, htext, hgroups, hparts⟩
      exact ⟨_, htext, parts, hlen, rfl, hgroups, hparts⟩
    · rintro ⟨_, htext, parts, hlen, rfl, hgroups, hparts⟩
      exact ⟨parts, hlen, htext, hgroups, hparts⟩
  | group r ih =>
    rw [ways, List.mem_map]
    constructor
    · rintro ⟨⟨inner, rest'⟩, hw, heq⟩
      obtain ⟨front, rfl, hd⟩ := ih.1 hw
      cases heq
      exact ⟨front, rfl, inner, by simp, hd⟩
    · rintro ⟨front, rfl, inner, rfl, hd⟩
      exact ⟨(inner, rest), ih.2 ⟨front, rfl, hd⟩, by simp⟩

/-- A match of the whole text is a derivation. -/
theorem derives_of_fullMatch (h : r.fullMatch text = some groups) : r.Derives text groups := by
  obtain ⟨w, hw, rfl⟩ := Option.map_eq_some_iff.1 h
  have hempty : w.2 = [] :=
    List.isEmpty_iff.1 (List.find?_some (p := fun w : Way α => w.2.isEmpty) hw)
  obtain ⟨front, rfl, hd⟩ := mem_ways.1 (show (w.1, w.2) ∈ _ from List.mem_of_find?_eq_some hw)
  rwa [hempty, List.append_nil]

/-- **What is accepted** is what the pattern can match. -/
theorem isSome_fullMatch : (r.fullMatch text).isSome = true ↔ r.Matches text := by
  constructor
  · intro h
    obtain ⟨groups, hg⟩ := Option.isSome_iff_exists.1 h
    exact ⟨groups, derives_of_fullMatch hg⟩
  · rintro ⟨groups, hd⟩
    have hw : (groups, []) ∈ r.ways text := mem_ways.2 ⟨text, (List.append_nil _).symm, hd⟩
    rw [fullMatch, Option.isSome_map, List.find?_isSome]
    exact ⟨_, hw, rfl⟩

/-- The groups, where the text has one derivation only. -/
theorem fullMatch_eq_some (hd : r.Derives text groups)
    (huniq : ∀ groups', r.Derives text groups' → groups' = groups) :
    r.fullMatch text = some groups := by
  obtain ⟨groups', hg⟩ := Option.isSome_iff_exists.1 (isSome_fullMatch.2 ⟨groups, hd⟩)
  rw [hg, huniq groups' (derives_of_fullMatch hg)]

/-- One pattern after another, as a search: the first way of the one from which the other matches. -/
theorem fullMatch_seq : (seq r q).fullMatch text =
    (r.ways text).findSome? fun w => (q.fullMatch w.2).map (w.1 ++ ·) := by
  unfold fullMatch
  rw [ways, andThen, List.find?_flatMap]
  induction r.ways text with
  | nil => rfl
  | cons w rest ih =>
    rw [List.findSome?_cons, List.findSome?_cons, List.find?_map]
    simp only [Function.comp_def]
    cases (q.ways w.2).find? fun v => v.2.isEmpty with
    | none => exact ih
    | some v => rfl

/-- A character in front. -/
theorem fullMatch_sat_seq {p : α → Bool} : (seq (sat p) q).fullMatch text = match text with
    | [] => none
    | c :: rest => if p c then q.fullMatch rest else none := by
  rw [fullMatch_seq]
  cases text with
  | nil => rfl
  | cons c rest =>
    rw [ways]
    by_cases h : p c = true
    · simp only [if_pos h, List.findSome?_cons, List.findSome?_nil]
      cases q.fullMatch rest <;> rfl
    · rw [if_neg h]
      simp only [if_neg h, List.findSome?_nil]

/-! ## What a pattern accepts -/

theorem matches_sat {p : α → Bool} : (sat p).Matches text ↔ ∃ c, text = [c] ∧ p c = true :=
  ⟨fun ⟨_, h, _⟩ => h, fun h => ⟨[], h, rfl⟩⟩

theorem matches_seq : (seq r q).Matches text ↔
    ∃ text₁ text₂, text = text₁ ++ text₂ ∧ r.Matches text₁ ∧ q.Matches text₂ := by
  constructor
  · rintro ⟨_, text₁, text₂, g₁, g₂, htext, -, h₁, h₂⟩
    exact ⟨text₁, text₂, htext, ⟨g₁, h₁⟩, ⟨g₂, h₂⟩⟩
  · rintro ⟨text₁, text₂, htext, ⟨g₁, h₁⟩, ⟨g₂, h₂⟩⟩
    exact ⟨g₁ ++ g₂, text₁, text₂, g₁, g₂, htext, rfl, h₁, h₂⟩

theorem matches_alt : (alt r q).Matches text ↔ r.Matches text ∨ q.Matches text := exists_or

theorem matches_rep {min more : Nat} : (rep r min more).Matches text ↔
    ∃ parts : List (List α), (min ≤ parts.length ∧ parts.length ≤ min + more) ∧
      text = parts.flatten ∧ ∀ part ∈ parts, r.Matches part := by
  constructor
  · rintro ⟨_, parts, hlen, htext, -, hparts⟩
    refine ⟨parts.map Prod.fst, by rwa [List.length_map], htext, ?_⟩
    rintro _ hpart
    obtain ⟨part, hmem, rfl⟩ := List.mem_map.1 hpart
    exact ⟨part.2, hparts part hmem⟩
  · rintro ⟨parts, hlen, htext, hparts⟩
    -- the groups of every part
    obtain ⟨pairs, hfst, hpairs⟩ : ∃ pairs : List (List α × List (List α)),
        pairs.map Prod.fst = parts ∧ ∀ pair ∈ pairs, r.Derives pair.1 pair.2 := by
      clear htext hlen
      induction parts with
      | nil => exact ⟨[], rfl, by simp⟩
      | cons part parts ih =>
        obtain ⟨⟨g, hg⟩, hparts⟩ := List.forall_mem_cons.1 hparts
        obtain ⟨pairs, rfl, hpairs⟩ := ih hparts
        exact ⟨(part, g) :: pairs, rfl, List.forall_mem_cons.2 ⟨hg, hpairs⟩⟩
    subst hfst
    rw [List.length_map] at hlen
    exact ⟨_, pairs, hlen, htext, rfl, hpairs⟩

/-- A repeated class: a text of so many of its characters. -/
theorem matches_rep_sat {p : α → Bool} {min more : Nat} : (rep (sat p) min more).Matches text ↔
    (min ≤ text.length ∧ text.length ≤ min + more) ∧ ∀ c ∈ text, p c = true := by
  rw [matches_rep]
  constructor
  · rintro ⟨parts, hlen, rfl, hparts⟩
    have hflat : parts.flatten.length = parts.length := by
      clear hlen
      induction parts with
      | nil => rfl
      | cons part parts ih =>
        obtain ⟨c, rfl, -⟩ := matches_sat.1 (hparts part List.mem_cons_self)
        have hrest := ih fun part hpart => hparts part (List.mem_cons_of_mem _ hpart)
        rw [List.flatten_cons, List.length_append, hrest, List.length_cons, Nat.add_comm]
        rfl
    refine ⟨by rwa [hflat], fun c hc => ?_⟩
    obtain ⟨part, hpart, hc⟩ := List.mem_flatten.1 hc
    obtain ⟨d, rfl, hd⟩ := matches_sat.1 (hparts part hpart)
    cases List.mem_singleton.1 hc
    exact hd
  · rintro ⟨hlen, htext⟩
    refine ⟨text.map ([·]), by rwa [List.length_map], ?_, ?_⟩
    · clear hlen htext
      induction text with
      | nil => rfl
      | cons c text ih => rw [List.map_cons, List.flatten_cons, ← ih]; rfl
    · intro part hpart
      obtain ⟨c, hc, rfl⟩ := List.mem_map.1 hpart
      exact matches_sat.2 ⟨c, rfl, htext c hc⟩

/-- A repeated class captures nothing. -/
theorem groups_rep_sat {p : α → Bool} {min more : Nat}
    (h : (rep (sat p) min more).Derives text groups) : groups = [] := by
  obtain ⟨parts, -, -, rfl, hparts⟩ := h
  rw [List.flatten_eq_nil_iff]
  intro g hg
  obtain ⟨part, hpart, rfl⟩ := List.mem_map.1 hg
  exact (hparts part hpart).2

/-! ## Fields between separators -/

section
variable [BEq α] [LawfulBEq α] {field : Regex α} {sep : α} {n : Nat}

theorem derives_fields (hfield : ∀ {text groups}, field.Derives text groups → groups = []) :
    (fields field sep n).Derives text groups ↔
      groups.length = n + 1 ∧ text = [sep].intercalate groups ∧ ∀ g ∈ groups, field.Matches g := by
  -- one field
  have hone : ∀ {text groups}, (group field).Derives text groups ↔
      groups = [text] ∧ field.Matches text := by
    intro text groups
    constructor
    · rintro ⟨inner, rfl, h⟩
      exact ⟨by rw [hfield h], inner, h⟩
    · rintro ⟨rfl, inner, h⟩
      rw [hfield h] at h
      exact ⟨[], rfl, h⟩
  induction n generalizing text groups with
  | zero =>
    rw [fields, hone]
    constructor
    · rintro ⟨rfl, h⟩
      exact ⟨rfl, List.intercalate_singleton.symm, by simpa using h⟩
    · rintro ⟨hlen, rfl, h⟩
      obtain ⟨g, rfl⟩ := List.length_eq_one_iff.1 hlen
      exact ⟨by rw [List.intercalate_singleton], by simpa using h⟩
  | succ n ih =>
    rw [fields]
    constructor
    · rintro ⟨first, rest, g₁, g₂, rfl, rfl, h₁, mark, rest', g₃, g₄, rfl, rfl,
        ⟨⟨c, rfl, hc⟩, rfl⟩, h₂⟩
      obtain ⟨rfl, hfirst⟩ := hone.1 h₁
      obtain ⟨hlen, rfl, hrest⟩ := ih.1 h₂
      rw [eq_of_beq hc]
      refine ⟨by simp [hlen], ?_, List.forall_mem_cons.2 ⟨hfirst, hrest⟩⟩
      show first ++ ([sep] ++ [sep].intercalate g₄) = [sep].intercalate (first :: g₄)
      rw [List.intercalate_cons_of_ne_nil (List.ne_nil_of_length_eq_add_one hlen),
        List.append_assoc]
    · rintro ⟨hlen, rfl, h⟩
      obtain ⟨first, rest, rfl⟩ := List.exists_cons_of_length_eq_add_one hlen
      obtain ⟨hfirst, hrest⟩ := List.forall_mem_cons.1 h
      have hlen : rest.length = n + 1 := by simpa using hlen
      refine ⟨first, [sep] ++ [sep].intercalate rest, [first], rest, ?_, rfl, hone.2 ⟨rfl, hfirst⟩,
        [sep], [sep].intercalate rest, [], rest, rfl, rfl, ⟨⟨sep, rfl, beq_self_eq_true sep⟩, rfl⟩,
        ih.2 ⟨hlen, rfl, hrest⟩⟩
      rw [List.intercalate_cons_of_ne_nil (List.ne_nil_of_length_eq_add_one hlen),
        List.append_assoc]

/-- **The fields of a text**, when no field has a separator in it. -/
theorem fullMatch_fields (hfield : ∀ {text groups}, field.Derives text groups → groups = [])
    (hsep : ∀ {text}, field.Matches text → sep ∉ text) :
    (fields field sep n).fullMatch text = some groups ↔
      groups.length = n + 1 ∧ text = [sep].intercalate groups ∧ ∀ g ∈ groups, field.Matches g := by
  refine ⟨fun h => ?_, fun h => ?_⟩
  · exact (derives_fields hfield).1 (derives_of_fullMatch h)
  · have hsplit : ∀ groups', (fields field sep n).Derives text groups' →
        groups' = text.splitOn sep := by
      intro groups' h'
      obtain ⟨hlen, rfl, hmem⟩ := (derives_fields hfield).1 h'
      exact (List.splitOn_intercalate sep (fun g hg => hsep (hmem g hg))
        (List.ne_nil_of_length_eq_add_one hlen)).symm
    have hd := (derives_fields hfield).2 h
    exact fullMatch_eq_some hd fun groups' h' => (hsplit groups' h').trans (hsplit groups hd).symm

end

end Regex
