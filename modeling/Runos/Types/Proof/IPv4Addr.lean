import Runos.Lib.Lists
import Runos.Lib.Numeral
import Runos.Lib.Separated
import Runos.Types.IPv4Addr

/-!
# Which texts are IPv4 addresses

The matcher of the parser is the regular expression (`matchOctets_eq`), so it accepts four groups of
one to three digits with any characters between them that do not end a line (`accepts_iff`), and the
octets are the groups modulo 256. For a dotted quad only one way to match exists
(`fullMatch_quad`), and its octets come out (`parse_quad`). Any other text that is accepted gives an
address where the parser should have refused (`parsesQuad_iff`).
-/

namespace IPv4Addr

open Separated Numeral Regex

variable {text : List Char} {groups : List (List Char)}

/-! ## The regular expression -/

theorem ways_octet (text : List Char) : octet.ways text = [3, 2, 1].filterMap fun k =>
    if k ≤ text.length ∧ (text.take k).all Char.isDigit = true then
      some ([text.take k], text.drop k)
    else none := by
  rcases text with _ | ⟨a, _ | ⟨b, _ | ⟨c, text⟩⟩⟩
  · simp [ways, rounds, andThen]
  · cases ha : a.isDigit <;> simp [ways, rounds, andThen, ha]
  · cases ha : a.isDigit <;> cases hb : b.isDigit <;> simp [ways, rounds, andThen, ha, hb]
  · have h3 : text.length + 1 + 1 + 1 - text.length = 3 := by omega
    cases ha : a.isDigit <;> cases hb : b.isDigit <;> cases hc : c.isDigit <;>
      simp [ways, rounds, andThen, ha, hb, hc, h3]

theorem fullMatch_octet (text : List Char) : octet.fullMatch text =
    if 1 ≤ text.length ∧ text.length ≤ 3 ∧ text.all Char.isDigit = true then some [text]
    else none := by
  rw [fullMatch, ways_octet]
  rcases text with _ | ⟨a, _ | ⟨b, _ | ⟨c, _ | ⟨d, text⟩⟩⟩⟩
  · rfl
  · cases ha : a.isDigit <;> simp [ha]
  · cases ha : a.isDigit <;> cases hb : b.isDigit <;> simp [ha, hb]
  · cases ha : a.isDigit <;> cases hb : b.isDigit <;> cases hc : c.isDigit <;> simp [ha, hb, hc]
  · cases ha : a.isDigit <;> cases hb : b.isDigit <;> cases hc : c.isDigit <;> simp [ha, hb, hc]

/-- **The matcher is the regular expression.** -/
theorem matchOctets_eq (n : Nat) (text : List Char) :
    matchOctets (n + 1) text = (octetsPattern n).fullMatch text := by
  induction n generalizing text with
  | zero => exact (fullMatch_octet text).symm
  | succ n ih =>
    rw [octetsPattern, fullMatch_seq, ways_octet, matchOctets, List.findSome?_filterMap]
    congr 1
    funext k
    by_cases hk : k ≤ text.length ∧ (text.take k).all Char.isDigit = true
    · rw [if_pos hk, Option.bind_some, fullMatch_sat_seq]
      cases text.drop k with
      | nil => rfl
      | cons c rest =>
        by_cases hc : c ≠ '\n' ∧ c ≠ '\r'
        · simp only [hk.2, true_and, if_pos hc, ih, decide_eq_true hc, if_true]
          rfl
        · simp only [hk.2, true_and, if_neg hc, decide_eq_false hc, Bool.false_eq_true, if_false]
          rfl
    · rw [if_neg hk, Option.bind_none]
      by_cases hlen : k ≤ text.length
      · have hall : ¬ (text.take k).all Char.isDigit = true := fun h => hk ⟨hlen, h⟩
        cases text.drop k with
        | nil => rfl
        | cons c rest => exact if_neg fun h => hall h.1
      · rw [List.drop_eq_nil_of_le (by omega)]

/-! ## What is accepted -/

/-- One to three digits. -/
def IsOctet (text : List Char) : Prop :=
  (1 ≤ text.length ∧ text.length ≤ 3) ∧ ∀ c ∈ text, c.isDigit = true

/-- Not the end of a line. -/
def IsDot (c : Char) : Prop := c ≠ '\n' ∧ c ≠ '\r'

/-- Four groups of one to three digits, with any characters between them. -/
def FourGroups (text : List Char) : Prop :=
  ∃ (a b c d : List Char) (x y z : Char), (IsOctet a ∧ IsOctet b ∧ IsOctet c ∧ IsOctet d) ∧
    (IsDot x ∧ IsDot y ∧ IsDot z) ∧ text = a ++ x :: (b ++ y :: (c ++ z :: d))

/-- Four numbers up to 255, of one to three digits each, with single dots between them. -/
def DottedQuad (text : List Char) (numbers : List Nat) : Prop :=
  ∃ groups : List (List Char), groups.length = 4 ∧
    (∀ g ∈ groups, IsOctet g ∧ value 10 g ≤ 255) ∧ text = join '.' groups ∧
    numbers = groups.map (value 10)

theorem derives_octet : octet.Derives text groups ↔ groups = [text] ∧ IsOctet text := by
  have hmatch : (Regex.rep (.sat Char.isDigit) 1 2).Matches text ↔ IsOctet text := matches_rep_sat
  constructor
  · rintro ⟨inner, rfl, h⟩
    rw [groups_rep_sat h]
    exact ⟨rfl, hmatch.1 ⟨inner, h⟩⟩
  · rintro ⟨rfl, h⟩
    obtain ⟨inner, hd⟩ := hmatch.2 h
    rw [groups_rep_sat hd] at hd
    exact ⟨[], rfl, hd⟩

theorem isDot_iff {c : Char} : decide (c ≠ '\n' ∧ c ≠ '\r') = true ↔ IsDot c := decide_eq_true_iff

/-- One more octet in front. -/
theorem derives_octetsPattern {n : Nat} : (octetsPattern (n + 1)).Derives text groups ↔
    ∃ o c rest more, text = o ++ c :: rest ∧ groups = o :: more ∧ IsOctet o ∧ IsDot c ∧
      (octetsPattern n).Derives rest more := by
  rw [octetsPattern]
  constructor
  · rintro ⟨o, _, _, _, rfl, rfl, ho, _, rest, _, more, rfl, rfl, ⟨⟨c, rfl, hc⟩, rfl⟩, hrest⟩
    obtain ⟨rfl, hoctet⟩ := derives_octet.1 ho
    exact ⟨o, c, rest, more, rfl, rfl, hoctet, isDot_iff.1 hc, hrest⟩
  · rintro ⟨o, c, rest, more, rfl, rfl, ho, hc, hrest⟩
    exact ⟨o, c :: rest, [o], more, rfl, rfl, derives_octet.2 ⟨rfl, ho⟩, [c], rest, [], more, rfl,
      rfl, ⟨⟨c, rfl, isDot_iff.2 hc⟩, rfl⟩, hrest⟩

/-- **What the parser accepts.** -/
theorem accepts_iff : (ipv4Pattern.fullMatch text).isSome = true ↔ FourGroups text := by
  rw [isSome_fullMatch]
  constructor
  · rintro ⟨groups, hd⟩
    obtain ⟨a, x, _, _, rfl, -, ha, hx, hd⟩ := derives_octetsPattern.1 hd
    obtain ⟨b, y, _, _, rfl, -, hb, hy, hd⟩ := derives_octetsPattern.1 hd
    obtain ⟨c, z, d, _, rfl, -, hc, hz, hd⟩ := derives_octetsPattern.1 hd
    exact ⟨a, b, c, d, x, y, z, ⟨ha, hb, hc, (derives_octet.1 hd).2⟩, ⟨hx, hy, hz⟩, rfl⟩
  · rintro ⟨a, b, c, d, x, y, z, ⟨ha, hb, hc, hd⟩, ⟨hx, hy, hz⟩, rfl⟩
    exact ⟨[a, b, c, d], derives_octetsPattern.2 ⟨a, x, _, _, rfl, rfl, ha, hx,
      derives_octetsPattern.2 ⟨b, y, _, _, rfl, rfl, hb, hy,
        derives_octetsPattern.2 ⟨c, z, _, _, rfl, rfl, hc, hz, derives_octet.2 ⟨rfl, hd⟩⟩⟩⟩⟩

/-! ## Dotted quads -/

theorem IsOctet.dot_notMem (h : IsOctet text) : '.' ∉ text := fun hm => by
  have := h.2 '.' hm
  revert this
  decide

/-- Only separators can be dots. -/
theorem count_dot_le {n : Nat} (h : (octetsPattern n).Derives text groups) :
    text.count '.' ≤ n := by
  induction n generalizing text groups with
  | zero => exact Nat.le_of_eq (List.count_eq_zero.2 (derives_octet.1 h).2.dot_notMem)
  | succ n ih =>
    obtain ⟨o, c, rest, more, rfl, rfl, ho, -, hrest⟩ := derives_octetsPattern.1 h
    have hone : (c :: rest).count '.' ≤ rest.count '.' + 1 := by
      rw [List.count_cons]
      split <;> omega
    rw [List.count_append, List.count_eq_zero.2 ho.dot_notMem]
    have := ih hrest
    omega

/-- Between dots there is one way to match. -/
theorem derives_join {n : Nat} {groups' : List (List Char)} (hlen : groups.length = n + 1)
    (h : ∀ g ∈ groups, IsOctet g) (hd : (octetsPattern n).Derives (join '.' groups) groups') :
    groups' = groups := by
  induction n generalizing groups groups' with
  | zero =>
    obtain ⟨g, rfl⟩ := List.length_eq_one_iff.1 hlen
    rw [join, List.intercalate_singleton] at hd
    exact (derives_octet.1 hd).1
  | succ n ih =>
    obtain ⟨g, rest, rfl⟩ := List.exists_cons_of_length_eq_add_one hlen
    have hmore : rest.length = n + 1 := by simpa using hlen
    obtain ⟨hg, hrest⟩ := List.forall_mem_cons.1 h
    have hjoin : join '.' (g :: rest) = g ++ '.' :: join '.' rest := by
      obtain ⟨g', rest, rfl⟩ := List.exists_cons_of_length_eq_add_one hmore
      exact join_cons_cons _ _ _ _
    have hdots : (join '.' rest).count '.' = n := by
      rw [count_join fun g hg => (hrest g hg).dot_notMem, hmore]
      rfl
    obtain ⟨o, c, rest', more, htext, rfl, ho, -, hd⟩ := derives_octetsPattern.1 hd
    have hcount := count_dot_le hd
    rw [hjoin] at htext
    rcases List.append_eq_append_iff.1 htext with ⟨front, rfl, hfront⟩ | ⟨front, rfl, hfront⟩
    · cases front with
      | nil =>
        obtain ⟨rfl, rfl⟩ := List.cons.inj hfront
        rw [List.append_nil, ih hmore hrest hd]
      | cons x front =>
        -- the octet goes on behind the group, so it has the dot
        rw [List.cons_append] at hfront
        obtain ⟨rfl, -⟩ := List.cons.inj hfront
        exact absurd (List.mem_append_right g List.mem_cons_self) ho.dot_notMem
    · cases front with
      | nil =>
        obtain ⟨rfl, rfl⟩ := List.cons.inj hfront
        rw [List.append_nil, ih hmore hrest hd]
      | cons x front =>
        -- it ends inside the group, so too many dots are left
        rw [List.cons_append] at hfront
        obtain ⟨rfl, rfl⟩ := List.cons.inj hfront
        rw [List.count_append, List.count_cons_self, hdots] at hcount
        omega

theorem derives_of_octets {n : Nat} (hlen : groups.length = n + 1) (h : ∀ g ∈ groups, IsOctet g) :
    (octetsPattern n).Derives (join '.' groups) groups := by
  induction n generalizing groups with
  | zero =>
    obtain ⟨g, rfl⟩ := List.length_eq_one_iff.1 hlen
    rw [join, List.intercalate_singleton]
    exact derives_octet.2 ⟨rfl, h g List.mem_cons_self⟩
  | succ n ih =>
    obtain ⟨g, rest, rfl⟩ := List.exists_cons_of_length_eq_add_one hlen
    have hlen : rest.length = n + 1 := by simpa using hlen
    obtain ⟨hg, hrest⟩ := List.forall_mem_cons.1 h
    refine derives_octetsPattern.2 ⟨g, '.', join '.' rest, rest, ?_, rfl, hg,
      ⟨by decide, by decide⟩, ih hlen hrest⟩
    obtain ⟨g', rest, rfl⟩ := List.exists_cons_of_length_eq_add_one hlen
    exact join_cons_cons _ _ _ _

/-- The groups that are matched in a dotted text. -/
theorem fullMatch_quad (hlen : groups.length = 4) (h : ∀ g ∈ groups, IsOctet g) :
    ipv4Pattern.fullMatch (join '.' groups) = some groups :=
  fullMatch_eq_some (derives_of_octets hlen h) fun _ hd => derives_join hlen h hd

/-! ## Octets -/

theorem ofDigitChars_eq_value (h : ∀ c ∈ text, c.isDigit = true) :
    Nat.ofDigitChars 10 text 0 = value 10 text := by
  rw [Nat.ofDigitChars_eq_foldl, value]
  refine List.foldl_ext _ _ _ fun n c hc => ?_
  rw [digit, if_pos (h c hc)]
  rfl

/-- One octet more. -/
theorem toNat_shift_or (res : UInt32) (o : UInt8) (h : res.toNat < 2 ^ 24) :
    ((res <<< 8) ||| o.toUInt32).toNat = 2 ^ 8 * res.toNat + o.toNat := by
  have hshift : (res <<< 8).toNat = 2 ^ 8 * res.toNat := by
    rw [UInt32.toNat_shiftLeft, Nat.shiftLeft_eq]
    simp
    omega
  rw [UInt32.toNat_or, hshift, UInt8.toNat_toUInt32, ← Nat.two_pow_add_eq_or_of_lt o.toNat_lt]

/-- A byte cut out of a word. -/
theorem byte_of_word (num : Nat) (k : Nat) :
    (num &&& (0xff <<< k)) >>> k % 2 ^ 8 = num / 2 ^ k % 2 ^ 8 := by
  rw [Nat.shiftRight_and_distrib, Nat.shiftLeft_shiftRight, Nat.and_two_pow_sub_one_eq_mod _ 8,
    Nat.mod_mod, Nat.shiftRight_eq_div_pow]

theorem toOctets_map_toNat (num : UInt32) : (toOctets num).map UInt8.toNat =
    [num.toNat / 2 ^ 24 % 2 ^ 8, num.toNat / 2 ^ 16 % 2 ^ 8, num.toNat / 2 ^ 8 % 2 ^ 8,
      num.toNat / 2 ^ 0 % 2 ^ 8] := by
  simp only [← byte_of_word]
  rfl

/-! ## The parser -/

/-- The parser does with the text what it should: a dotted quad gives its numbers as octets, and
anything else is refused. -/
def ParsesQuad (text : String) : Prop :=
  match parseIPv4Address text with
  | .ok ip => DottedQuad text.toList ((toOctets ip).map UInt8.toNat)
  | .error fault => fault = .badRepresentation ∧ ∀ numbers, ¬ DottedQuad text.toList numbers

theorem matchOctets_eq_fullMatch (text : List Char) :
    matchOctets 4 text = ipv4Pattern.fullMatch text := matchOctets_eq 3 text

theorem DottedQuad.fourGroups {numbers : List Nat} (h : DottedQuad text numbers) :
    FourGroups text := by
  obtain ⟨groups, hlen, hgroups, rfl, -⟩ := h
  rw [← accepts_iff, fullMatch_quad hlen fun g hg => (hgroups g hg).1]
  rfl

/-- A text with four groups gives an address. -/
theorem exists_of_fourGroups {s : String} (h : FourGroups s.toList) :
    ∃ ip, parseIPv4Address s = .ok ip := by
  obtain ⟨groups, hg⟩ := Option.isSome_iff_exists.1 (accepts_iff.2 h)
  exact ⟨_, by rw [parseIPv4Address, matchOctets_eq_fullMatch, hg]⟩

theorem refused_of_not_fourGroups {s : String} (h : ¬ FourGroups s.toList) :
    parseIPv4Address s = .error .badRepresentation := by
  rw [← accepts_iff, Bool.not_eq_true, Option.isSome_eq_false_iff, Option.isNone_iff_eq_none] at h
  rw [parseIPv4Address, matchOctets_eq_fullMatch, h]

/-- **A dotted quad gives its numbers.** -/
theorem parse_quad {s : String} {numbers : List Nat} (h : DottedQuad s.toList numbers) :
    ∃ ip, parseIPv4Address s = .ok ip ∧ (toOctets ip).map UInt8.toNat = numbers := by
  obtain ⟨groups, hlen, hgroups, htext, rfl⟩ := h
  have hmatch := fullMatch_quad hlen fun g hg => (hgroups g hg).1
  refine ⟨_, by rw [parseIPv4Address, matchOctets_eq_fullMatch, htext, hmatch], ?_⟩
  have hoctet : ∀ g ∈ groups, (UInt8.ofNat (Nat.ofDigitChars 10 g 0)).toNat = value 10 g := by
    intro g hg
    rw [ofDigitChars_eq_value (hgroups g hg).1.2]
    exact UInt8.toNat_ofNat_of_lt' (Nat.lt_succ_of_le (hgroups g hg).2)
  have hvalue : ∀ g ∈ groups, value 10 g ≤ 255 := fun g hg => (hgroups g hg).2
  obtain ⟨a, b, c, d, rfl⟩ : ∃ a b c d, groups = [a, b, c, d] := by
    rcases groups with _ | ⟨a, _ | ⟨b, _ | ⟨c, _ | ⟨d, _ | ⟨e, groups⟩⟩⟩⟩⟩
    all_goals simp at hlen
    exact ⟨a, b, c, d, rfl⟩
  simp only [List.forall_mem_cons] at hoctet hvalue
  obtain ⟨ha, hb, hc, hd, -⟩ := hoctet
  simp only [List.foldl_cons, List.foldl_nil]
  have h₁ := toNat_shift_or 0 (UInt8.ofNat (Nat.ofDigitChars 10 a 0)) (by decide)
  rw [ha, UInt32.toNat_zero] at h₁
  have h₂ := toNat_shift_or _ (UInt8.ofNat (Nat.ofDigitChars 10 b 0)) (by rw [h₁]; omega)
  rw [h₁, hb] at h₂
  have h₃ := toNat_shift_or _ (UInt8.ofNat (Nat.ofDigitChars 10 c 0)) (by rw [h₂]; omega)
  rw [h₂, hc] at h₃
  have h₄ := toNat_shift_or _ (UInt8.ofNat (Nat.ofDigitChars 10 d 0)) (by rw [h₃]; omega)
  rw [h₃, hd] at h₄
  rw [toOctets_map_toNat, h₄]
  simp only [List.map_cons, List.map_nil, List.cons.injEq, and_true]
  omega

/-- **Which texts the parser treats right**: dotted quads, and those that are not four groups of one
to three digits with any characters between them. -/
theorem parsesQuad_iff (text : String) : ParsesQuad text ↔
    (∃ numbers, DottedQuad text.toList numbers) ∨ ¬ FourGroups text.toList := by
  constructor
  · intro h
    by_contra hno
    rw [not_or, not_not] at hno
    obtain ⟨ip, hip⟩ := exists_of_fourGroups hno.2
    rw [ParsesQuad, hip] at h
    exact hno.1 ⟨_, h⟩
  · rintro (⟨numbers, hq⟩ | hno)
    · obtain ⟨ip, hip, hoctets⟩ := parse_quad hq
      rw [ParsesQuad, hip]
      show DottedQuad _ _
      rw [hoctets]
      exact hq
    · rw [ParsesQuad, refused_of_not_fourGroups hno]
      exact ⟨rfl, fun numbers hq => hno hq.fourGroups⟩

/-- `1a2b3c4` -/
theorem letters_accepted : ¬ ∀ text : String, ParsesQuad text := by
  intro h
  let s := String.ofList ['1', 'a', '2', 'b', '3', 'c', '4']
  have hs : s.toList = ['1', 'a', '2', 'b', '3', 'c', '4'] := String.toList_ofList
  have hoctet : ∀ c : Char, c.isDigit = true → IsOctet [c] :=
    fun c hc => ⟨⟨Nat.le_refl 1, by simp⟩, by simpa⟩
  have hfour : FourGroups s.toList := ⟨['1'], ['2'], ['3'], ['4'], 'a', 'b', 'c',
    ⟨hoctet _ rfl, hoctet _ rfl, hoctet _ rfl, hoctet _ rfl⟩,
    ⟨⟨by decide, by decide⟩, ⟨by decide, by decide⟩, ⟨by decide, by decide⟩⟩, hs⟩
  obtain ⟨ip, hip⟩ := exists_of_fourGroups hfour
  have hquad := h s
  rw [ParsesQuad, hip] at hquad
  obtain ⟨groups, hlen, hgroups, htext, -⟩ := hquad
  -- there is no dot
  have hcount := count_join fun g hg => (hgroups g hg).1.dot_notMem
  rw [← htext, hs, hlen] at hcount
  exact absurd hcount (by decide)

end IPv4Addr
