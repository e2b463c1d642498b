import Mathlib.Algebra.Group.Int.Defs
import Mathlib.Algebra.Group.Nat.Defs
import Mathlib.Data.List.TakeWhile
import Mathlib.Tactic.Common

/-!
# Formatted streams of characters

The extraction operators of an input stream in decimal format, over the characters that are still
to be read. An operator skips blanks, takes the characters of its value and leaves the rest; it
ends in a `Failure` when the value is not there or out of range. `Reads p text a`: in front of the
end or of a blank, `p` takes `text` and yields `a`. Values separated by blanks are read one after
the other (`Reads.bind`, `Reads.bind_blank`), so that what an output operator writes can be read
back part by part.
-/

namespace Stream

/-- How an extraction ends without a value. -/
inductive Failure
  /-- the failure of the stream itself -/
  | failbit
  /-- an exception of what the value is put into -/
  | exception
  deriving DecidableEq, Repr

abbrev Extract (α : Type) := StateT (List Char) (Except Failure) α

/-- `isspace` -/
def isSpace (c : Char) : Bool := c == ' ' || decide (9 ≤ c.toNat ∧ c.toNat ≤ 13)

/-- The next word. -/
def word : Extract String := fun text =>
  let text := text.dropWhile isSpace
  let chars := text.takeWhile (!isSpace ·)
  if chars = [] then .error .failbit
  else .ok (String.ofList chars, text.dropWhile (!isSpace ·))

/-- A sign, and the decimal digits that follow. -/
def integer : Extract (Bool × Nat) := fun text =>
  let text := text.dropWhile isSpace
  let (negative, text) := match text with
    | '-' :: rest => (true, rest)
    | '+' :: rest => (false, rest)
    | text => (false, text)
  let digits := text.takeWhile Char.isDigit
  if digits = [] then .error .failbit
  else .ok ((negative, Nat.ofDigitChars 10 digits 0), text.dropWhile Char.isDigit)

/-- An unsigned number; a negative one wraps around. -/
def unsigned (bits : Nat) : Extract Nat := do
  let (negative, n) ← integer
  if 2 ^ bits ≤ n then throw .failbit
  else return if negative then (2 ^ bits - n) % 2 ^ bits else n

/-- A signed number. -/
def signed (bits : Nat) : Extract Int := do
  let (negative, n) ← integer
  let value : Int := if negative then -n else n
  if -2 ^ (bits - 1) ≤ value ∧ value < 2 ^ (bits - 1) then return value
  else throw .failbit

/-- A truth value, as a number. -/
def bool : Extract Bool := do
  let (negative, n) ← integer
  if n = 0 then return false
  else if n = 1 ∧ negative = false then return true
  else throw .failbit

/-- The output of a number. -/
def showNat (n : Nat) : List Char := Nat.toDigits 10 n

/-- The output of a truth value. -/
def showBool (b : Bool) : List Char := if b then ['1'] else ['0']

/-! ## What is read back -/

variable {α β : Type} {p : Extract α} {k : α → Extract β} {text u : List Char} {a : α} {b : β}

/-- Nothing, or a blank first. -/
def Ends (rest : List Char) : Prop := ∀ c ∈ rest.head?, isSpace c = true

def Reads (p : Extract α) (text : List Char) (a : α) : Prop :=
  ∀ rest, Ends rest → p (text ++ rest) = .ok (a, rest)

/-- The operator skips a blank. -/
def Blanks (p : Extract α) : Prop := ∀ c rest, isSpace c = true → p (c :: rest) = p rest

theorem Ends.nil : Ends [] := by simp [Ends]

theorem Ends.blank {c : Char} (hc : isSpace c = true) (rest : List Char) : Ends (c :: rest) := by
  simpa [Ends] using hc

theorem Ends.append {rest : List Char} (hu : Ends u) (hr : Ends rest) : Ends (u ++ rest) := by
  cases u with
  | nil => exact hr
  | cons c u => simpa [Ends] using hu

theorem Reads.pure (a : α) : Reads (pure a) [] a := fun _ _ => rfl

theorem Reads.blank (hp : Blanks p) {c : Char} (hc : isSpace c = true) (h : Reads p text a) :
    Reads p (c :: text) a := fun rest hr => (hp c _ hc).trans (h rest hr)

/-- One value after another. -/
theorem Reads.bind (h : Reads p text a) (hu : Ends u) (hk : Reads (k a) u b) :
    Reads (p >>= k) (text ++ u) b := by
  intro rest hr
  rw [List.append_assoc]
  show (p (text ++ (u ++ rest)) >>= fun r => k r.1 r.2) = _
  rw [h _ (hu.append hr)]
  exact hk rest hr

/-- One value after another, with a blank between them. -/
theorem Reads.bind_blank (h : Reads p text a) (hb : Blanks (k a)) (hk : Reads (k a) u b) :
    Reads (p >>= k) (text ++ ' ' :: u) b :=
  h.bind (.blank rfl u) (hk.blank hb rfl)

/-- The last value. -/
theorem Reads.bind_last (h : Reads p text a) (hk : Reads (k a) [] b) : Reads (p >>= k) text b := by
  have := h.bind .nil hk
  rwa [List.append_nil] at this

theorem Blanks.bind (hp : Blanks p) (k : α → Extract β) : Blanks (p >>= k) := by
  intro c rest hc
  show (p (c :: rest) >>= fun r => k r.1 r.2) = p rest >>= fun r => k r.1 r.2
  rw [hp c rest hc]

theorem blanks_word : Blanks word := by
  intro c rest hc
  simp only [word, List.dropWhile_cons_of_pos hc]

theorem blanks_integer : Blanks integer := by
  intro c rest hc
  simp only [integer, List.dropWhile_cons_of_pos hc]

theorem blanks_unsigned (bits : Nat) : Blanks (unsigned bits) := blanks_integer.bind _

theorem blanks_bool : Blanks bool := blanks_integer.bind _

/-! ## Failures -/

/-- The operator ends in the failure of the stream, if it fails. -/
def Safe (p : Extract α) : Prop := ∀ text, p text ≠ .error .exception

theorem Safe.pure (a : α) : Safe (pure a : Extract α) := fun _ h => by cases h

theorem Safe.throw_failbit : Safe (throw .failbit : Extract α) := fun _ h => by cases h

theorem Safe.bind (hp : Safe p) (hk : ∀ a, Safe (k a)) : Safe (p >>= k) := by
  intro text h
  change (p text >>= fun r => k r.1 r.2) = _ at h
  cases hr : p text with
  | error e =>
    rw [hr] at h
    cases h
    exact hp text hr
  | ok r =>
    rw [hr] at h
    exact hk r.1 r.2 h

theorem Safe.ite {c : Prop} [Decidable c] {q : Extract α} (hp : Safe p) (hq : Safe q) :
    Safe (if c then p else q) := by
  split
  · exact hp
  · exact hq

theorem safe_word : Safe word := by
  intro text h
  simp only [word] at h
  split at h <;> cases h

theorem safe_integer : Safe integer := by
  intro text h
  simp only [integer] at h
  -- the sign, then the digits
  split at h
  all_goals
    split at h <;> cases h

theorem safe_unsigned (bits : Nat) : Safe (unsigned bits) :=
  safe_integer.bind fun _ => .ite .throw_failbit (.pure _)

theorem safe_signed (bits : Nat) : Safe (signed bits) :=
  safe_integer.bind fun _ => .ite (.pure _) .throw_failbit

theorem safe_bool : Safe bool :=
  safe_integer.bind fun _ => .ite (.pure _) (.ite (.pure _) .throw_failbit)

/-- An unsigned number is in range. -/
theorem unsigned_lt {bits n : Nat} {rest : List Char} (h : unsigned bits text = .ok (n, rest)) :
    n < 2 ^ bits := by
  change (integer text >>= _) = _ at h
  cases hr : integer text with
  | error e => rw [hr] at h; cases h
  | ok r =>
    rw [hr] at h
    obtain ⟨⟨negative, m⟩, rest'⟩ := r
    change (if 2 ^ bits ≤ m then throw .failbit else _ : Extract Nat) rest' = _ at h
    split at h
    · cases h
    · rename_i hlt
      cases h
      split
      · exact Nat.mod_lt _ (Nat.two_pow_pos bits)
      · exact Nat.lt_of_not_le hlt

/-- `p` is `q`, but for an exception when the length that `len` reads is beyond its limit. -/
def Limited (p q : Extract α) (len : Extract (Nat × Nat)) : Prop :=
  ∀ text, p text = match len text with
    | .ok ((n, limit), _) => if limit < n then .error .exception else q text
    | .error _ => q text

theorem Limited.refl (p : Extract α) : Limited p p (pure (0, 0)) := fun _ => rfl

theorem Limited.bind_left {p q : α → Extract β} {len : α → Extract (Nat × Nat)} (x : Extract α)
    (h : ∀ a, Limited (p a) (q a) (len a)) : Limited (x >>= p) (x >>= q) (x >>= len) := by
  intro text
  change (x text >>= fun r => p r.1 r.2) = match (x text >>= fun r => len r.1 r.2) with
    | .ok ((n, limit), _) => if limit < n then .error .exception
        else x text >>= fun r => q r.1 r.2
    | .error _ => x text >>= fun r => q r.1 r.2
  cases x text with
  | error e => rfl
  | ok r => exact h r.1 r.2

theorem Limited.bind_right {p q : Extract α} {len : Extract (Nat × Nat)} (h : Limited p q len)
    (k : α → Extract β) : Limited (p >>= k) (q >>= k) len := by
  intro text
  change (p text >>= fun r => k r.1 r.2) = match len text with
    | .ok ((n, limit), _) => if limit < n then .error .exception
        else q text >>= fun r => k r.1 r.2
    | .error _ => q text >>= fun r => k r.1 r.2
  rw [h text]
  split
  · split <;> rfl
  · rfl

/-! ## Characters -/

theorem isSpace_of_isDigit {c : Char} (h : c.isDigit = true) : isSpace c = false := by
  simp only [Char.isDigit, ge_iff_le, Bool.and_eq_true, decide_eq_true_eq, UInt32.le_iff_toNat_le]
    at h
  have hlow : 48 ≤ c.toNat := h.1
  have hne : c ≠ ' ' := by
    intro heq
    subst heq
    exact absurd hlow (by decide)
  simp [isSpace, hne]
  omega

theorem isDigit_of_isSpace {c : Char} (h : isSpace c = true) : c.isDigit = false := by
  cases hd : c.isDigit with
  | false => rfl
  | true => rw [isSpace_of_isDigit hd] at h; cases h

/-- Characters up to a point where the next one is not such. -/
theorem takeWhile_append_of_ends {q : Char → Bool} (text rest : List Char)
    (h : ∀ c ∈ text, q c = true) (hr : ∀ c ∈ rest.head?, q c = false) :
    (text ++ rest).takeWhile q = text ∧ (text ++ rest).dropWhile q = rest := by
  have htake : rest.takeWhile q = [] ∧ rest.dropWhile q = rest := by
    cases rest with
    | nil => exact ⟨rfl, rfl⟩
    | cons c rest =>
      have hc := hr c rfl
      simp [hc]
  rw [List.takeWhile_append_of_pos h, List.dropWhile_append_of_pos h, htake.1, htake.2]
  simp

theorem dropWhile_isSpace_of_head {text : List Char} (h : ∀ c ∈ text.head?, isSpace c = false) :
    text.dropWhile isSpace = text := by
  cases text with
  | nil => rfl
  | cons c text =>
    have hc := h c rfl
    simp [hc]

/-! ## Values -/

/-- A text that is one word. -/
def IsWord (w : String) : Prop := w.toList ≠ [] ∧ ∀ c ∈ w.toList, isSpace c = false

instance : DecidablePred IsWord := fun w =>
  decidable_of_iff ((!w.toList.isEmpty && w.toList.all (!isSpace ·)) = true) (by simp [IsWord])

theorem reads_word {w : String} (h : IsWord w) : Reads word w.toList w := by
  intro rest hr
  obtain ⟨c, cs, hcs⟩ := List.exists_cons_of_ne_nil h.1
  have hdrop : (w.toList ++ rest).dropWhile isSpace = w.toList ++ rest := by
    refine dropWhile_isSpace_of_head fun d hd => ?_
    rw [hcs] at hd
    cases hd
    exact h.2 c (by rw [hcs]; exact List.mem_cons_self)
  obtain ⟨htake, hrest⟩ := takeWhile_append_of_ends (q := (!isSpace ·)) w.toList rest
    (by simpa using h.2) fun c hc => by simp [hr c hc]
  simp only [word, hdrop, htake, hrest, if_neg h.1, String.ofList_toList]

theorem isDigit_of_mem_showNat {n : Nat} {c : Char} (h : c ∈ showNat n) : c.isDigit = true :=
  Nat.isDigit_of_mem_toDigits (by decide) (by decide) h

theorem reads_integer (n : Nat) : Reads integer (showNat n) (false, n) := by
  intro rest hr
  have hdigits : ∀ c ∈ showNat n, c.isDigit = true := fun c => isDigit_of_mem_showNat
  obtain ⟨c, cs, hcs⟩ := List.exists_cons_of_ne_nil (Nat.toDigits_ne_nil (n := n) (b := 10))
  have hc : c.isDigit = true := hdigits c (by rw [showNat, hcs]; exact List.mem_cons_self)
  have hdrop : (showNat n ++ rest).dropWhile isSpace = showNat n ++ rest := by
    refine dropWhile_isSpace_of_head fun d hd => ?_
    rw [showNat, hcs] at hd
    cases hd
    exact isSpace_of_isDigit hc
  obtain ⟨htake, hrest⟩ := takeWhile_append_of_ends (showNat n) rest hdigits
    fun c hc => isDigit_of_isSpace (hr c hc)
  have hsign : (match showNat n ++ rest with
      | '-' :: rest => (true, rest)
      | '+' :: rest => (false, rest)
      | text => (false, text)) = (false, showNat n ++ rest) := by
    rw [showNat, hcs, List.cons_append]
    split
    · rename_i heq; cases heq; exact absurd hc (by decide)
    · rename_i heq; cases heq; exact absurd hc (by decide)
    · rfl
  simp only [integer, hdrop, hsign, htake, hrest]
  rw [if_neg (by rw [showNat, hcs]; simp), showNat, Nat.ofDigitChars_ten_toDigits]

theorem reads_unsigned {bits n : Nat} (h : n < 2 ^ bits) : Reads (unsigned bits) (showNat n) n := by
  refine (reads_integer n).bind_last ?_
  simp only [if_neg (Nat.not_le.2 h), Bool.false_eq_true, if_false]
  exact .pure n

theorem reads_bool (b : Bool) : Reads bool (showBool b) b := by
  cases b with
  | false => exact (reads_integer 0).bind_last (.pure false)
  | true => exact (reads_integer 1).bind_last (.pure true)

end Stream
