import Mathlib.Logic.Basic

/-!
# Announcements

A stream in which things are announced to come up and to go down. `Live l k`: the latest
announcement about `k` in `l` is that it is up. `Alternating l`: for every thing the announcements
alternate, the first being that it is up. Streams are lists with the latest announcement first.
-/

inductive Signal (κ : Type)
  | up (k : κ)
  | down (k : κ)
  deriving DecidableEq, Repr

namespace Signal

variable {κ : Type}

/-- What is announced. -/
def subject : Signal κ → κ
  | .up k | .down k => k

def Live : List (Signal κ) → κ → Prop
  | [], _ => False
  | .up k' :: l, k => k = k' ∨ Live l k
  | .down k' :: l, k => k ≠ k' ∧ Live l k

def Alternating : List (Signal κ) → Prop
  | [] => True
  | .up k :: l => ¬ Live l k ∧ Alternating l
  | .down k :: l => Live l k ∧ Alternating l

instance decidableLive [DecidableEq κ] : ∀ (l : List (Signal κ)) (k : κ), Decidable (Live l k)
  | [], _ => .isFalse id
  | .up k' :: l, k =>
    have : Decidable (Live l k) := decidableLive l k
    inferInstanceAs (Decidable (k = k' ∨ Live l k))
  | .down k' :: l, k =>
    have : Decidable (Live l k) := decidableLive l k
    inferInstanceAs (Decidable (k ≠ k' ∧ Live l k))

instance decidableAlternating [DecidableEq κ] : DecidablePred (Alternating (κ := κ))
  | [] => .isTrue trivial
  | .up k :: l =>
    have : Decidable (Alternating l) := decidableAlternating l
    inferInstanceAs (Decidable (¬ Live l k ∧ Alternating l))
  | .down k :: l =>
    have : Decidable (Alternating l) := decidableAlternating l
    inferInstanceAs (Decidable (Live l k ∧ Alternating l))

@[simp] theorem live_nil (k : κ) : ¬ Live [] k := id

@[simp] theorem live_up {l : List (Signal κ)} {k k' : κ} :
    Live (.up k' :: l) k ↔ k = k' ∨ Live l k := Iff.rfl

@[simp] theorem live_down {l : List (Signal κ)} {k k' : κ} :
    Live (.down k' :: l) k ↔ k ≠ k' ∧ Live l k := Iff.rfl

theorem Live.mem {l : List (Signal κ)} {k : κ} (h : Live l k) : .up k ∈ l := by
  induction l with
  | nil => exact absurd h (live_nil k)
  | cons x l ih =>
    cases x with
    | up k' =>
      rcases live_up.1 h with rfl | h
      · exact List.mem_cons_self
      · exact List.mem_cons_of_mem _ (ih h)
    | down k' => exact List.mem_cons_of_mem _ (ih (live_down.1 h).2)

instance [DecidableEq κ] (l : List (Signal κ)) (P : κ → Prop) [DecidablePred P] :
    Decidable (∀ k, Live l k → P k) :=
  decidable_of_iff (∀ x ∈ l, Live l x.subject → P x.subject)
    ⟨fun h _ hk => h _ hk.mem hk, fun h _ _ hx => h _ hx⟩

end Signal
