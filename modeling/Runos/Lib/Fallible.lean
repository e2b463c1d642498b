import Mathlib.Tactic.Common

/-!
# Computations that may throw

The rules of `Except` that take a computation apart: it has returned when each of its parts has
(`bind_ok`, `bind_eq_ok`, `exists_bind_ok`, `mapError_ok`), and what it throws is thrown by one of
its parts (`Throws.bind`).
-/

namespace Fallible

variable {ε α β : Type} {x : Except ε α} {f : α → Except ε β} {P : ε → Prop}

theorem bind_ok {b : β} (h : x >>= f = .ok b) : ∃ a, x = .ok a ∧ f a = .ok b := by
  cases x with
  | error e => cases h
  | ok a => exact ⟨a, rfl, h⟩

theorem bind_eq_ok {b : β} : x >>= f = .ok b ↔ ∃ a, x = .ok a ∧ f a = .ok b := by
  refine ⟨bind_ok, fun h => ?_⟩
  obtain ⟨a, rfl, h⟩ := h
  exact h

theorem exists_bind_ok : (∃ b, x >>= f = .ok b) ↔ ∃ a, x = .ok a ∧ ∃ b, f a = .ok b := by
  simp only [bind_eq_ok, ← exists_and_left]
  exact exists_comm

theorem not_exists_error (e : ε) : ¬ ∃ a : α, (.error e : Except ε α) = .ok a := by
  rintro ⟨a, h⟩
  cases h

theorem mapError_ok {φ : Type} {g : ε → φ} {a : α} (h : x.mapError g = .ok a) : x = .ok a := by
  cases x with
  | error e => cases h
  | ok a' => cases h; rfl

/-- What is there, or an exception. -/
def orThrow (e : ε) : Option α → Except ε α
  | none => .error e
  | some a => .ok a

/-! ## What is thrown -/

def Throws (x : Except ε α) (P : ε → Prop) : Prop := ∀ e, x = .error e → P e

theorem Throws.ok (a : α) : Throws (.ok a) P := fun _ h => by cases h

theorem Throws.pure (a : α) : Throws (Pure.pure a : Except ε α) P := fun _ h => by cases h

theorem Throws.error {e : ε} (h : P e) : Throws (.error e : Except ε α) P := by
  intro e' he
  cases he
  exact h

theorem Throws.bind (hx : Throws x P) (hf : ∀ a, Throws (f a) P) : Throws (x >>= f) P := by
  intro e h
  cases x with
  | error e' =>
    cases h
    exact hx e rfl
  | ok a => exact hf a e h

/-- What comes after may use what `x` has returned. -/
theorem Throws.bind_of_ok (hx : Throws x P) (hf : ∀ a, x = .ok a → Throws (f a) P) :
    Throws (x >>= f) P := by
  intro e h
  cases x with
  | error e' =>
    cases h
    exact hx e rfl
  | ok a => exact hf a rfl e h

theorem Throws.mono {Q : ε → Prop} (h : Throws x P) (hPQ : ∀ e, P e → Q e) : Throws x Q :=
  fun e he => hPQ e (h e he)

theorem Throws.foldlM {γ : Type} {g : β → γ → Except ε β} (h : ∀ b c, Throws (g b c) P)
    (l : List γ) (b : β) : Throws (l.foldlM g b) P := by
  induction l generalizing b with
  | nil => exact Throws.pure b
  | cons c l ih => exact (h b c).bind ih

end Fallible
