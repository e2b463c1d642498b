import Mathlib.Data.List.Basic

/-!
# Lists

Counting and searching in lists, where Mathlib has no lemma.
-/

namespace List

variable {α β γ : Type}

/-- Fewer satisfy a stronger condition, when an element tells the two apart. -/
theorem countP_lt {p q : α → Bool} {l : List α} {y : α} (h : ∀ x ∈ l, p x → q x) (hy : y ∈ l)
    (hq : q y) (hp : ¬ p y) : l.countP p < l.countP q := by
  obtain ⟨l₁, l₂, rfl⟩ := append_of_mem hy
  have h₁ : l₁.countP p ≤ l₁.countP q := countP_mono_left fun x hx => h x (mem_append_left _ hx)
  have h₂ : l₂.countP p ≤ l₂.countP q :=
    countP_mono_left fun x hx => h x (mem_append_right _ (mem_cons_of_mem _ hx))
  rw [countP_append, countP_append, countP_cons_of_neg hp, countP_cons_of_pos hq]
  omega

theorem countP_eraseIdx (p : α → Bool) :
    ∀ (l : List α) (j : Nat), l.countP p = (l.eraseIdx j).countP p + if l[j]?.any p then 1 else 0
  | [], _ => rfl
  | a :: l, 0 => by simp [countP_cons]
  | a :: l, j + 1 => by
    rw [eraseIdx_cons_succ, countP_cons, countP_cons, getElem?_cons_succ, countP_eraseIdx p l j]
    omega

theorem findSome?_filterMap (f : α → Option β) (g : β → Option γ) (l : List α) :
    (l.filterMap f).findSome? g = l.findSome? fun x => (f x).bind g := by
  induction l with
  | nil => rfl
  | cons x l ih =>
    cases hx : f x with
    | none => simp [hx, ih]
    | some y =>
      rw [filterMap_cons_some hx, findSome?_cons, findSome?_cons, hx, ih]
      rfl

end List
