import Mathlib.Data.List.Basic
import Mathlib.Data.List.Count
import Mathlib.Tactic.Common

/-!
# Texts of parts with a separator

`[sep].intercalate parts` under the operations of lists (`join_append`, `join_replicate`), what it is
when every part carries its separator with it (`trailing_eq`, `leading_eq`), and its number of
separators (`count_join`).
-/

namespace Separated

variable {α : Type} {sep : α} {l m : List (List α)}

/-- The parts with a separator between them. -/
abbrev join (sep : α) (parts : List (List α)) : List α := [sep].intercalate parts

theorem join_cons_cons (sep : α) (x y : List α) (l : List (List α)) :
    join sep (x :: y :: l) = x ++ sep :: join sep (y :: l) := by
  rw [join, List.intercalate_cons_cons, List.append_assoc]
  rfl

theorem join_append (hl : l ≠ []) (hm : m ≠ []) :
    join sep (l ++ m) = join sep l ++ sep :: join sep m := by
  induction l with
  | nil => exact absurd rfl hl
  | cons x l ih =>
    cases l with
    | nil =>
      rw [List.singleton_append, join, List.intercalate_cons_of_ne_nil hm, List.append_assoc, join,
        List.intercalate_singleton]
      rfl
    | cons y l =>
      have hrest := ih (List.cons_ne_nil y l)
      rw [List.cons_append] at hrest ⊢
      rw [List.cons_append, join_cons_cons, hrest, join_cons_cons, List.append_assoc]
      rfl

/-- Empty parts. -/
theorem join_replicate (sep : α) (k : Nat) :
    join sep (List.replicate (k + 1) []) = List.replicate k sep := by
  induction k with
  | zero => exact List.intercalate_singleton
  | succ k ih =>
    rw [List.replicate_succ, List.replicate_succ, join_cons_cons, ← List.replicate_succ, ih]
    rfl

/-- A separator behind every part. -/
theorem trailing_eq (hl : l ≠ []) : (l.map (· ++ [sep])).flatten = join sep l ++ [sep] := by
  induction l with
  | nil => exact absurd rfl hl
  | cons x l ih =>
    cases l with
    | nil => simp
    | cons y l =>
      rw [List.map_cons, List.flatten_cons, ih (List.cons_ne_nil y l), join_cons_cons]
      simp

/-- A separator in front of every part. -/
theorem leading_eq (hl : l ≠ []) : (l.map (sep :: ·)).flatten = sep :: join sep l := by
  induction l with
  | nil => exact absurd rfl hl
  | cons x l ih =>
    cases l with
    | nil => simp
    | cons y l =>
      rw [List.map_cons, List.flatten_cons, ih (List.cons_ne_nil y l), join_cons_cons]
      simp

variable [DecidableEq α]

/-- The separators are those between the parts. -/
theorem count_join (h : ∀ x ∈ l, sep ∉ x) : (join sep l).count sep = l.length - 1 := by
  induction l with
  | nil => rfl
  | cons x l ih =>
    have hx : x.count sep = 0 := List.count_eq_zero.2 (h x List.mem_cons_self)
    cases l with
    | nil => rw [join, List.intercalate_singleton, hx]; rfl
    | cons y l =>
      have hrest := ih fun z hz => h z (List.mem_cons_of_mem _ hz)
      rw [join_cons_cons, List.count_append, hx, List.count_cons_self, hrest]
      simp

end Separated
