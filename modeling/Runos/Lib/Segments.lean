import Mathlib.Data.List.Basic

/-!
# Segments that a terminator ends

A text is cut at every occurrence of a terminator: `terminated` lists the segments that are ended by
one, `rest` is what follows the last one. A text that comes in parts is cut the same way when the
rest of each part is put in front of the next (`terminated_append`, `rest_append`).
-/

namespace Segments

variable {α : Type} [DecidableEq α] {a : α}

/-- The segments ended by `a`, without it. -/
def terminated (a : α) (s : List α) : List (List α) := (s.splitOn a).dropLast

/-- What follows the last `a`. -/
def rest (a : α) (s : List α) : List α := (s.splitOn a).getLast (List.splitOn_ne_nil a s)

theorem terminated_of_notMem {s : List α} (h : a ∉ s) : terminated a s = [] := by
  rw [terminated, List.splitOn_eq_singleton h]
  rfl

theorem rest_of_notMem {s : List α} (h : a ∉ s) : rest a s = s := by
  simp only [rest, List.splitOn_eq_singleton h, List.getLast_singleton]

theorem terminated_append_cons (s t : List α) :
    terminated a (s ++ a :: t) = terminated a s ++ rest a s :: terminated a t := by
  rw [terminated, List.splitOn_append_cons_self,
    List.dropLast_append_of_ne_nil (List.splitOn_ne_nil a t)]
  show s.splitOn a ++ terminated a t = _
  rw [← List.dropLast_concat_getLast (List.splitOn_ne_nil a s), List.append_assoc]
  rfl

theorem rest_append_cons (s t : List α) : rest a (s ++ a :: t) = rest a t := by
  simp only [rest, List.splitOn_append_cons_self]
  exact List.getLast_append_of_ne_nil _ (List.splitOn_ne_nil a t)

/-- A text is without the terminator, or starts with a segment that one ends. -/
@[elab_as_elim]
theorem induction_on {P : List α → Prop} (s : List α) (unended : ∀ s, a ∉ s → P s)
    (ended : ∀ s t, a ∉ s → P t → P (s ++ a :: t)) : P s := by
  induction hn : s.length using Nat.strongRecOn generalizing s with
  | _ n ih =>
    by_cases h : a ∈ s
    · obtain ⟨u, t, rfl, hu⟩ := List.eq_append_cons_of_mem h
      have ht : t.length < n := by
        rw [← hn, List.length_append, List.length_cons]
        omega
      exact ended u t hu (ih t.length ht t rfl)
    · exact unended s h

theorem notMem_rest (s : List α) : a ∉ rest a s := by
  induction s using induction_on (a := a) with
  | unended s h => rwa [rest_of_notMem h]
  | ended s t _ ih => rwa [rest_append_cons]

/-- The segments of a text in two parts. -/
theorem terminated_append (s t : List α) :
    terminated a (s ++ t) = terminated a s ++ terminated a (rest a s ++ t) := by
  induction s using induction_on (a := a) with
  | unended s h => rw [terminated_of_notMem h, rest_of_notMem h, List.nil_append]
  | ended s u h ih =>
    rw [List.append_assoc, List.cons_append, terminated_append_cons, ih, terminated_append_cons,
      rest_append_cons, List.append_assoc, List.cons_append]

theorem rest_append (s t : List α) : rest a (s ++ t) = rest a (rest a s ++ t) := by
  induction s using induction_on (a := a) with
  | unended s h => rw [rest_of_notMem h]
  | ended s u h ih =>
    rw [List.append_assoc, List.cons_append, rest_append_cons, ih, rest_append_cons]

end Segments
