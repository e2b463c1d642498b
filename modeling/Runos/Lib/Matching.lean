import Mathlib.Data.List.Perm.Basic

/-!
# Matching one list against another

`matching same old new` goes through `old` once: each element takes away the first element of `new`
that is the same, and is kept, or finds none, and is dropped. When sameness is equality of keys, the
three results are, key by key, the minimum and the two truncated differences of the counts.
-/

variable {α β κ : Type}

/-- What is kept and dropped of the old list, and what is left of the new one. -/
structure Matching (α β : Type) where
  kept : List α
  dropped : List α
  rest : List β

def matching (same : β → α → Bool) : List α → List β → Matching α β
  | [], new => ⟨[], [], new⟩
  | a :: old, new =>
    if new.any (same · a) then
      let m := matching same old (new.eraseP (same · a))
      { m with kept := a :: m.kept }
    else
      let m := matching same old new
      { m with dropped := a :: m.dropped }

section
variable (same : β → α → Bool)

theorem kept_sublist (old : List α) (new : List β) : (matching same old new).kept.Sublist old := by
  induction old generalizing new with
  | nil => exact .slnil
  | cons a old ih =>
    simp only [matching]
    split
    · exact (ih _).cons_cons a
    · exact (ih _).cons a

theorem dropped_sublist (old : List α) (new : List β) :
    (matching same old new).dropped.Sublist old := by
  induction old generalizing new with
  | nil => exact .slnil
  | cons a old ih =>
    simp only [matching]
    split
    · exact (ih _).cons a
    · exact (ih _).cons_cons a

theorem rest_sublist (old : List α) (new : List β) : (matching same old new).rest.Sublist new := by
  induction old generalizing new with
  | nil => exact .refl new
  | cons a old ih =>
    simp only [matching]
    split
    · exact (ih _).trans List.eraseP_sublist
    · exact ih _

/-- Every element of the old list is kept or dropped. -/
theorem kept_append_dropped_perm (old : List α) (new : List β) :
    ((matching same old new).kept ++ (matching same old new).dropped).Perm old := by
  induction old generalizing new with
  | nil => exact .nil
  | cons a old ih =>
    simp only [matching]
    split
    · exact (ih _).cons a
    · exact List.perm_middle.trans ((ih _).cons a)

end

section
variable {same : β → α → Bool} {key : α → κ} {key' : β → κ}
  (hsame : ∀ b a, same b a = true ↔ key' b = key a)
include hsame

theorem any_same (a : α) (new : List β) : new.any (same · a) = true ↔ key a ∈ new.map key' := by
  simp only [List.any_eq_true, hsame, List.mem_map]

variable [DecidableEq κ]

theorem map_eraseP_same (a : α) (new : List β) :
    (new.eraseP (same · a)).map key' = (new.map key').erase (key a) := by
  rw [List.erase_eq_eraseP, List.eraseP_map]
  congr 2
  funext b
  rw [Function.comp_apply, Bool.eq_iff_iff, hsame, beq_iff_eq, eq_comm]

theorem matching_counts (old : List α) (new : List β) (k : κ) :
    ((matching same old new).kept.map key).count k =
        min ((old.map key).count k) ((new.map key').count k) ∧
      ((matching same old new).dropped.map key).count k =
        (old.map key).count k - (new.map key').count k ∧
      ((matching same old new).rest.map key').count k =
        (new.map key').count k - (old.map key).count k := by
  induction old generalizing new with
  | nil => simp [matching]
  | cons a old ih =>
    simp only [matching]
    by_cases ha : key a ∈ new.map key'
    · obtain ⟨hkept, hdropped, hrest⟩ := ih (new.eraseP (same · a))
      rw [map_eraseP_same hsame, List.count_erase] at hkept hdropped hrest
      have hpos := List.count_pos_iff.2 ha
      rw [if_pos ((any_same hsame a new).2 ha)]
      simp only [List.map_cons, List.count_cons, hkept, hdropped, hrest, beq_iff_eq]
      by_cases hk : key a = k
      · rw [hk] at hpos
        simp only [hk, if_true]
        omega
      · simp only [hk, if_false]
        omega
    · obtain ⟨hkept, hdropped, hrest⟩ := ih new
      have hzero := List.count_eq_zero.2 ha
      rw [if_neg (fun h => ha ((any_same hsame a new).1 h))]
      simp only [List.map_cons, List.count_cons, hkept, hdropped, hrest, beq_iff_eq]
      by_cases hk : key a = k
      · rw [hk] at hzero
        simp only [hk, if_true]
        omega
      · simp only [hk, if_false]
        omega

/-- What is kept and what is left over make up the new list. -/
theorem matching_perm (old : List α) (new : List β) :
    ((matching same old new).kept.map key ++ (matching same old new).rest.map key').Perm
      (new.map key') := by
  rw [List.perm_iff_count]
  intro k
  obtain ⟨hkept, -, hrest⟩ := matching_counts hsame old new k
  rw [List.count_append, hkept, hrest]
  omega

end
