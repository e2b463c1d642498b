import Mathlib.Data.List.AList

/-!
# Tables

Hash tables as association lists without repeated keys (`AList`), whose values all have one type.
-/

/-- A table of values. -/
abbrev Table (κ ν : Type) := AList fun _ : κ => ν

namespace Table

variable {κ ν ν' : Type} [DecidableEq κ]

/-- The values, changed all alike. -/
def mapValues (f : ν → ν') (t : Table κ ν) : Table κ ν' where
  entries := t.entries.map fun x => ⟨x.1, f x.2⟩
  nodupKeys := List.NodupKeys.map₂ (fun _ => f) _ t.nodupKeys

@[simp]
theorem lookup_mapValues (f : ν → ν') (t : Table κ ν) (k : κ) :
    AList.lookup k (mapValues f t) = (AList.lookup k t).map f :=
  List.dlookup_map₂ (f := fun _ => f) k

/-- The values that pass. -/
def filter (p : ν → Bool) (t : Table κ ν) : Table κ ν where
  entries := t.entries.filter fun x => p x.2
  nodupKeys := List.NodupKeys.sublist List.filter_sublist t.nodupKeys

theorem lookup_filter (p : ν → Bool) (t : Table κ ν) (k : κ) :
    AList.lookup k (filter p t) = (AList.lookup k t).filter p := by
  refine Option.ext fun x => ?_
  have hmem : ∀ t : Table κ ν, AList.lookup k t = some x ↔ ⟨k, x⟩ ∈ t.entries := fun t =>
    AList.mem_lookup_iff
  rw [hmem, Option.filter_eq_some_iff, hmem]
  exact List.mem_filter

/-- Inserting, seen from any key. -/
theorem lookup_insert_eq (t : Table κ ν) (k k' : κ) (x : ν) :
    AList.lookup k' (t.insert k x) = if k' = k then some x else AList.lookup k' t := by
  split
  · rename_i h
    subst h
    exact AList.lookup_insert t
  · rename_i h
    exact AList.lookup_insert_ne h

/-- Erasing, seen from any key. -/
theorem lookup_erase_eq (t : Table κ ν) (k k' : κ) :
    AList.lookup k' (t.erase k) = if k' = k then none else AList.lookup k' t := by
  split
  · rename_i h
    subst h
    exact AList.lookup_erase k' t
  · rename_i h
    exact AList.lookup_erase_ne h

end Table
