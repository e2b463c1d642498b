import Mathlib.Data.List.Lex
import Mathlib.Data.List.Sort

/-!
# Ordered maps

An ordered map as the list of its members in strictly ascending order of their keys. Inserting under
a key that is there replaces the value (`insert`), so that of the members of a list the last with a
key is the one kept (`ofList`); a list that is an ordered map already is kept as it is
(`ofList_of_sorted`).
-/

namespace SortedMap

variable {κ ν : Type} [LinearOrder κ]

def insert (k : κ) (x : ν) : List (κ × ν) → List (κ × ν)
  | [] => [(k, x)]
  | (k', x') :: m =>
    if k < k' then (k, x) :: (k', x') :: m
    else if k = k' then (k, x) :: m
    else (k', x') :: insert k x m

/-- The members of a list, inserted one after the other. -/
def ofList (l : List (κ × ν)) : List (κ × ν) := l.foldl (fun m kx => insert kx.1 kx.2 m) []

def Sorted (m : List (κ × ν)) : Prop := m.Pairwise fun a b => a.1 < b.1

variable {k : κ} {x : ν} {m : List (κ × ν)} {a : κ × ν}

theorem mem_insert (h : a ∈ insert k x m) : a = (k, x) ∨ a ∈ m := by
  induction m with
  | nil => exact .inl (List.mem_singleton.1 h)
  | cons b m ih =>
    rw [insert] at h
    split at h
    · exact List.mem_cons.1 h
    · split at h
      · exact (List.mem_cons.1 h).imp id (List.mem_cons_of_mem _)
      · rcases List.mem_cons.1 h with h | h
        · exact .inr (h ▸ List.mem_cons_self)
        · exact (ih h).imp id (List.mem_cons_of_mem _)

theorem sorted_insert (h : Sorted m) : Sorted (insert k x m) := by
  induction m with
  | nil => exact List.pairwise_singleton _ _
  | cons b m ih =>
    obtain ⟨hb, hm⟩ := List.pairwise_cons.1 h
    rw [insert]
    split
    · rename_i hk
      refine List.pairwise_cons.2 ⟨fun c hc => ?_, h⟩
      rcases List.mem_cons.1 hc with rfl | hc
      · exact hk
      · exact hk.trans (hb c hc)
    · rename_i hk
      split
      · rename_i heq
        exact List.pairwise_cons.2 ⟨fun c hc => heq ▸ hb c hc, hm⟩
      · rename_i hne
        refine List.pairwise_cons.2 ⟨fun c hc => ?_, ih hm⟩
        rcases mem_insert hc with rfl | hc
        · exact lt_of_le_of_ne (not_lt.1 hk) (Ne.symm hne)
        · exact hb c hc

theorem sorted_ofList (l : List (κ × ν)) : Sorted (ofList l) := by
  rw [ofList]
  generalize hm : ([] : List (κ × ν)) = m
  have h : Sorted m := hm ▸ List.Pairwise.nil
  clear hm
  induction l generalizing m with
  | nil => exact h
  | cons a l ih => exact ih _ (sorted_insert h)

theorem mem_ofList {l : List (κ × ν)} (h : a ∈ ofList l) : a ∈ l := by
  suffices hs : ∀ m : List (κ × ν), a ∈ l.foldl (fun m kx => insert kx.1 kx.2 m) m →
      a ∈ m ∨ a ∈ l from (hs [] h).resolve_left List.not_mem_nil
  clear h
  induction l with
  | nil => exact fun m h => .inl h
  | cons b l ih =>
    intro m h
    rcases ih _ h with h | h
    · exact (mem_insert h).elim (fun h => .inr (h ▸ List.mem_cons_self)) .inl
    · exact .inr (List.mem_cons_of_mem _ h)

/-- Inserting under a key above all others appends. -/
theorem insert_of_forall_lt (h : ∀ a ∈ m, a.1 < k) : insert k x m = m ++ [(k, x)] := by
  induction m with
  | nil => rfl
  | cons b m ih =>
    have hb : b.1 < k := h b List.mem_cons_self
    rw [insert, if_neg hb.asymm, if_neg hb.ne', ih fun a ha => h a (List.mem_cons_of_mem _ ha)]
    rfl

theorem ofList_of_sorted (h : Sorted m) : ofList m = m := by
  suffices hs : ∀ l : List (κ × ν), Sorted (l ++ m) →
      m.foldl (fun m kx => insert kx.1 kx.2 m) l = l ++ m from hs [] h
  clear h
  induction m with
  | nil => exact fun l _ => (List.append_nil l).symm
  | cons b m ih =>
    intro l hl
    have hb : ∀ a ∈ l, a.1 < b.1 := fun a ha =>
      (List.pairwise_append.1 hl).2.2 a ha b List.mem_cons_self
    rw [List.append_cons] at hl ⊢
    rw [List.foldl_cons, insert_of_forall_lt hb]
    exact ih _ hl

end SortedMap
