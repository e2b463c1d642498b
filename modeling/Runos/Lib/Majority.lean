import Mathlib.Data.Finset.Card
import Mathlib.Data.Fintype.Basic
import Mathlib.Data.List.Sort
import Mathlib.Data.List.Nodup

/-!
# Majorities of a list of members

A majority of `members` is a set of at least `members.length / 2 + 1` of them. Two majorities
share a member. `countP_majority` turns a count over records of the members into a majority, and
`sorted_index_majority` reads one off the middle of a list of values sorted in descending order. The
members can be places of a list (`card_places`, `isMajority_places`).
-/

namespace Majority

variable {ι : Type} [DecidableEq ι]

/-- `Q` is a majority of `members`. -/
structure IsMajority (members : List ι) (Q : Finset ι) : Prop where
  subset : ∀ q ∈ Q, q ∈ members
  card : members.length / 2 + 1 ≤ Q.card

theorem IsMajority.inter {members : List ι} {Q Q' : Finset ι}
    (h : IsMajority members Q) (h' : IsMajority members Q') : ∃ q ∈ Q, q ∈ Q' := by
  have hs : Q ⊆ members.toFinset := fun q hq => List.mem_toFinset.2 (h.subset q hq)
  have hs' : Q' ⊆ members.toFinset := fun q hq => List.mem_toFinset.2 (h'.subset q hq)
  have hc : members.toFinset.card ≤ members.length := List.toFinset_card_le _
  have h1 := h.card
  have h2 := h'.card
  obtain ⟨q, hq⟩ := Finset.inter_nonempty_of_card_lt_card_add_card hs hs' (by omega)
  exact ⟨q, (Finset.mem_inter.1 hq).1, (Finset.mem_inter.1 hq).2⟩

/-- The members whose records in `l` have a property that more than half of the records have. -/
theorem countP_majority {β : Type} {l : List β} {f : β → ι} (hnd : (l.map f).Nodup) {p : β → Bool}
    (h : l.length / 2 + 1 ≤ l.countP p) :
    IsMajority (l.map f) ((l.filter p).map f).toFinset := by
  have hsub : ((l.filter p).map f).Sublist (l.map f) := List.filter_sublist.map f
  refine ⟨fun q hq => hsub.subset (List.mem_toFinset.1 hq), ?_⟩
  rw [List.toFinset_card_of_nodup (hsub.nodup hnd), List.length_map, List.length_map,
    ← List.countP_eq_length_filter]
  exact h

/-! ## Places of a list -/

/-- Counting the places of a list that have a property. -/
theorem card_places {β : Type} (l : List β) (p : β → Prop) [DecidablePred p] :
    (Finset.univ.filter fun i : Fin l.length => p l[i]).card = l.countP (p ·) := by
  have hplaces : (Finset.univ.filter fun i : Fin l.length => p l[i]).card =
      (List.finRange l.length).countP ((fun b => decide (p b)) ∘ (l[·.1])) := by
    rw [Finset.card_def, Finset.filter_val, ← Multiset.countP_eq_card_filter, Finset.val_univ_fin,
      Multiset.coe_countP]
    rfl
  rw [hplaces, ← List.countP_map, List.map_getElem_finRange]

/-- More than half of the places. -/
theorem isMajority_places {n : Nat} {Q : Finset (Fin n)} (h : n / 2 + 1 ≤ Q.card) :
    IsMajority (List.finRange n) Q where
  subset q _ := List.mem_finRange q
  card := by rwa [List.length_finRange]

/-! ## The middle of a sorted list -/

/-- In a list sorted in descending order, `k + 1` values are at least the one at position `k`. -/
theorem lt_countP_of_sorted : ∀ {l : List Nat} {k v : Nat}, l.Pairwise (· ≥ ·) → l[k]? = some v →
    k + 1 ≤ l.countP (v ≤ ·)
  | [], _, _, _, h => by simp at h
  | a :: l, 0, v, _, h => by
    simp only [List.getElem?_cons_zero, Option.some.injEq] at h
    simp [h]
  | a :: l, k + 1, v, hp, h => by
    simp only [List.getElem?_cons_succ] at h
    have ih := lt_countP_of_sorted (List.pairwise_cons.1 hp).2 h
    have hv : v ≤ a := (List.pairwise_cons.1 hp).1 v (List.mem_of_getElem? h)
    rw [List.countP_cons_of_pos (by simpa using hv)]
    omega

/-- In a list sorted in descending order, at most `k` values exceed the one at position `k`. -/
theorem countP_le_of_sorted : ∀ {l : List Nat} {k v w : Nat}, l.Pairwise (· ≥ ·) →
    l[k]? = some v → v < w → l.countP (w ≤ ·) ≤ k
  | [], _, _, _, _, h, _ => by simp at h
  | a :: l, 0, v, w, hp, h, hw => by
    simp only [List.getElem?_cons_zero, Option.some.injEq] at h
    have hz : (a :: l).countP (w ≤ ·) = 0 := by
      rw [List.countP_eq_zero]
      intro x hx
      rcases List.mem_cons.1 hx with rfl | hx
      · simp; omega
      · have := (List.pairwise_cons.1 hp).1 x hx
        simp; omega
    omega
  | a :: l, k + 1, v, w, hp, h, hw => by
    simp only [List.getElem?_cons_succ] at h
    have ih := countP_le_of_sorted (List.pairwise_cons.1 hp).2 h hw
    have := List.countP_cons (p := fun x => decide (w ≤ x)) (a := a) (l := l)
    rw [this]
    split <;> omega

/-- The value at the middle of the values sorted in descending order is reached by a majority of
them, and no larger value is. -/
theorem sorted_index_majority {l : List Nat} {v : Nat}
    (h : (l.insertionSort (· ≥ ·))[l.length / 2]? = some v) :
    l.length / 2 + 1 ≤ l.countP (v ≤ ·) ∧ ∀ w, v < w → l.countP (w ≤ ·) ≤ l.length / 2 := by
  have hp := List.perm_insertionSort (· ≥ ·) l
  have hs := List.pairwise_insertionSort (· ≥ ·) l
  refine ⟨?_, fun w hw => ?_⟩
  · rw [← hp.countP_eq]
    exact lt_countP_of_sorted hs h
  · rw [← hp.countP_eq]
    exact countP_le_of_sorted hs h hw

end Majority
