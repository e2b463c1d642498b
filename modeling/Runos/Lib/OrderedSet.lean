import Mathlib.Data.List.Sort

/-!
# Ordered sets with iterators

`OrderedSet β key` is a set of values ordered by `key`, two values with equal keys being the same
to it, in which every value sits in a node of its own. An iterator is the number of a node, and the
number of an erased node is never used again, so an iterator whose node is gone is told from one to
a later node: `find` gives `none` for it.

What is proved of a program that keeps iterators is proved through `find` (`find_insert`,
`insert_of_mem`, `find_erase`); the order only says what `begin?` is (`begin?_le`).
-/

structure OrderedSet (β : Type) {κ : Type} [LinearOrder κ] (key : β → κ) where
  nodes : List (Nat × β)
  next : Nat
  sorted : nodes.Pairwise fun a b => key a.2 < key b.2
  fresh : ∀ a ∈ nodes, a.1 < next
  nodup : (nodes.map Prod.fst).Nodup

namespace OrderedSet

variable {β κ : Type} [LinearOrder κ] {key : β → κ}

def empty : OrderedSet β key where
  nodes := []
  next := 0
  sorted := .nil
  fresh := by simp
  nodup := .nil

/-- The value an iterator refers to. -/
def find (s : OrderedSet β key) (it : Nat) : Option β :=
  (s.nodes.find? (·.1 == it)).map Prod.snd

def size (s : OrderedSet β key) : Nat := s.nodes.length

/-- The node with the least key. -/
def begin? (s : OrderedSet β key) : Option (Nat × β) := s.nodes.head?

/-- The order of the nodes. -/
def before (key : β → κ) (a b : Nat × β) : Prop := key a.2 ≤ key b.2

instance : DecidableRel (before key) := fun _ _ => inferInstanceAs (Decidable (_ ≤ _))

theorem pairwise_orderedInsert {a : Nat × β} :
    ∀ {l : List (Nat × β)}, l.Pairwise (fun a b => key a.2 < key b.2) →
      (∀ b ∈ l, key b.2 ≠ key a.2) →
      (l.orderedInsert (before key) a).Pairwise fun a b => key a.2 < key b.2
  | [], _, _ => by simp
  | b :: l, hl, hne => by
    obtain ⟨hb, hl⟩ := List.pairwise_cons.1 hl
    have hba : key b.2 ≠ key a.2 := hne b List.mem_cons_self
    rw [List.orderedInsert_cons]
    split
    · rename_i hab
      have hlt : key a.2 < key b.2 := lt_of_le_of_ne hab hba.symm
      refine List.pairwise_cons.2 ⟨fun c hc => ?_, List.pairwise_cons.2 ⟨hb, hl⟩⟩
      rcases List.mem_cons.1 hc with rfl | hc
      · exact hlt
      · exact hlt.trans (hb c hc)
    · rename_i hab
      refine List.pairwise_cons.2 ⟨fun c hc => ?_, ?_⟩
      · rcases (List.mem_orderedInsert _).1 hc with rfl | hc
        · exact lt_of_not_ge hab
        · exact hb c hc
      · exact pairwise_orderedInsert hl fun c hc => hne c (List.mem_cons_of_mem _ hc)

/-- The set with a new value, and its iterator; the iterator of the value that is there when one
has the same key. -/
def insert (s : OrderedSet β key) (b : β) : OrderedSet β key × Nat :=
  match h : s.nodes.find? fun a => decide (key a.2 = key b) with
  | some a => (s, a.1)
  | none =>
    ({ nodes := s.nodes.orderedInsert (before key) (s.next, b)
       next := s.next + 1
       sorted := by
        refine pairwise_orderedInsert s.sorted fun a ha => ?_
        simpa using List.find?_eq_none.1 h a ha
       fresh := by
        intro a ha
        rcases (List.mem_orderedInsert _).1 ha with rfl | ha
        · exact Nat.lt_succ_self _
        · exact (s.fresh a ha).trans (Nat.lt_succ_self _)
       nodup := by
        rw [((List.perm_orderedInsert _ _ _).map Prod.fst).nodup_iff, List.map_cons,
          List.nodup_cons]
        refine ⟨fun hm => ?_, s.nodup⟩
        obtain ⟨a, ha, hn⟩ := List.mem_map.1 hm
        exact absurd (s.fresh a ha) (by rw [hn]; exact Nat.lt_irrefl _) }, s.next)

def erase (s : OrderedSet β key) (it : Nat) : OrderedSet β key where
  nodes := s.nodes.filter (·.1 != it)
  next := s.next
  sorted := s.sorted.filter _
  fresh a ha := s.fresh a (List.mem_of_mem_filter ha)
  nodup := s.nodup.sublist (List.filter_sublist.map Prod.fst)

/-! ## Iterators -/

section
variable {s : OrderedSet β key} {it j : Nat} {b c : β}

theorem find_eq_some : s.find it = some b ↔ (it, b) ∈ s.nodes := by
  unfold find
  constructor
  · intro h
    obtain ⟨⟨i, c⟩, hf, rfl⟩ := Option.map_eq_some_iff.1 h
    have hi : i = it := by simpa using List.find?_some hf
    subst hi
    exact List.mem_of_find?_eq_some hf
  · intro h
    cases hf : s.nodes.find? (·.1 == it) with
    | none =>
      have := List.find?_eq_none.1 hf _ h
      simp at this
    | some a =>
      have ha : a.1 = it := by simpa using List.find?_some hf
      have heq : a = (it, b) :=
        List.inj_on_of_nodup_map s.nodup (List.mem_of_find?_eq_some hf) h ha
      rw [heq]
      rfl

/-- No iterator has the number of a later node. -/
theorem lt_next (h : s.find it = some b) : it < s.next := s.fresh _ (find_eq_some.1 h)

@[simp] theorem find_empty : (empty : OrderedSet β key).find it = none := rfl

/-- Two values with one key are one. -/
theorem find_inj (hb : s.find it = some b) (hc : s.find j = some c) (hk : key b = key c) :
    it = j ∧ b = c := by
  rw [find_eq_some] at hb hc
  have hkeys : (s.nodes.map fun a => key a.2).Nodup :=
    List.pairwise_map.2 (s.sorted.imp fun h => h.ne)
  exact Prod.mk.inj (List.inj_on_of_nodup_map hkeys hb hc hk)

/-! ## Operations -/

theorem insert_of_mem (hc : s.find it = some c) (hk : key c = key b) : s.insert b = (s, it) := by
  unfold insert
  split
  · rename_i a ha
    have hm : s.find a.1 = some a.2 := find_eq_some.2 (List.mem_of_find?_eq_some ha)
    have hka : key a.2 = key b := by simpa using List.find?_some ha
    rw [(find_inj hm hc (hka.trans hk.symm)).1]
  · rename_i h
    exact absurd hk (by simpa using List.find?_eq_none.1 h _ (find_eq_some.1 hc))

/-- A value with a new key gets a new iterator. -/
theorem find_insert (h : ∀ j c, s.find j = some c → key c ≠ key b) :
    (s.insert b).2 = s.next ∧ (s.insert b).1.next = s.next + 1 ∧
    ∀ j, (s.insert b).1.find j = if j = s.next then some b else s.find j := by
  have hnone : s.nodes.find? (fun a => decide (key a.2 = key b)) = none := by
    refine List.find?_eq_none.2 fun a ha => ?_
    simpa using h a.1 a.2 (find_eq_some.2 ha)
  unfold insert
  split
  · rename_i a ha
    rw [hnone] at ha
    cases ha
  · refine ⟨rfl, rfl, fun j => ?_⟩
    split
    · rename_i hj
      subst hj
      exact find_eq_some.2 ((List.mem_orderedInsert _).2 (.inl rfl))
    · rename_i hj
      apply Option.ext
      intro c
      rw [find_eq_some, find_eq_some]
      simp [List.mem_orderedInsert, hj]

theorem find_erase : (s.erase it).find j = if j = it then none else s.find j := by
  apply Option.ext
  intro c
  rw [find_eq_some]
  by_cases hj : j = it
  · simp [erase, hj]
  · rw [if_neg hj, find_eq_some]
    simp [erase, hj]

theorem find_erase_eq_some : (s.erase it).find j = some b ↔ j ≠ it ∧ s.find j = some b := by
  rw [find_erase]
  by_cases hj : j = it
  · simp [hj]
  · simp [hj]

/-- What holds of every value is what holds of one and of those that are left without it. -/
theorem forall_find_erase {P : β → Prop} (hb : s.find it = some b) :
    (∀ j c, s.find j = some c → P c) ↔ P b ∧ ∀ j c, (s.erase it).find j = some c → P c := by
  constructor
  · intro h
    exact ⟨h it b hb, fun j c hc => h j c (find_erase_eq_some.1 hc).2⟩
  · intro ⟨hPb, h⟩ j c hc
    by_cases hj : j = it
    · subst hj
      cases hb.symm.trans hc
      exact hPb
    · exact h j c (find_erase_eq_some.2 ⟨hj, hc⟩)

theorem size_erase (h : s.find it = some b) : (s.erase it).size < s.size := by
  refine List.length_filter_lt_length_iff_exists.2 ⟨(it, b), find_eq_some.1 h, by simp⟩

theorem begin?_eq_none (h : s.begin? = none) : s.find it = none := by
  have hnil : s.nodes = [] := List.head?_eq_none_iff.1 h
  simp [find, hnil]

theorem find_begin? (h : s.begin? = some (it, b)) : s.find it = some b :=
  find_eq_some.2 (List.mem_of_mem_head? h)

theorem begin?_le (h : s.begin? = some (it, b)) (hc : s.find j = some c) : key b ≤ key c := by
  have hs := s.sorted
  rw [find_eq_some] at hc
  unfold begin? at h
  cases hn : s.nodes with
  | nil => rw [hn] at hc; cases hc
  | cons a l =>
    rw [hn] at h hc hs
    cases h
    rcases List.mem_cons.1 hc with heq | hc
    · cases heq; exact le_refl _
    · exact ((List.pairwise_cons.1 hs).1 _ hc).le

end

end OrderedSet
