import Mathlib.Data.List.Find

/-!
# Rules by priority

A table of prioritised rules is a list; `IsTop` says which rule decides: one that matches, with
the highest priority among those that do. In a list ordered by increasing priority this is the last
match (`isTop_iff_lastMatch`), and last matches compose along the list (`lastMatch_append`,
`lastMatch_flatMap`).
-/

namespace Priority

variable {α β : Type} {p : α → Bool} {l l' : List α} {r : α}

/-- The rule matches, and no rule that does has a higher priority. -/
def IsTop (prio : α → Nat) (p : α → Bool) (l : List α) (r : α) : Prop :=
  r ∈ l ∧ p r = true ∧ ∀ r' ∈ l, p r' = true → prio r' ≤ prio r

/-- The last rule of the list that matches. -/
def lastMatch (p : α → Bool) (l : List α) : Option α := l.reverse.find? p

@[simp] theorem lastMatch_nil : lastMatch p [] = none := rfl

@[simp] theorem lastMatch_singleton (r : α) :
    lastMatch p [r] = if p r then some r else none := by
  simp [lastMatch, List.find?_singleton]

@[simp] theorem lastMatch_append :
    lastMatch p (l ++ l') = (lastMatch p l').or (lastMatch p l) := by
  simp [lastMatch, List.find?_append]

theorem lastMatch_eq_none : lastMatch p l = none ↔ ∀ r ∈ l, p r = false := by
  simp [lastMatch]

theorem lastMatch_congr {p' : α → Bool} (h : ∀ r ∈ l, p r = p' r) :
    lastMatch p l = lastMatch p' l :=
  List.find?_congr fun r hr => h r (List.mem_reverse.1 hr)

theorem of_lastMatch (h : lastMatch p l = some r) : r ∈ l ∧ p r = true :=
  ⟨List.mem_reverse.1 (List.mem_of_find?_eq_some h), List.find?_some h⟩

theorem lastMatch_map (f : β → α) (l : List β) :
    lastMatch p (l.map f) = (lastMatch (p ∘ f) l).map f := by
  rw [lastMatch, ← List.map_reverse, List.find?_map]; rfl

theorem lastMatch_filterMap (g : β → Option α) (l : List β) :
    lastMatch p (l.filterMap g) = (lastMatch (fun r => (g r).any p) l).bind g := by
  rw [lastMatch, ← List.filterMap_reverse, List.find?_filterMap]; rfl

/-- Blocks of rules of which only that of `k` can match. -/
theorem lastMatch_flatMap [DecidableEq β] {g : β → List α} {ks : List β} {k : β}
    (h : ∀ k' ∈ ks, k' ≠ k → lastMatch p (g k') = none) :
    lastMatch p (ks.flatMap g) = if k ∈ ks then lastMatch p (g k) else none := by
  induction ks with
  | nil => rfl
  | cons k' ks ih =>
    have ih' := ih fun k'' hk'' => h k'' (List.mem_cons_of_mem _ hk'')
    rw [List.flatMap_cons, lastMatch_append, ih']
    by_cases hk : k' = k
    · subst hk
      by_cases hm : k' ∈ ks <;> simp [hm]
    · rw [h k' List.mem_cons_self hk]
      simp [Ne.symm hk]

theorem isTop_iff_lastMatch {prio : α → Nat} (hl : l.Pairwise (prio · < prio ·)) :
    IsTop prio p l r ↔ lastMatch p l = some r := by
  constructor
  · rintro ⟨hr, hp, hmax⟩
    obtain ⟨as, bs, rfl⟩ := List.append_of_mem hr
    have hbs : lastMatch p bs = none := by
      rw [lastMatch_eq_none]
      intro r' hr'
      have hlt : prio r < prio r' := by
        have := (List.pairwise_append.1 hl).2.1
        exact (List.pairwise_cons.1 this).1 r' hr'
      by_contra hc
      have := hmax r' (by simp [hr']) (by simpa using hc)
      omega
    rw [← List.singleton_append, lastMatch_append, lastMatch_append, hbs, lastMatch_singleton, hp]
    rfl
  · intro h
    obtain ⟨hp, as, bs, hl', hbs⟩ := List.find?_eq_some_iff_append.1 h
    have hl'' : l = bs.reverse ++ r :: as.reverse := by
      rw [← List.reverse_reverse l, hl']; simp
    subst hl''
    refine ⟨by simp, hp, fun r' hr' hp' => ?_⟩
    rcases List.mem_append.1 hr' with hm | hm
    · exact Nat.le_of_lt ((List.pairwise_append.1 hl).2.2 r' hm r List.mem_cons_self)
    · rcases List.mem_cons.1 hm with rfl | hm
      · exact Nat.le_refl _
      · have := hbs r' (List.mem_reverse.1 hm)
        rw [hp'] at this; cases this

/-- Of the rules that match, one is highest. -/
theorem exists_isTop {prio : α → Nat} (h : ∃ r ∈ l, p r = true) : ∃ r, IsTop prio p l r := by
  induction l with
  | nil => obtain ⟨r, hr, -⟩ := h; cases hr
  | cons a l ih =>
    by_cases hl : ∃ r ∈ l, p r = true
    · obtain ⟨r, hr, hp, hmax⟩ := ih hl
      by_cases ha : p a = true ∧ prio r ≤ prio a
      · refine ⟨a, List.mem_cons_self, ha.1, fun r' hr' hp' => ?_⟩
        rcases List.mem_cons.1 hr' with rfl | hr'
        · exact Nat.le_refl _
        · exact (hmax r' hr' hp').trans ha.2
      · refine ⟨r, List.mem_cons_of_mem _ hr, hp, fun r' hr' hp' => ?_⟩
        rcases List.mem_cons.1 hr' with rfl | hr'
        · exact Nat.le_of_not_le fun hle => ha ⟨hp', hle⟩
        · exact hmax r' hr' hp'
    · obtain ⟨r, hr, hp⟩ := h
      rcases List.mem_cons.1 hr with rfl | hr
      · refine ⟨r, List.mem_cons_self, hp, fun r' hr' hp' => ?_⟩
        rcases List.mem_cons.1 hr' with rfl | hr'
        · exact Nat.le_refl _
        · exact absurd ⟨r', hr', hp'⟩ hl
      · exact absurd ⟨r, hr, hp⟩ hl

end Priority
