import Runos.Oxm.Adapter
import Runos.Oxm.Proof.FieldSet

/-!
# When a field set is canonical

A field set that stores no wildcard is determined by what it returns (`Proper.eq_iff`). Every call
keeps this but one: `modify` with a wildcard patch stores the patch if the set has no entry of its
type, and what the set returns stays the same (`apply_of_not_keeps`). So all sets that two sequences
of calls go through are canonical, and no message gets a field with an empty mask, exactly when
there is no such call (`field_set_canonical`).
-/

namespace Oxm

namespace FieldSet

variable {τ : Type} [WireType τ] [DecidableEq τ] {t : τ} {x y s : FieldSet τ}
  {calls calls₁ calls₂ : List (Call τ)}

/-- The sets return the same for every mask. -/
def SameLoads (x y : FieldSet τ) : Prop := ∀ (t : τ) (m : Mask t), x.load m = y.load m

/-- The call does not add an entry that is a wildcard. -/
def Call.Keeps (s : FieldSet τ) : Call τ → Prop
  | .modify (t := t) patch => patch.wildcard = false ∨ (s.lookup t).isSome = true
  | .erase _ => True
  | .clear => True

instance (s : FieldSet τ) : DecidablePred (Call.Keeps s)
  | .modify (t := t) patch =>
    inferInstanceAs (Decidable (patch.wildcard = false ∨ (s.lookup t).isSome = true))
  | .erase _ => instDecidableTrue
  | .clear => instDecidableTrue

/-- The set is one that the calls go through. -/
def Reached (calls : List (Call τ)) (s : FieldSet τ) : Prop :=
  ∃ past, past <+: calls ∧ s = run past

/-- No call adds a wildcard. -/
def KeepsAll (calls : List (Call τ)) : Prop :=
  ∀ past call, past ++ [call] <+: calls → call.Keeps (run past)

/-! ## Sets without wildcards -/

theorem sameLoads_iff : SameLoads x y ↔ ∀ t i, x.get t i = y.get t i := by
  refine ⟨fun h t i => ?_, fun h t m => ?_⟩
  · by_cases hi : i < OxmType.nbits t
    · have hload := congrArg (Field.get · i) (h t (.exact t))
      simpa [get_load, Mask.exact, hi] using hload
    · have hnone : ∀ z : FieldSet τ, z.get t i = none := by
        intro z
        rw [get]
        cases z.lookup t with
        | none => rfl
        | some f => exact f.get_eq_none_of_le (Nat.le_of_not_lt hi)
      rw [hnone, hnone]
  · refine Field.ext_get fun i => ?_
    rw [get_load, get_load, h]

theorem Proper.lookup_of_get (hx : x.Proper) (h : ∀ i, x.get t i = y.get t i)
    {f : Field t} (hf : x.lookup t = some f) : y.lookup t = some f := by
  cases hg : y.lookup t with
  | none =>
    -- then `f` fixes no bit
    refine absurd (Field.wildcard_iff.2 fun i => ?_) (hx t f hf)
    rw [← get_of_lookup hf, h, get, hg]
    rfl
  | some g =>
    have hfg : g = f := Field.ext_get fun i => by
      rw [← get_of_lookup hf, ← get_of_lookup hg, h]
    rw [hfg]

/-- **Sets without wildcards are equal when they return the same.** -/
theorem Proper.eq_iff (hx : x.Proper) (hy : y.Proper) : x = y ↔ SameLoads x y := by
  constructor
  · rintro rfl t m
    rfl
  · intro h
    rw [sameLoads_iff] at h
    refine Finmap.ext_lookup fun t => Option.ext fun f => ⟨fun hf => ?_, fun hf => ?_⟩
    · exact hx.lookup_of_get (h t) hf
    · exact hy.lookup_of_get (fun i => (h t i).symm) hf

theorem proper_iff_entries : s.Proper ↔ ∀ f ∈ s.entries, f.2.wildcard = false := by
  refine ⟨fun h f hf => ?_, fun h t f hf => ?_⟩
  · exact Bool.eq_false_iff.2 (h f.1 f.2 (Finmap.lookup_eq_some_iff.2 hf))
  · exact Bool.eq_false_iff.1 (h ⟨t, f⟩ (Finmap.lookup_eq_some_iff.1 hf))

/-- The adapters have a bit in their masks. -/
theorem proper_iff_adapters : s.Proper ↔ ∀ a ∈ adapters s, a.2.field.mask.bits ≠ 0#_ := by
  rw [proper_iff_entries]
  refine ⟨fun h a ha => ?_, fun h f hf => ?_⟩
  · obtain ⟨f, hf, rfl⟩ := Multiset.mem_map.1 ha
    have hmask := h f hf
    rw [Field.wildcard, Mask.wildcard, beq_eq_false_iff_ne] at hmask
    exact hmask
  · have hmask := h _ (Multiset.mem_map_of_mem _ hf)
    rw [Field.wildcard, Mask.wildcard, beq_eq_false_iff_ne]
    exact hmask

/-! ## One call -/

theorem Proper.modify_of_isSome (hs : s.Proper) (patch : Field t)
    (h : (s.lookup t).isSome = true) : (s.modify patch).Proper := by
  obtain ⟨f, hf⟩ := Option.isSome_iff_exists.1 h
  intro t' g hg
  by_cases ht : t' = t
  · subst ht
    rw [FieldSet.modify, Finmap.lookup_insert, hf] at hg
    cases hg
    -- a bit that the entry fixes stays fixed
    intro hw
    refine hs t' f hf (Field.wildcard_iff.2 fun i => ?_)
    have hi := Field.wildcard_iff.1 hw i
    rw [Option.getD_some, Field.get_rewrite, Option.or_eq_none_iff] at hi
    exact hi.2
  · rw [FieldSet.modify, Finmap.lookup_insert_of_ne _ ht] at hg
    exact hs t' g hg

theorem Proper.erase (hs : s.Proper) (m : Mask t) : (s.erase m).Proper := by
  intro t' g hg
  rw [FieldSet.erase] at hg
  split at hg
  · exact hs t' g hg
  · split at hg
    · by_cases ht : t' = t
      · subst ht
        rw [Finmap.lookup_erase] at hg
        cases hg
      · rw [Finmap.lookup_erase_ne ht] at hg
        exact hs t' g hg
    · rename_i hw
      by_cases ht : t' = t
      · subst ht
        rw [Finmap.lookup_insert] at hg
        cases hg
        exact hw
      · rw [Finmap.lookup_insert_of_ne _ ht] at hg
        exact hs t' g hg

theorem proper_empty : (∅ : FieldSet τ).Proper := by
  intro t f hf
  rw [Finmap.lookup_empty] at hf
  cases hf

/-- A call that adds no wildcard leaves none. -/
theorem Proper.apply (hs : s.Proper) {c : Call τ} (hc : c.Keeps s) : (c.apply s).Proper := by
  cases c with
  | modify patch =>
    rcases hc with hw | hstored
    · exact hs.modify (Bool.eq_false_iff.1 hw)
    · exact hs.modify_of_isSome patch hstored
  | erase mask => exact hs.erase mask
  | clear => exact proper_empty

/-- A wildcard that is added: the set is another one, but returns the same. -/
theorem apply_of_not_keeps {c : Call τ} (hc : ¬ c.Keeps s) :
    c.apply s ≠ s ∧ SameLoads (c.apply s) s ∧ ¬ (c.apply s).Proper := by
  cases c with
  | @modify t patch =>
    rw [Call.Keeps, not_or, Bool.not_eq_false, Bool.not_eq_true, Option.isSome_eq_false_iff,
      Option.isNone_iff_eq_none] at hc
    obtain ⟨hw, hnone⟩ := hc
    have hstored : (Call.apply s (.modify patch)).lookup t = some patch := by
      rw [Call.apply, FieldSet.modify, Finmap.lookup_insert, hnone, Option.getD_none,
        Field.rewrite_self]
    refine ⟨fun heq => ?_, ?_, fun hp => hp t patch hstored hw⟩
    · rw [heq, hnone] at hstored
      cases hstored
    · refine sameLoads_iff.2 fun t' i => ?_
      by_cases ht : t' = t
      · subst ht
        rw [Call.apply, get_modify, Field.wildcard_iff.1 hw, Option.none_or]
      · exact get_modify_of_ne s patch ht i
  | erase mask => exact absurd trivial hc
  | clear => exact absurd trivial hc

/-! ## Sequences of calls -/

theorem run_snoc (past : List (Call τ)) (c : Call τ) : run (past ++ [c]) = c.apply (run past) := by
  rw [run, List.foldl_append]
  rfl

/-- Without a call that adds a wildcard, no set that is reached stores one. -/
theorem KeepsAll.proper (h : KeepsAll calls) (hs : Reached calls s) : s.Proper := by
  obtain ⟨past, hpast, rfl⟩ := hs
  induction past using List.reverseRecOn with
  | nil => exact proper_empty
  | append_singleton past c ih =>
    rw [run_snoc]
    exact (ih ((List.prefix_append _ _).trans hpast)).apply (h past c hpast)

/-- A call that adds a wildcard leads from one set that is reached to another one. -/
theorem exists_of_not_keepsAll (h : ¬ KeepsAll calls) :
    ∃ x y, Reached calls x ∧ Reached calls y ∧ x ≠ y ∧ SameLoads x y ∧ ¬ x.Proper := by
  unfold KeepsAll at h
  push Not at h
  obtain ⟨past, c, hpast, hc⟩ := h
  obtain ⟨hne, hsame, hw⟩ := apply_of_not_keeps hc
  refine ⟨_, run past, ⟨past ++ [c], hpast, (run_snoc past c).symm⟩,
    ⟨past, (List.prefix_append _ _).trans hpast, rfl⟩, hne, hsame, hw⟩

/-- What holds of all sets that are reached, when it holds of those without wildcards only. -/
theorem forall_reached_iff {R : FieldSet τ → Prop} (hR : ∀ s, R s ↔ s.Proper) :
    (∀ s, Reached calls₁ s ∨ Reached calls₂ s → R s) ↔ KeepsAll calls₁ ∧ KeepsAll calls₂ := by
  constructor
  · intro h
    refine ⟨?_, ?_⟩
    · by_contra hk
      obtain ⟨x, -, hx, -, -, -, hw⟩ := exists_of_not_keepsAll hk
      exact hw ((hR x).1 (h x (.inl hx)))
    · by_contra hk
      obtain ⟨x, -, hx, -, -, -, hw⟩ := exists_of_not_keepsAll hk
      exact hw ((hR x).1 (h x (.inr hx)))
  · rintro ⟨h₁, h₂⟩ s (hs | hs)
    · exact (hR s).2 (h₁.proper hs)
    · exact (hR s).2 (h₂.proper hs)

/-- **When field sets are canonical**: of the sets that two sequences of calls go through, any two
are equal exactly if they return the same, none stores a wildcard, and no match and no set-field
action has an empty mask, each exactly when no call adds a wildcard. -/
theorem field_set_canonical (calls₁ calls₂ : List (Call τ)) :
    ((∀ x y, Reached calls₁ x ∨ Reached calls₂ x → Reached calls₁ y ∨ Reached calls₂ y →
      (x = y ↔ SameLoads x y)) ↔ KeepsAll calls₁ ∧ KeepsAll calls₂) ∧
    ((∀ s, Reached calls₁ s ∨ Reached calls₂ s → ∀ f ∈ s.entries, f.2.wildcard = false) ↔
      KeepsAll calls₁ ∧ KeepsAll calls₂) ∧
    ((∀ s, Reached calls₁ s ∨ Reached calls₂ s → ∀ a ∈ makeOfMatch s, a.2.field.mask.bits ≠ 0#_) ↔
      KeepsAll calls₁ ∧ KeepsAll calls₂) ∧
    ((∀ s, Reached calls₁ s ∨ Reached calls₂ s →
      ∀ a ∈ setFieldActions s, a.2.field.mask.bits ≠ 0#_) ↔
      KeepsAll calls₁ ∧ KeepsAll calls₂) := by
  refine ⟨⟨fun h => ?_, ?_⟩, forall_reached_iff fun s => proper_iff_entries.symm,
    forall_reached_iff fun s => proper_iff_adapters.symm,
    forall_reached_iff fun s => proper_iff_adapters.symm⟩
  · refine ⟨?_, ?_⟩
    · by_contra hk
      obtain ⟨x, y, hx, hy, hne, hsame, -⟩ := exists_of_not_keepsAll hk
      exact hne ((h x y (.inl hx) (.inl hy)).2 hsame)
    · by_contra hk
      obtain ⟨x, y, hx, hy, hne, hsame, -⟩ := exists_of_not_keepsAll hk
      exact hne ((h x y (.inr hx) (.inr hy)).2 hsame)
  · intro hk x y hx hy
    have hproper := (forall_reached_iff fun s => Iff.rfl).2 hk
    exact (hproper x hx).eq_iff (hproper y hy)

/-- A wildcard patch on an empty set. -/
theorem modify_wildcard_differs :
    ¬ ∀ calls₁ calls₂ : List (Call OfbType),
      run calls₁ = run calls₂ ↔ SameLoads (run calls₁) (run calls₂) := by
  intro h
  have hbad : ¬ Call.Keeps (∅ : FieldSet OfbType) (.modify (.any .eth_src)) := by decide
  obtain ⟨hne, hsame, -⟩ := apply_of_not_keeps hbad
  exact hne ((h [.modify (Field.any OfbType.eth_src)] []).2 hsame)

end FieldSet

end Oxm
