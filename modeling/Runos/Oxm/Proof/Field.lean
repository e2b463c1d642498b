import Runos.Oxm.Field

/-!
# Fields and field sets bit by bit

A field is a partial assignment of bits, `Field.get`: none where the mask is clear. On this view
`widen` restricts, `rewrite` overrides (`get_rewrite`), `agrees` is compatibility
(`agrees_iff`), and a field set is a partial assignment `FieldSet.get` over all types, which
`modify` overrides and `erase` restricts. The main results: a field set admits a packet exactly
when the packet has the bits it fixes (`admits_iff`), and erasing what was just added on free bits
restores the set (`erase_modify`).
-/

namespace Oxm

open OxmType

variable {τ : Type} [OxmType τ] {t : τ}

namespace Field

/-- The bit a field fixes at position `i`, if its mask has it. -/
def get (f : Field t) (i : Nat) : Option Bool :=
  if f.mask.bits.getLsbD i then some (f.value.getLsbD i) else none

theorem get_isSome (f : Field t) (i : Nat) : (f.get i).isSome = f.mask.bits.getLsbD i := by
  simp only [get]; split <;> simp_all

theorem ext_get {f g : Field t} (h : ∀ i, f.get i = g.get i) : f = g := by
  have hm : f.mask = g.mask := by
    ext i hi
    rw [← BitVec.getLsbD_eq_getElem, ← BitVec.getLsbD_eq_getElem, ← get_isSome, ← get_isSome, h]
  refine ext ?_ hm
  rw [← f.covered, ← g.covered]
  ext i hi
  have := h i
  simp only [get, hm, BitVec.getLsbD_eq_getElem hi] at this
  simp only [hm, BitVec.getElem_and]
  split at this <;> simp_all

@[simp] theorem get_make (v : Bits t) (m : Mask t) (i : Nat) :
    (make v m).get i = if m.bits.getLsbD i then some (v.getLsbD i) else none := by
  simp only [make, get, BitVec.getLsbD_and]
  split <;> simp_all

@[simp] theorem get_any (i : Nat) : (any t).get i = none := by simp [any]

@[simp] theorem mask_make (v : Bits t) (m : Mask t) : (make v m).mask = m := rfl

theorem value_make_exact (v : Bits t) : (make v (.exact t)).value = v := BitVec.and_allOnes

theorem getLsbD_value (f : Field t) (i : Nat) : f.value.getLsbD i = (f.get i).getD false := by
  conv_lhs => rw [← f.covered]
  simp only [get, BitVec.getLsbD_and]
  split <;> simp_all

theorem get_widen (f : Field t) (m : Mask t) (i : Nat) :
    (f.widen m).get i = if m.bits.getLsbD i then f.get i else none := by
  rw [widen, get_make, get]
  simp only [Mask.and, BitVec.getLsbD_and]
  by_cases h : m.bits.getLsbD i <;> simp [h]

theorem get_eq_none_of_le (f : Field t) {i : Nat} (h : nbits t ≤ i) : f.get i = none := by
  rw [get, BitVec.getLsbD_of_ge _ _ h]; rfl

/-- `f & ~m`: what `f` fixes outside the mask. -/
theorem get_widen_compl (f : Field t) (m : Mask t) (i : Nat) :
    (f.widen m.compl).get i = if m.bits.getLsbD i then none else f.get i := by
  rw [get_widen, Mask.compl, BitVec.getLsbD_not]
  by_cases hi : i < nbits t
  · cases m.bits.getLsbD i <;> simp [hi]
  · simp [hi, f.get_eq_none_of_le (Nat.le_of_not_lt hi)]

theorem get_rewrite (l r : Field t) (i : Nat) : (l.rewrite r).get i = (r.get i).or (l.get i) := by
  simp only [rewrite, get_make, Mask.or, BitVec.getLsbD_or, BitVec.getLsbD_and,
    BitVec.getLsbD_not, getLsbD_value, ← get_isSome]
  by_cases hi : i < nbits t
  · cases hr : r.get i <;> cases hl : l.get i <;> simp [hi]
  · simp [get_eq_none_of_le _ (Nat.le_of_not_lt hi)]

@[simp] theorem rewrite_self (f : Field t) : f.rewrite f = f :=
  ext_get fun i => by rw [get_rewrite]; cases f.get i <;> rfl

theorem wildcard_iff {f : Field t} : f.wildcard = true ↔ ∀ i, f.get i = none := by
  simp only [wildcard, Mask.wildcard, beq_iff_eq]
  constructor
  · intro h i; simp [get, h]
  · intro h
    apply BitVec.eq_of_getLsbD_eq
    intro i _
    rw [← get_isSome, h]; simp

theorem agrees_iff {l r : Field t} :
    l.agrees r = true ↔ ∀ i b c, l.get i = some b → r.get i = some c → b = c := by
  simp only [agrees, beq_iff_eq]
  constructor
  · intro h i b c hb hc
    have hi := congrArg (fun f => f.get i) h
    simpa [Mask.and, ← get_isSome, hb, hc, getLsbD_value] using hi
  · intro h
    refine ext_get fun i => ?_
    simp only [get_make, Mask.and, BitVec.getLsbD_and, ← get_isSome, getLsbD_value]
    cases hl : l.get i <;> cases hr : r.get i <;> simp
    exact h i _ _ hl hr

end Field

/-! ## Packets -/

namespace Packet

/-- The packet has the bits the field fixes. -/
def Has (p : Packet τ) (f : Field t) : Prop :=
  ∃ v, p t = some v ∧ ∀ i b, f.get i = some b → v.getLsbD i = b

theorem load_eq_some {p : Packet τ} {m : Mask t} {f : Field t} :
    p.load m = some f ↔ ∃ v, p t = some v ∧ Field.make v m = f := by
  simp [load]

theorem load_eq_none {p : Packet τ} {m : Mask t} : p.load m = none ↔ p t = none :=
  Option.map_eq_none_iff

theorem modify_eq_none [DecidableEq τ] {p : Packet τ} {patch : Field t} :
    p.modify patch = none ↔ p t = none :=
  Option.map_eq_none_iff.trans load_eq_none

theorem test_eq_true {p : Packet τ} {f : Field t} : p.test f = some true ↔ p.Has f := by
  simp only [test, load, Option.map_map, Option.map_eq_some_iff, Function.comp, Field.agrees_iff,
    Has]
  refine exists_congr fun v => and_congr_right fun _ => ?_
  constructor
  · intro h i b hb
    refine h i _ b ?_ hb
    rw [Field.get_make, ← Field.get_isSome, hb]; rfl
  · intro h i b c hb hc
    rw [Field.get_make, ← Field.get_isSome, hc] at hb
    rw [← h i c hc]
    simpa using hb.symm

/-- A value with a patch written over it, bit by bit. -/
theorem getLsbD_rewrite_exact (v : Bits t) (patch : Field t) (i : Nat) :
    ((Field.make v (.exact t)).rewrite patch).value.getLsbD i =
      (patch.get i).getD (v.getLsbD i) := by
  rw [Field.getLsbD_value, Field.get_rewrite, Field.get_make]
  by_cases hi : i < nbits t
  · cases patch.get i <;> simp [Mask.exact, hi]
  · have hle := Nat.le_of_not_lt hi
    rw [patch.get_eq_none_of_le hle, BitVec.getLsbD_of_ge v i hle]
    simp [Mask.exact, hi]

theorem modify_eq_some [DecidableEq τ] {p p' : Packet τ} {patch : Field t}
    (h : p.modify patch = some p') :
    ∃ v, p t = some v ∧ p' t = some ((Field.make v (.exact t)).rewrite patch).value ∧
      ∀ t', t' ≠ t → p' t' = p t' := by
  obtain ⟨f, hf, rfl⟩ := Option.map_eq_some_iff.1 h
  obtain ⟨v, hv, rfl⟩ := load_eq_some.1 hf
  exact ⟨v, hv, Function.update_self _ _ _, fun t' ht => Function.update_of_ne ht _ _⟩

theorem test_eq_some {p : Packet τ} {v : Bits t} (h : p t = some v) (f : Field t) :
    ∃ b, p.test f = some b := by simp [test, load, h]

end Packet

/-! ## Field sets -/

namespace FieldSet

variable [DecidableEq τ] {s : FieldSet τ}

/-- The bit a field set fixes at position `i` of type `t`. -/
def get (s : FieldSet τ) (t : τ) (i : Nat) : Option Bool := (s.lookup t).bind fun f => f.get i

@[simp] theorem get_empty (t : τ) (i : Nat) : get (∅ : FieldSet τ) t i = none := by simp [get]

theorem get_of_lookup {f : Field t} (h : s.lookup t = some f) (i : Nat) : s.get t i = f.get i := by
  simp [get, h]

theorem get_load (s : FieldSet τ) (m : Mask t) (i : Nat) :
    (s.load m).get i = if m.bits.getLsbD i then s.get t i else none := by
  simp only [load, get]
  cases s.lookup t <;> simp [Field.get_widen]

theorem get_modify (s : FieldSet τ) (f : Field t) (i : Nat) :
    (s.modify f).get t i = (f.get i).or (s.get t i) := by
  simp only [modify, get, Finmap.lookup_insert, Option.bind_some]
  cases s.lookup t <;> simp [Field.get_rewrite]

theorem get_modify_of_ne (s : FieldSet τ) (f : Field t) {t' : τ} (h : t' ≠ t) (i : Nat) :
    (s.modify f).get t' i = s.get t' i := by
  simp only [modify, get, Finmap.lookup_insert_of_ne _ h]

/-- The field set stores no wildcard (the container's comment in `field_set.hh`). -/
def Proper (s : FieldSet τ) : Prop := ∀ t (f : Field t), s.lookup t = some f → ¬ f.wildcard = true

theorem Proper.modify (hs : s.Proper) {f : Field t} (hf : ¬ f.wildcard = true) :
    (s.modify f).Proper := by
  intro t' g hg
  by_cases h : t' = t
  · subst h
    simp only [FieldSet.modify, Finmap.lookup_insert, Option.some.injEq] at hg
    subst hg
    rw [Field.wildcard_iff] at hf ⊢
    push Not at hf ⊢
    obtain ⟨i, hi⟩ := hf
    refine ⟨i, ?_⟩
    obtain ⟨b, hb⟩ := Option.ne_none_iff_exists'.1 hi
    rw [Field.get_rewrite, hb]; simp
  · rw [FieldSet.modify, Finmap.lookup_insert_of_ne _ h] at hg
    exact hs t' g hg

/-- The mask has only bits that the set leaves free. -/
def Free (s : FieldSet τ) (m : Mask t) : Prop := ∀ i, m.bits.getLsbD i = true → s.get t i = none

theorem Free.get_eq_none {f : Field t} (h : s.Free f.mask) {i : Nat} {b : Bool}
    (hi : f.get i = some b) : s.get t i = none :=
  h i (by rw [← Field.get_isSome, hi]; rfl)

theorem erase_modify (hs : s.Proper) {f : Field t} (hfree : s.Free f.mask) :
    (s.modify f).erase f.mask = s := by
  have hl : (s.modify f).lookup t = some (((s.lookup t).getD f).rewrite f) := by
    simp [modify]
  cases h : s.lookup t with
  | none =>
    have hw : ((f.rewrite f).widen f.mask.compl).wildcard = true := by
      rw [Field.wildcard_iff]; intro i
      rw [Field.rewrite_self, Field.get_widen_compl, ← Field.get_isSome]; cases f.get i <;> rfl
    simp only [erase, hl, h, Option.getD_none, hw, if_true]
    refine Finmap.ext_lookup fun t' => ?_
    by_cases ht : t' = t
    · subst ht; rw [Finmap.lookup_erase, h]
    · rw [Finmap.lookup_erase_ne ht, modify, Finmap.lookup_insert_of_ne _ ht]
  | some g =>
    have hg : (g.rewrite f).widen f.mask.compl = g := by
      refine Field.ext_get fun i => ?_
      rw [Field.get_widen_compl, ← Field.get_isSome, Field.get_rewrite]
      cases hf : f.get i with
      | none => rfl
      | some b => rw [← get_of_lookup h, hfree.get_eq_none hf]; rfl
    have hw : ¬ g.wildcard = true := hs t g h
    simp only [erase, hl, h, Option.getD_some, hg, if_neg hw]
    refine Finmap.ext_lookup fun t' => ?_
    by_cases ht : t' = t
    · subst ht; rw [Finmap.lookup_insert, h]
    · rw [Finmap.lookup_insert_of_ne _ ht, modify, Finmap.lookup_insert_of_ne _ ht]

theorem admits_iff_has {p : Packet τ} :
    s.admits p = true ↔ ∀ t (f : Field t), s.lookup t = some f → p.Has f := by
  simp only [admits, decide_eq_true_eq, Packet.test_eq_true, Finmap.lookup_eq_some_iff]
  exact ⟨fun h t f hf => h ⟨t, f⟩ hf, fun h e he => h e.1 e.2 he⟩

@[simp] theorem admits_empty (p : Packet τ) : admits (∅ : FieldSet τ) p = true := by
  rw [admits_iff_has]; simp

/-- Adding a field on free bits adds its test. -/
theorem admits_modify {p : Packet τ} {f : Field t} (hfree : s.Free f.mask) :
    (s.modify f).admits p = true ↔ s.admits p = true ∧ p.Has f := by
  simp only [admits_iff_has]
  constructor
  · intro h
    obtain ⟨v, hv, hb⟩ := h t _ (by rw [modify, Finmap.lookup_insert])
    refine ⟨fun t' g hg => ?_, v, hv, fun i b hi => hb i b ?_⟩
    · by_cases ht : t' = t
      · subst ht
        refine ⟨v, hv, fun i b hi => hb i b ?_⟩
        have hfi : f.get i = none := by
          by_contra hc
          obtain ⟨c, hc⟩ := Option.ne_none_iff_exists'.1 hc
          have hs := hfree.get_eq_none hc
          rw [get_of_lookup hg, hi] at hs
          cases hs
        rw [hg, Option.getD_some, Field.get_rewrite, hfi, hi]; rfl
      · exact h t' g (by rw [modify, Finmap.lookup_insert_of_ne _ ht, hg])
    · rw [Field.get_rewrite, hi]; rfl
  · rintro ⟨h, v, hv, hb⟩ t' g hg
    by_cases ht : t' = t
    · subst ht
      rw [modify, Finmap.lookup_insert, Option.some.injEq] at hg
      subst hg
      refine ⟨v, hv, fun i b hi => ?_⟩
      rw [Field.get_rewrite] at hi
      cases hf : f.get i with
      | some c => rw [hf] at hi; exact hb i b (by rw [hf]; simpa using hi)
      | none =>
        cases hl : s.lookup t' with
        | none => rw [hl] at hi; simp [hf] at hi
        | some g =>
          obtain ⟨v', hv', hb'⟩ := h t' g hl
          rw [hl, Option.getD_some, hf, Option.none_or] at hi
          rw [hv, Option.some.injEq] at hv'
          rw [hv']; exact hb' i b hi
    · exact h t' g (by rwa [modify, Finmap.lookup_insert_of_ne _ ht] at hg)

end FieldSet

/-! ## Modifications of a packet -/

namespace Packet

variable [DecidableEq τ]

@[simp] theorem rewriteBy_empty (p : Packet τ) : p.rewriteBy ∅ = p := by
  funext t
  simp [rewriteBy]

/-- Modifying a packet and the set of its modifications. -/
theorem rewriteBy_modify {p cur cur' : Packet τ} {mods : FieldSet τ} {patch : Field t}
    (h : cur = p.rewriteBy mods) (hm : cur.modify patch = some cur') :
    cur' = p.rewriteBy (mods.modify patch) := by
  obtain ⟨v, hv, hv', hne⟩ := modify_eq_some hm
  subst h
  funext t'
  by_cases ht : t' = t
  · subst ht
    simp only [rewriteBy, FieldSet.modify, Finmap.lookup_insert] at hv ⊢
    rw [hv']
    cases hl : mods.lookup t' with
    | none =>
      rw [hl] at hv
      simp only [hv, Option.getD_none, Field.rewrite_self, Option.map_some]
    | some f =>
      rw [hl] at hv
      obtain ⟨w, hw, hwv⟩ := Option.map_eq_some_iff.1 hv
      rw [hw, Option.getD_some, Option.map_some]
      congr 1
      apply BitVec.eq_of_getLsbD_eq
      intro i _
      rw [getLsbD_rewrite_exact, getLsbD_rewrite_exact, ← hwv, getLsbD_rewrite_exact,
        Field.get_rewrite]
      cases patch.get i <;> rfl
  · rw [hne t' ht]
    simp only [rewriteBy, FieldSet.modify, Finmap.lookup_insert_of_ne _ ht]

end Packet

end Oxm
