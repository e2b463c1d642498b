import Runos.Maple.Proof.Leaves
import Runos.Maple.Proof.Memo

/-!
# Policies without tests

The trace tree of a policy that only loads and modifies has no test nodes, so each of its rules
matches exactly the packets that `lookup` leads to the rule's flow (`lookup_of_mem_rules`), and
wherever the rule matches the policy ends as the flow records (`Traced.of_mem_rules`). With tests a
rule of a negative branch also matches packets that pass the test.
-/

namespace Maple

open Oxm OxmType

variable {τ : Type} [OxmType τ] {D F : Type} {t : τ}

/-- The policy tests nothing. -/
def Policy.LoadsOnly : Policy τ D → Prop
  | .done _ => True
  | .raise _ => True
  | .load _ _ k => ∀ r, (k r).LoadsOnly
  | .test _ _ _ => False
  | .modify _ _ k => ∀ r, (k r).LoadsOnly

/-- The tree has no test nodes. -/
def Node.LoadsOnly : Node τ F → Prop
  | .unexplored => True
  | .flow _ => True
  | .test _ _ _ _ => False
  | .load _ _ keys cases => ∀ key ∈ keys, (cases key).LoadsOnly

variable {has : τ → Prop} {Rec : F → D → FieldSet τ → Prop} {policy : Policy τ D}
  {c m M : FieldSet τ} {n n' : Node τ F} {alive : F → Bool} {barrier : F} {q : Packet τ}
  {r : FieldSet τ × F}

theorem holds_of_lookup {f : F} (h : n.lookup alive q = .ok (some f)) : n.Holds f := by
  induction n with
  | unexplored => cases h
  | flow f' =>
    simp only [Node.lookup, Except.ok.injEq] at h
    split at h
    · cases h; rfl
    · cases h
  | test t need pos neg ihp ihn =>
    simp only [Node.lookup] at h
    split at h
    · cases h
    · exact .inl (ihp h)
    · exact .inr (ihn h)
  | load t mask keys cases ih =>
    simp only [Node.lookup] at h
    split at h
    · cases h
    · split at h
      · rename_i f' _ hm
        exact ⟨f'.value, hm, ih _ h⟩
      · cases h

variable [DecidableEq τ]

/-- Wherever `M` matches and the policy decides, it decides `d` with the modifications `m`. -/
def Policy.Answers (policy : Policy τ D) (M : FieldSet τ) (d : D) (m : FieldSet τ) : Prop :=
  ∀ q d' p, M.admits q = true → policy.eval ⟨q, ∅⟩ = (.ok d', p) → d' = d ∧ p.mods = m

theorem Traced.loadsOnly (h : Traced has Rec policy c m n) (hp : policy.LoadsOnly) :
    n.LoadsOnly := by
  induction policy generalizing c m n with
  | done d =>
    obtain rfl | ⟨f, rfl, -⟩ := h <;> trivial
  | raise e => cases h; trivial
  | load t mask k ih =>
    obtain rfl | ⟨-, h⟩ := h
    · trivial
    split at h
    · exact ih _ h (hp _)
    · obtain ⟨keys, cases, rfl, hk⟩ := h
      exact fun key hkey => ih _ (hk key hkey) (hp _)
  | test t need k ih => cases hp
  | modify t patch k ih =>
    obtain rfl | ⟨-, h⟩ := h
    · trivial
    · exact ih _ h (hp _)

/-! ## Rules and lookup -/

/-- The order in which the case maps are enumerated changes the order of the rules only. -/
theorem Node.Reorder.mem_rules (h : n.Reorder n') :
    r ∈ n'.rules alive barrier M → r ∈ n.rules alive barrier M := by
  induction h generalizing M with
  | unexplored => exact id
  | flow f => exact id
  | test t need _ _ ihp ihn =>
    simp only [Node.rules, List.mem_append]
    exact Or.imp (Or.imp_left ihn) ihp
  | load t mask hk _ ih =>
    intro hr
    obtain ⟨key, hkey, hr⟩ := List.mem_flatMap.1 hr
    exact List.mem_flatMap.2 ⟨key, hk.mem_iff.2 hkey, ih key hr⟩

/-- **A rule of a tree without tests** matches only packets that `lookup` leads to its flow. -/
theorem lookup_of_mem_rules (hn : n.WF M) (hl : n.LoadsOnly) (hr : r ∈ n.rules alive barrier M)
    (hq : r.1.admits q = true) : n.lookup alive q = .ok (some r.2) := by
  induction n generalizing M with
  | unexplored => cases hr
  | flow f =>
    simp only [Node.rules] at hr
    split at hr
    · rename_i ha
      obtain rfl := List.mem_singleton.1 hr
      simp only [Node.lookup, if_pos ha]
    · cases hr
  | test t need pos neg => cases hl
  | load t mask keys cases ih =>
    obtain ⟨hw, hf, hk⟩ := hn
    obtain ⟨key, hkey, hr⟩ := List.mem_flatMap.1 hr
    have hadm : (M.modify (Field.make key mask)).admits q = true := by
      by_contra hna
      exact not_admits_of_mem_rules alive barrier (hk key hkey).2 hna r hr hq
    obtain ⟨f, hload, rfl⟩ := (has_make_iff (hk key hkey).1).1
      ((FieldSet.admits_modify (f := Field.make key mask) hf).1 hadm).2
    simp only [Node.lookup, hload, if_pos hkey]
    exact ih _ (hk _ hkey).2 (hl _ hkey) hr

/-- Every flow that the tree holds is recorded. -/
theorem Traced.of_holds (h : Traced has Rec policy c m n) {f : F} (hf : n.Holds f) :
    ∃ d m', Rec f d m' := by
  induction policy generalizing c m n with
  | done d =>
    obtain rfl | ⟨g, rfl, hr⟩ := h
    · cases hf
    · cases hf
      exact ⟨d, m, hr⟩
  | raise e => cases h; cases hf
  | load t mask k ih =>
    obtain rfl | ⟨-, h⟩ := h
    · cases hf
    split at h
    · exact ih _ h hf
    · obtain ⟨keys, cases, rfl, hk⟩ := h
      obtain ⟨key, hkey, hf⟩ := hf
      exact ih _ (hk key hkey) hf
  | test t need k ih =>
    obtain rfl | ⟨-, h⟩ := h
    · cases hf
    split at h
    · exact ih _ h hf
    · split at h
      · exact ih _ h hf
      · obtain ⟨pos, neg, rfl, hp, hng⟩ := h
        exact hf.elim (ih _ hp) (ih _ hng)
  | modify t patch k ih =>
    obtain rfl | ⟨-, h⟩ := h
    · cases hf
    · exact ih _ h hf

/-- A flow that has a rule decides where `lookup` leads to it. -/
theorem eval_of_lookup_ok (hprop : policy.Propagates) (hn : Traced has Rec policy ∅ ∅ n) {f : F}
    (hl : n.lookup alive q = .ok (some f)) {d : D} {p : ModTrackingPacket τ}
    (he : policy.eval ⟨q, ∅⟩ = (.ok d, p)) : Rec f d p.mods := by
  obtain ⟨d', p', he', hrec⟩ | ⟨⟨e, p', he'⟩, -⟩ := eval_of_lookup hprop hn (.refl q) hl
  · rw [he] at he'
    cases he'
    exact hrec
  · rw [he] at he'
    cases he'

/-- **The rules of a policy without tests** stand for what their flows record. -/
theorem Traced.of_mem_rules (hprop : policy.Propagates) (hp : policy.LoadsOnly)
    (hT : Traced has Rec policy ∅ ∅ n) (hn : n.WF ∅) (hr : r ∈ n.rules alive barrier ∅)
    (hq : r.1.admits q = true) {d : D} {p : ModTrackingPacket τ}
    (he : policy.eval ⟨q, ∅⟩ = (.ok d, p)) : Rec r.2 d p.mods :=
  eval_of_lookup_ok hprop hT (lookup_of_mem_rules hn (hT.loadsOnly hp) hr hq) he

end Maple
