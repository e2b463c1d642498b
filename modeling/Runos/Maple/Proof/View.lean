import Runos.Maple.Proof.Tracing

/-!
# The cache and the packet

While a policy runs, `View q cur c` relates the packet `q` it started on, the packet `cur` as it
has been modified, and the cache `c`: on the bits the cache knows, `cur` has the cached value; on
the others it still has the value of `q`. Hence what a call reads is what the cache knows
completed by the unexplored bits (`View.read_eq`), these are bits of `q` (`View.load_rest`), and
the result of a test is that of the known bits and of the unexplored bits (`View.test_eq`,
`View.test_rest`).
-/

namespace Maple

open Oxm OxmType

variable {τ : Type} [OxmType τ] [DecidableEq τ] {D F : Type} {t : τ}

/-- The relation of the module doc. -/
structure View (q cur : Packet τ) (c : FieldSet τ) : Prop where
  dom : ∀ t, (cur t).isSome = (q t).isSome
  cached : ∀ t v i b, cur t = some v → c.get t i = some b → v.getLsbD i = b
  orig : ∀ t v w i, cur t = some v → q t = some w → c.get t i = none → v.getLsbD i = w.getLsbD i

/-- The bits of the mask that the cache does not know. -/
def restMask (c : FieldSet τ) (mask : Mask t) : Mask t := mask.and (c.load mask).mask.compl

theorem mask_unexplored (c : FieldSet τ) {read : Field t} {mask : Mask t} (h : read.mask = mask) :
    (unexplored c read).mask = restMask c mask := by
  subst h; rfl

theorem getLsbD_restMask (c : FieldSet τ) (mask : Mask t) (i : Nat) :
    (restMask c mask).bits.getLsbD i = (mask.bits.getLsbD i && (c.get t i).isNone) := by
  have h := mask_unexplored c (Field.mask_make 0#_ mask)
  rw [← h, ← Field.get_isSome, get_unexplored, Field.get_make]
  cases c.get t i <;> cases mask.bits.getLsbD i <;> rfl

namespace View

variable {q cur : Packet τ} {c : FieldSet τ} {mask : Mask t} {need read : Field t}

theorem refl (q : Packet τ) : View q q ∅ where
  dom _ := rfl
  cached _ _ _ _ _ h := by simp at h
  orig t v w i hv hw _ := by rw [hv] at hw; cases hw; rfl

theorem eq_none (h : View q cur c) (ht : cur t = none) : q t = none := by
  have := h.dom t
  rw [ht] at this
  simpa using this.symm

theorem isSome (h : View q cur c) {v : Bits t} (ht : cur t = some v) : (q t).isSome := by
  rw [← h.dom, ht]; rfl

/-- Bits that the cache learns from the packet. -/
theorem learn (h : View q cur c) {f : Field t} (hf : cur.Has f) : View q cur (c.modify f) where
  dom := h.dom
  cached t' v i b hv hb := by
    by_cases ht : t' = t
    · subst ht
      rw [FieldSet.get_modify] at hb
      obtain ⟨v', hv', hbits⟩ := hf
      rw [hv, Option.some.injEq] at hv'
      subst hv'
      cases hfi : f.get i with
      | none => rw [hfi, Option.none_or] at hb; exact h.cached t' v i b hv hb
      | some b' =>
        rw [hfi, Option.some_or, Option.some.injEq] at hb
        rw [← hb]; exact hbits i b' hfi
    · rw [FieldSet.get_modify_of_ne _ _ ht] at hb
      exact h.cached t' v i b hv hb
  orig t' v w i hv hw hn := by
    by_cases ht : t' = t
    · subst ht
      rw [FieldSet.get_modify, Option.or_eq_none_iff] at hn
      exact h.orig t' v w i hv hw hn.2
    · rw [FieldSet.get_modify_of_ne _ _ ht] at hn
      exact h.orig t' v w i hv hw hn

theorem has_unexplored (c : FieldSet τ) (hr : cur.load mask = some read) :
    cur.Has (unexplored c read) := by
  obtain ⟨v, hv, rfl⟩ := Packet.load_eq_some.1 hr
  refine ⟨v, hv, fun i b hb => ?_⟩
  rw [get_unexplored] at hb
  split at hb
  · cases hb
  · rw [Field.get_make] at hb
    split at hb
    · simpa using hb
    · cases hb

/-- What is read: the known bits and the unexplored ones. -/
theorem read_eq (h : View q cur c) (hr : cur.load mask = some read) :
    read = (c.load mask).rewrite (unexplored c read) := by
  obtain ⟨v, hv, rfl⟩ := Packet.load_eq_some.1 hr
  refine Field.ext_get fun i => ?_
  rw [Field.get_rewrite, get_unexplored, FieldSet.get_load, Field.get_make]
  cases hc : c.get t i with
  | none => cases hm : mask.bits.getLsbD i <;> simp
  | some b =>
    have := h.cached t v i b hv hc
    cases hm : mask.bits.getLsbD i <;> simp [this]

/-- The unexplored bits are those of the packet that the run started on. -/
theorem load_rest (h : View q cur c) (hr : cur.load mask = some read) :
    q.load (restMask c mask) = some (unexplored c read) := by
  obtain ⟨v, hv, rfl⟩ := Packet.load_eq_some.1 hr
  have hq : (q t).isSome := by rw [← h.dom t, hv]; rfl
  obtain ⟨w, hw⟩ := Option.isSome_iff_exists.1 hq
  refine Packet.load_eq_some.2 ⟨w, hw, Field.ext_get fun i => ?_⟩
  rw [Field.get_make, getLsbD_restMask, get_unexplored, Field.get_make]
  cases hc : c.get t i with
  | none =>
    have := h.orig t v w i hv hw hc
    cases hm : mask.bits.getLsbD i <;> simp [this]
  | some b => cases hm : mask.bits.getLsbD i <;> simp

/-- A test of what is read is a test of the known bits and one of the unexplored bits. -/
theorem agrees_read (h : View q cur c) (hr : cur.load need.mask = some read) :
    read.agrees need = ((c.load need.mask).agrees need && (unexplored c read).agrees need) := by
  have hread := h.read_eq hr
  rw [Bool.eq_iff_iff, Bool.and_eq_true]
  simp only [Field.agrees_iff]
  have hget : ∀ i, read.get i =
      ((unexplored c read).get i).or ((c.load need.mask).get i) := fun i => by
    conv_lhs => rw [hread]
    exact Field.get_rewrite _ _ i
  constructor
  · intro ha
    refine ⟨fun i b b' hb hb' => ha i b b' ?_ hb', fun i b b' hb hb' => ha i b b' ?_ hb'⟩
    · rw [hget, hb, get_unexplored]
      rw [FieldSet.get_load] at hb
      split at hb
      · rw [hb]; rfl
      · cases hb
    · rw [hget, hb]; rfl
  · rintro ⟨he, hu⟩ i b b' hb hb'
    rw [hget] at hb
    cases hui : (unexplored c read).get i with
    | some b'' => rw [hui] at hb; cases hb; exact hu i b b' hui hb'
    | none => rw [hui] at hb; exact he i b b' hb hb'

theorem test_eq (h : View q cur c) (hr : cur.load need.mask = some read) :
    cur.test need =
      some ((c.load need.mask).agrees need && (unexplored c read).agrees need) := by
  rw [Packet.test, hr, Option.map_some, h.agrees_read hr]

theorem agrees_widen_unexplored (c : FieldSet τ) (read need : Field t) :
    (unexplored c read).agrees (need.widen (unexplored c read).mask) =
      (unexplored c read).agrees need := by
  rw [Bool.eq_iff_iff, Field.agrees_iff, Field.agrees_iff]
  refine forall_congr' fun i => forall_congr' fun b => forall_congr' fun b' => ?_
  refine imp_congr_right fun hb => ?_
  rw [Field.get_widen, ← Field.get_isSome, hb]
  rfl

/-- The traced test, on the packet that the run started on. -/
theorem test_rest (h : View q cur c) (hr : cur.load need.mask = some read) :
    q.test (need.widen (restMask c need.mask)) = some ((unexplored c read).agrees need) := by
  have hm := mask_unexplored c (load_mask hr)
  have hmask : (need.widen (restMask c need.mask)).mask = restMask c need.mask := by
    rw [← hm]; exact mask_widen_unexplored c (load_mask hr)
  rw [Packet.test, hmask, h.load_rest hr, Option.map_some, ← hm, agrees_widen_unexplored]

/-- A test that succeeds fixes the unexplored bits. -/
theorem unexplored_of_agrees (hr : cur.load need.mask = some read)
    (ha : (unexplored c read).agrees need = true) :
    unexplored c read = need.widen (restMask c need.mask) := by
  have hm := mask_unexplored c (load_mask hr)
  refine Field.ext_get fun i => ?_
  rw [Field.get_widen, ← hm, ← Field.get_isSome]
  cases hu : (unexplored c read).get i with
  | none => rfl
  | some b =>
    have hn : (need.get i).isSome := by
      rw [Field.get_isSome, ← load_mask hr, ← Field.get_isSome]
      rw [get_unexplored] at hu
      split at hu
      · cases hu
      · rw [hu]; rfl
    obtain ⟨b', hb'⟩ := Option.isSome_iff_exists.1 hn
    rw [Field.agrees_iff.1 ha i b b' hu hb', hb']
    rfl

/-- A modification of the packet and of the cache. -/
theorem modify (h : View q cur c) {patch : Field t} {cur' : Packet τ}
    (hm : cur.modify patch = some cur') : View q cur' (c.modify patch) := by
  obtain ⟨v, hv, hv', hne⟩ := Packet.modify_eq_some hm
  refine ⟨fun t' => ?_, fun t' w i b hw hb => ?_, fun t' w w' i hw hw' hn => ?_⟩
  · by_cases ht : t' = t
    · subst ht; rw [hv', ← h.dom, hv]; rfl
    · rw [hne t' ht]; exact h.dom t'
  · by_cases ht : t' = t
    · subst ht
      rw [hv', Option.some.injEq] at hw
      subst hw
      rw [FieldSet.get_modify] at hb
      rw [Packet.getLsbD_rewrite_exact]
      cases hp : patch.get i with
      | none => rw [hp, Option.none_or] at hb; exact h.cached t' v i b hv hb
      | some b' => rw [hp, Option.some_or, Option.some.injEq] at hb; rw [← hb]; rfl
    · rw [hne t' ht] at hw
      rw [FieldSet.get_modify_of_ne _ _ ht] at hb
      exact h.cached t' w i b hw hb
  · by_cases ht : t' = t
    · subst ht
      rw [hv', Option.some.injEq] at hw
      subst hw
      rw [FieldSet.get_modify, Option.or_eq_none_iff] at hn
      rw [Packet.getLsbD_rewrite_exact, hn.1]
      exact h.orig t' v w' i hv hw' hn.2
    · rw [hne t' ht] at hw
      rw [FieldSet.get_modify_of_ne _ _ ht] at hn
      exact h.orig t' w w' i hw hw' hn

end View

end Maple
