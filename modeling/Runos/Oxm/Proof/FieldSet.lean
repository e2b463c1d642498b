import Runos.Lib.Overwrite
import Runos.Oxm.Proof.Field

/-!
# Field sets after any calls

The calls that change a field set, and what each does to one bit of one type: `modify` writes the
bits its patch fixes, `erase` unsets those of its mask, `clear` unsets every bit. A set that starts
empty and goes through any list of calls is the map of the last writes (`get_run`), and `load`
returns that map under its mask (`load_run`).
-/

namespace Oxm

namespace FieldSet

variable {τ : Type} [OxmType τ] [DecidableEq τ]

/-- A call that changes a field set. -/
inductive Call (τ : Type) [OxmType τ]
  | modify {t : τ} (patch : Field t)
  | erase {t : τ} (mask : Mask t)
  | clear

def Call.apply (s : FieldSet τ) : Call τ → FieldSet τ
  | .modify patch => s.modify patch
  | .erase mask => s.erase mask
  | .clear => s.clear

/-- The empty field set after the calls. -/
def run (calls : List (Call τ)) : FieldSet τ := calls.foldl Call.apply ∅

/-- What a call does to bit `cell.2` of type `cell.1`. -/
def Call.effect : Overwrite.Effect (Call τ) (τ × Nat) Bool
  | .modify (t := t) patch, cell =>
    if cell.1 = t then (patch.get cell.2).map some else none
  | .erase (t := t) mask, cell =>
    if cell.1 = t ∧ mask.bits.getLsbD cell.2 = true then some none else none
  | .clear, _ => some none

/-! ## One call -/

variable {t : τ} (s : FieldSet τ)

theorem get_insert (f : Field t) (i : Nat) : get (s.insert t f) t i = f.get i :=
  get_of_lookup (Finmap.lookup_insert s) i

theorem get_insert_of_ne (f : Field t) {t' : τ} (h : t' ≠ t) (i : Nat) :
    get (s.insert t f) t' i = s.get t' i := by
  rw [get, get, Finmap.lookup_insert_of_ne _ h]

theorem get_erase (m : Mask t) (i : Nat) :
    (s.erase m).get t i = if m.bits.getLsbD i then none else s.get t i := by
  rw [erase]
  cases hl : s.lookup t with
  | none => simp [get, hl]
  | some f =>
    have hf := Field.get_widen_compl f m i
    rw [get_of_lookup hl, ← hf]
    show get (if _ then _ else _) t i = _
    by_cases hw : (f.widen m.compl).wildcard = true
    · rw [if_pos hw, get, Finmap.lookup_erase, Field.wildcard_iff.1 hw]; rfl
    · rw [if_neg hw, get_insert]

theorem get_erase_of_ne (m : Mask t) {t' : τ} (h : t' ≠ t) (i : Nat) :
    (s.erase m).get t' i = s.get t' i := by
  rw [erase]
  cases s.lookup t with
  | none => rfl
  | some f =>
    show get (if _ then _ else _) t' i = _
    by_cases hw : (f.widen m.compl).wildcard = true
    · rw [if_pos hw, get, Finmap.lookup_erase_ne h]; rfl
    · rw [if_neg hw, get_insert_of_ne s _ h]

/-- A call gives every bit what its effect says. -/
theorem get_apply (c : Call τ) (t : τ) (i : Nat) :
    (c.apply s).get t i = (c.effect (t, i)).getD (s.get t i) := by
  cases c with
  | @modify t' patch =>
    by_cases h : t = t'
    · subst h
      rw [Call.apply, get_modify]
      cases hp : patch.get i <;> simp [Call.effect, hp]
    · rw [Call.apply, get_modify_of_ne s patch h]
      simp [Call.effect, h]
  | @erase t' mask =>
    by_cases h : t = t'
    · subst h
      rw [Call.apply, get_erase]
      cases hm : mask.bits.getLsbD i <;> simp [Call.effect, hm]
    · rw [Call.apply, get_erase_of_ne s mask h]
      simp [Call.effect, h]
  | clear => simp [Call.apply, clear, Call.effect]

/-! ## Any calls -/

/-- Bit `i` of type `t` was written by one of the calls with the value `b`; the calls after it
neither write nor unset it. -/
def LastWrite (calls : List (Call τ)) (t : τ) (i : Nat) (b : Bool) : Prop :=
  Overwrite.LastWrite Call.effect calls (t, i) b

/-- A field set is the map of the last writes. -/
theorem get_run (calls : List (Call τ)) (t : τ) (i : Nat) (b : Bool) :
    (run calls).get t i = some b ↔ LastWrite calls t i b := by
  let read (s : FieldSet τ) (cell : τ × Nat) : Option Bool := s.get cell.1 cell.2
  have step : ∀ s (c : Call τ) cell, read (c.apply s) cell = (c.effect cell).getD (read s cell) :=
    fun s c cell => get_apply s c cell.1 cell.2
  have empty : ∀ cell, read ∅ cell = none := fun cell => get_empty cell.1 cell.2
  exact Overwrite.read_foldl (k := (t, i)) read step empty calls

/-- What `load` returns after any calls: the bits of the mask that were written and not unset since,
each with the value last written. No type has two entries. -/
theorem load_run (calls : List (Call τ)) {t : τ} (m : Mask t) :
    (∀ i, ((run calls).load m).mask.bits.getLsbD i = true ↔
      m.bits.getLsbD i = true ∧ ∃ b, LastWrite calls t i b) ∧
    (∀ i b, m.bits.getLsbD i = true → LastWrite calls t i b →
      ((run calls).load m).value.getLsbD i = b) ∧
    (∀ i, ((run calls).load m).mask.bits.getLsbD i = false →
      ((run calls).load m).value.getLsbD i = false) ∧
    (∀ e ∈ (run calls).entries, ∀ i, e.2.mask.bits.getLsbD i = false →
      e.2.value.getLsbD i = false) ∧
    ((run calls).entries.map Sigma.fst).Nodup := by
  have outside {t' : τ} (f : Field t') (i : Nat) (h : f.mask.bits.getLsbD i = false) :
      f.value.getLsbD i = false := by
    rw [Field.getLsbD_value, Field.get, h]
    rfl
  refine ⟨fun i => ?_, fun i b hm hb => ?_, fun i => outside _ i,
    fun e _ i => outside e.2 i, Multiset.nodup_keys.2 (run calls).nodupKeys⟩
  · rw [← Field.get_isSome, get_load, Option.isSome_iff_exists]
    by_cases hm : m.bits.getLsbD i = true
    · rw [if_pos hm]
      simp only [hm, true_and, get_run]
    · rw [if_neg hm]
      simp [hm]
  · rw [Field.getLsbD_value, get_load, if_pos hm, (get_run calls t i b).2 hb]
    rfl

end FieldSet

end Oxm
