import Runos.Maple.Proof.Augment
import Runos.Maple.Proof.View

/-!
# The leaves of a trace tree

`Node.Holds f`: some leaf of the tree holds the flow `f`. A commit installs every live flow the tree
holds (`Node.Holds.mem_rules`). While a policy runs, the tracer stays or follows an event that the
packet answers (`Cursor.Follows`), whatever the policy asks and however it ends. So a run that
returns an undisposable decision leaves its flow in the tree (`augmentFrom_holds`), and a run with
the flow that `lookup` finds for its packet leaves the tree as it was (`augmentFrom_found`).
-/

namespace Maple

open Oxm OxmType

variable {τ : Type} [OxmType τ] {D F : Type} {t : τ} {n n' : Node τ F} {f : F}
  {alive : F → Bool} {q : Packet τ}

def Node.Holds (f : F) : Node τ F → Prop
  | .unexplored => False
  | .flow f' => f' = f
  | .test _ _ positive negative => positive.Holds f ∨ negative.Holds f
  | .load _ _ keys cases => ∃ key ∈ keys, (cases key).Holds f

theorem Node.Reorder.holds (h : n.Reorder n') (hf : n.Holds f) : n'.Holds f := by
  induction h with
  | unexplored => exact hf
  | flow f' => exact hf
  | test t need _ _ ihp ihn => exact hf.imp ihp ihn
  | load t mask hk _ ih =>
    obtain ⟨key, hkey, hf⟩ := hf
    exact ⟨key, hk.mem_iff.1 hkey, ih key hf⟩

theorem answered_isSome {e : TraceEvent τ} (h : e.Answered q) : (q e.type).isSome := by
  cases e with
  | load t data =>
    obtain ⟨v, hv, -⟩ := Packet.load_eq_some.1 h
    exact Option.isSome_iff_exists.2 ⟨v, hv⟩
  | test t pred ret =>
    obtain ⟨read, hr, -⟩ := Option.map_eq_some_iff.1 h
    obtain ⟨v, hv, -⟩ := Packet.load_eq_some.1 hr
    exact Option.isSome_iff_exists.2 ⟨v, hv⟩

variable [DecidableEq τ]

theorem Node.Holds.mem_rules (h : n.Holds f) (ha : alive f = true) (barrier : F)
    (M : FieldSet τ) : ∃ M', (M', f) ∈ n.rules alive barrier M := by
  induction n generalizing M with
  | unexplored => cases h
  | flow f' =>
    cases h
    exact ⟨M, by simp [Node.rules, ha]⟩
  | test t need pos neg ihp ihn =>
    simp only [Node.rules, List.mem_append]
    rcases h with h | h
    · obtain ⟨M', hM⟩ := ihp h (M.modify need)
      exact ⟨M', .inr hM⟩
    · obtain ⟨M', hM⟩ := ihn h M
      exact ⟨M', .inl (.inl hM)⟩
  | load t mask keys cases ih =>
    obtain ⟨key, hkey, h⟩ := h
    obtain ⟨M', hM⟩ := ih key h (M.modify (Field.make key mask))
    exact ⟨M', List.mem_flatMap.2 ⟨key, hkey, hM⟩⟩

/-! ## One call -/

/-- The cursor after a call at the node `n`: the path stays, or it follows an event that the packet
answers. -/
def Cursor.Follows (q : Packet τ) (n : Node τ F) (c : Cursor τ F) : Prop :=
  c = .stay n ∨ ∃ e : TraceEvent τ, TracerState.eventAt n e = .ok c ∧ e.Answered q

theorem Cursor.Follows.holds {c : Cursor τ F} (h : c.Follows q n) (hf : n'.Holds f) :
    (c.plug n').Holds f := by
  rcases h with rfl | ⟨e, he, -⟩
  · exact hf
  · cases e with
    | load t data =>
      obtain ⟨keys, cases, -, rfl⟩ := TracerImpl.load_ok he
      refine ⟨data.value, ?_, by rw [Function.update_self]; exact hf⟩
      split
      · assumption
      · exact List.mem_cons_self
    | test t pred ret =>
      obtain ⟨pos, neg, -, rfl⟩ := TracerImpl.test_ok he
      cases ret with
      | true => exact .inl hf
      | false => exact .inr hf

/-- On the path of a packet that has a flow no node is made. -/
theorem Cursor.Follows.plug_child {c : Cursor τ F} (h : c.Follows q n)
    (hl : n.lookup alive q = .ok (some f)) : c.plug c.child = n := by
  rcases h with rfl | ⟨e, he, hq⟩
  · rfl
  · cases e with
    | load t data =>
      obtain ⟨keys, cases, hn, rfl⟩ := TracerImpl.load_ok he
      rcases hn with ⟨rfl, -⟩ | rfl
      · cases hl
      · have hr : q.load data.mask = some data := hq
        simp only [Node.lookup, hr] at hl
        split at hl
        · rename_i hkey
          simp only [loadCursor, if_pos hkey, Function.update_eq_self]
        · cases hl
    | test t pred ret =>
      obtain ⟨pos, neg, hn, rfl⟩ := TracerImpl.test_ok he
      rcases hn with ⟨rfl, -, -⟩ | rfl
      · cases hl
      · cases ret <;> rfl

theorem Cursor.Follows.lookup {c : Cursor τ F} (h : c.Follows q n) :
    c.child.lookup alive q = n.lookup alive q := by
  rcases h with rfl | ⟨e, he, hq⟩
  · rfl
  · exact (lookup_event alive (answered_isSome hq) he).2 hq

namespace View

variable {p p' : TraceablePacketImpl τ} {c : Cursor τ F} (hv : View q p.pkt.pkt p.cache)

include hv

theorem load_follows {mask : Mask t} {read : Field t} (h : p.load mask n = .ok (read, p', c)) :
    View q p'.pkt.pkt p'.cache ∧ c.Follows q n := by
  obtain ⟨hr, ⟨-, rfl, rfl⟩ | ⟨-, hload, rfl⟩⟩ := TraceablePacketImpl.load_ok h
  · exact ⟨hv, .inl rfl⟩
  · refine ⟨hv.learn (View.has_unexplored p.cache hr), .inr ⟨.load t _, hload, ?_⟩⟩
    rw [TraceEvent.Answered, mask_unexplored p.cache (load_mask hr)]
    exact hv.load_rest hr

theorem test_follows {need : Field t} {ret : Bool} (h : p.test need n = .ok (ret, p', c)) :
    View q p'.pkt.pkt p'.cache ∧ c.Follows q n := by
  obtain ⟨read, hr, ⟨-, -, rfl, rfl⟩ | ⟨-, -, -, rfl, rfl⟩ | ⟨-, -, hret, htest, rfl⟩⟩ :=
    TraceablePacketImpl.test_ok h
  · exact ⟨hv, .inl rfl⟩
  · exact ⟨hv, .inl rfl⟩
  · refine ⟨?_, .inr ⟨.test t _ ret, htest, ?_⟩⟩
    · split
      · exact hv.learn (View.has_unexplored p.cache hr)
      · exact hv
    · rw [TraceEvent.Answered, mask_unexplored p.cache (load_mask hr), hret]
      exact hv.test_rest hr

theorem modify_ok {patch : Field t} (h : p.modify patch = .ok p') :
    View q p'.pkt.pkt p'.cache := by
  rw [TraceablePacketImpl.modify, ModTrackingPacket.modify] at h
  cases hm : p.pkt.pkt.modify patch with
  | none => rw [hm] at h; cases h
  | some cur =>
    rw [hm] at h
    cases h
    exact hv.modify hm

end View

/-! ## Runs -/

section
variable {disposable : D → Bool} {policy : Policy τ D} {p : TraceablePacketImpl τ} {d : D}

/-- A run that does not throw has decided. -/
theorem augmentFrom_decided (h : (augmentFrom disposable f policy p n).2.thrown = none) :
    ∃ d, (augmentFrom disposable f policy p n).2.decision = some d := by
  induction policy generalizing p n with
  | done d =>
    refine ⟨d, ?_⟩
    unfold augmentFrom
    split
    · rfl
    · split <;> rfl
  | raise e => cases h
  | load t mask k ih =>
    unfold augmentFrom at h ⊢
    split at h <;> exact ih _ h
  | test t need k ih =>
    unfold augmentFrom at h ⊢
    split at h <;> exact ih _ h
  | modify t patch k ih =>
    unfold augmentFrom at h ⊢
    split at h <;> exact ih _ h

/-- A run that returns a decision that is not disposable puts its flow in the tree. -/
theorem augmentFrom_holds (hv : View q p.pkt.pkt p.cache)
    (h : (augmentFrom disposable f policy p n).2.thrown = none)
    (hd : (augmentFrom disposable f policy p n).2.decision = some d)
    (hdisp : disposable d = false) : (augmentFrom disposable f policy p n).1.Holds f := by
  induction policy generalizing p n with
  | done d' =>
    unfold augmentFrom at h hd ⊢
    split at h
    · rename_i hd'
      rw [if_pos hd'] at hd
      cases hd
      rw [hdisp] at hd'
      cases hd'
    · rename_i hd'
      split at h
      · cases h
      · rename_i hf
        rw [if_neg hd', TracerImpl.finish_ok hf]
        rfl
  | raise e => cases h
  | load t mask k ih =>
    unfold augmentFrom at h hd ⊢
    cases hc : p.load mask n with
    | error e => simp only [hc] at h hd ⊢; exact ih _ hv h hd
    | ok r =>
      simp only [hc] at h hd ⊢
      obtain ⟨hv', hfollows⟩ := hv.load_follows hc
      exact hfollows.holds (ih _ hv' h hd)
  | test t need k ih =>
    unfold augmentFrom at h hd ⊢
    cases hc : p.test need n with
    | error e => simp only [hc] at h hd ⊢; exact ih _ hv h hd
    | ok r =>
      simp only [hc] at h hd ⊢
      obtain ⟨hv', hfollows⟩ := hv.test_follows hc
      exact hfollows.holds (ih _ hv' h hd)
  | modify t patch k ih =>
    unfold augmentFrom at h hd ⊢
    cases hp : p.modify patch with
    | error e => simp only [hp] at h hd ⊢; exact ih _ hv h hd
    | ok p' => simp only [hp] at h hd ⊢; exact ih _ (hv.modify_ok hp) h hd

/-- The same of `Runtime::augment`, which starts at the root of the tree. -/
theorem augment_holds {pkt : Packet τ} (h : (augment disposable policy pkt f n).2.thrown = none)
    (hd : (augment disposable policy pkt f n).2.decision = some d) (hdisp : disposable d = false) :
    (augment disposable policy pkt f n).1.Holds f :=
  augmentFrom_holds (.refl pkt) h hd hdisp

/-- A run with the flow found for its packet leaves the tree as it was. -/
theorem augmentFrom_found (disposable : D → Bool) (policy : Policy τ D)
    (hv : View q p.pkt.pkt p.cache) (hl : n.lookup alive q = .ok (some f)) :
    (augmentFrom disposable f policy p n).1 = n := by
  induction policy generalizing p n with
  | done d =>
    unfold augmentFrom
    split
    · rfl
    · split
      · rfl
      · rename_i n' hf
        cases n with
        | unexplored => cases hl
        | flow f' =>
          simp only [Node.lookup] at hl
          split at hl <;> cases hl
          cases hf
          rfl
        | test t need pos neg => cases hf
        | load t mask keys cases => cases hf
  | raise e => rfl
  | load t mask k ih =>
    unfold augmentFrom
    split
    · exact ih _ hv hl
    · rename_i read p' c hc
      obtain ⟨hv', hfollows⟩ := hv.load_follows hc
      have hrun := ih (.ok read) hv' (hfollows.lookup.trans hl)
      exact (congrArg c.plug hrun).trans (hfollows.plug_child hl)
  | test t need k ih =>
    unfold augmentFrom
    split
    · exact ih _ hv hl
    · rename_i ret p' c hc
      obtain ⟨hv', hfollows⟩ := hv.test_follows hc
      have hrun := ih (.ok ret) hv' (hfollows.lookup.trans hl)
      exact (congrArg c.plug hrun).trans (hfollows.plug_child hl)
  | modify t patch k ih =>
    unfold augmentFrom
    split
    · exact ih _ hv hl
    · rename_i p' hp
      exact ih _ (hv.modify_ok hp) hl

end

end Maple
