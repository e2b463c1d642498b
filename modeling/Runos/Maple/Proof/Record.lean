import Runos.Maple.Tracer
import Runos.Maple.Proof.Memo

/-!
# Tracing is transparent and sufficient

A run on a traced packet answers the policy as the packet itself does (`record_eq_eval`): what the
cache knows is what the packet has. Two runs of one policy are in step (`InStep`) while their
caches and their modifications are the same: each then asks the tracer for the same unexplored
bits, and a packet that gives the recorded answers stays in step (`InStep.load`, `InStep.test`,
`InStep.modify`), so that its run is the recorded one (`InStep.record`).
-/

namespace Maple

open Oxm OxmType

variable {τ : Type} [OxmType τ] {D : Type} {t : τ}

/-! ## Recorded calls -/

namespace TraceablePacketImpl

variable {p : TraceablePacketImpl τ} {mask : Mask t} {need read : Field t}

variable [DecidableEq τ]

/-- The traced packet with bits learned. -/
def learn (p : TraceablePacketImpl τ) (f : Field t) : TraceablePacketImpl τ :=
  { p with cache := p.cache.modify f }

theorem loadRecorded_none (h : p.pkt.pkt.load mask = none) :
    p.loadRecorded mask = .error .outOfRange := loadVia_none h _ _

theorem loadRecorded_some (h : p.pkt.pkt.load mask = some read) :
    p.loadRecorded mask = .ok (
      if (restMask p.cache mask).wildcard then (read, p, [])
      else (read, p.learn (unexplored p.cache read), [.load t (unexplored p.cache read)])) := by
  rw [loadRecorded, loadVia_some h, wildcard_unexplored p.cache (load_mask h)]
  cases (restMask p.cache mask).wildcard <;> rfl

theorem testRecorded_none (h : p.pkt.pkt.load need.mask = none) :
    p.testRecorded need = .error .outOfRange := testVia_none h _ _

theorem testRecorded_some (h : p.pkt.pkt.load need.mask = some read) :
    p.testRecorded need = .ok (
      if (p.cache.load need.mask).agrees need = false then (false, p, [])
      else if (restMask p.cache need.mask).wildcard then (true, p, [])
      else ((unexplored p.cache read).agrees need,
        if (unexplored p.cache read).agrees need then p.learn (unexplored p.cache read) else p,
        [.test t (need.widen (restMask p.cache need.mask))
          ((unexplored p.cache read).agrees need)])) := by
  rw [testRecorded, testVia_some h, wildcard_unexplored p.cache (load_mask h),
    mask_unexplored p.cache (load_mask h)]
  cases (p.cache.load need.mask).agrees need with
  | false => rfl
  | true => cases (restMask p.cache need.mask).wildcard <;> rfl

end TraceablePacketImpl

/-! ## One run -/

section Transparent

variable {p : Packet τ} {P : TraceablePacketImpl τ} {mask : Mask t} {need read : Field t}

variable [DecidableEq τ]

/-- A load reads what the packet has, and learns bits that the packet has. -/
theorem View.loadRecorded (h : View p P.pkt.pkt P.cache)
    (hr : P.pkt.pkt.load mask = some read) :
    ∃ P' events, P.loadRecorded mask = .ok (read, P', events) ∧ P'.pkt = P.pkt ∧
      View p P'.pkt.pkt P'.cache := by
  rw [TraceablePacketImpl.loadRecorded_some hr]
  split
  · exact ⟨P, [], rfl, rfl, h⟩
  · exact ⟨_, _, rfl, rfl, h.learn (View.has_unexplored P.cache hr)⟩

/-- A test returns what it returns on the packet. -/
theorem View.testRecorded (h : View p P.pkt.pkt P.cache)
    (hr : P.pkt.pkt.load need.mask = some read) :
    ∃ ret P' events, P.pkt.pkt.test need = some ret ∧
      P.testRecorded need = .ok (ret, P', events) ∧ P'.pkt = P.pkt ∧
      View p P'.pkt.pkt P'.cache := by
  rw [TraceablePacketImpl.testRecorded_some hr, h.test_eq hr]
  cases (P.cache.load need.mask).agrees need with
  | false => exact ⟨false, P, [], rfl, rfl, rfl, h⟩
  | true =>
    simp only [Bool.true_and, Bool.true_eq_false, if_false]
    split
    · rename_i hw
      rw [agrees_of_wildcard ((wildcard_unexplored P.cache (load_mask hr)).trans hw)]
      exact ⟨true, P, [], rfl, rfl, rfl, h⟩
    · refine ⟨_, _, _, rfl, rfl, ?_⟩
      split
      · exact ⟨rfl, h.learn (View.has_unexplored P.cache hr)⟩
      · exact ⟨rfl, h⟩

/-- **Tracing is transparent**: the policy is answered as on the packet itself, after the same
modifications, and ends in the same way. -/
theorem record_eq_eval (policy : Policy τ D) (h : View p P.pkt.pkt P.cache) :
    (policy.record P).replies = policy.replies P.pkt ∧
      ((policy.record P).result, (policy.record P).pkt) = policy.eval P.pkt := by
  induction policy generalizing P with
  | done d => exact ⟨rfl, rfl⟩
  | raise e => exact ⟨rfl, rfl⟩
  | load t mask k ih =>
    simp only [Policy.record, Policy.replies, Policy.eval]
    cases hr : P.pkt.pkt.load mask with
    | none =>
      rw [TraceablePacketImpl.loadRecorded_none hr]
      obtain ⟨h1, h2⟩ := ih (.error .outOfRange) h
      exact ⟨congrArg _ h1, h2⟩
    | some read =>
      obtain ⟨⟨pkt, cache⟩, events, hl, rfl, hv⟩ := h.loadRecorded hr
      rw [hl]
      obtain ⟨h1, h2⟩ := ih (.ok read) hv
      exact ⟨congrArg _ h1, h2⟩
  | test t need k ih =>
    simp only [Policy.record, Policy.replies, Policy.eval]
    cases hr : P.pkt.pkt.load need.mask with
    | none =>
      rw [TraceablePacketImpl.testRecorded_none hr, Packet.test, hr]
      obtain ⟨h1, h2⟩ := ih (.error .outOfRange) h
      exact ⟨congrArg _ h1, h2⟩
    | some read =>
      obtain ⟨ret, ⟨pkt, cache⟩, events, ht, hl, rfl, hv⟩ := h.testRecorded hr
      rw [hl, ht]
      obtain ⟨h1, h2⟩ := ih (.ok ret) hv
      exact ⟨congrArg _ h1, h2⟩
  | modify t patch k ih =>
    simp only [Policy.record, Policy.replies, Policy.eval]
    cases hm : P.pkt.pkt.modify patch with
    | none =>
      rw [TraceablePacketImpl.modify_none hm, modify_of_none hm]
      obtain ⟨h1, h2⟩ := ih (.error .outOfRange) h
      exact ⟨congrArg _ h1, h2⟩
    | some cur =>
      rw [TraceablePacketImpl.modify_some hm, modify_of_some hm]
      obtain ⟨h1, h2⟩ :=
        ih (.ok ()) (P := ⟨⟨cur, P.pkt.mods.modify patch⟩, P.cache.modify patch⟩) (h.modify hm)
      exact ⟨congrArg _ h1, h2⟩

end Transparent

/-! ## Two runs -/

/-- A call before two runs that agree. -/
theorem InStep.pushed {r r' : Record τ D} {events : List (TraceEvent τ)} {reply : Reply τ}
    (h : r.events = r'.events ∧ r.replies = r'.replies ∧ r.result = r'.result ∧
      r.pkt.mods = r'.pkt.mods) :
    (r.push events reply).events = (r'.push events reply).events ∧
      (r.push events reply).replies = (r'.push events reply).replies ∧
      (r.push events reply).result = (r'.push events reply).result ∧
      (r.push events reply).pkt.mods = (r'.push events reply).pkt.mods :=
  ⟨congrArg (events ++ ·) h.1, congrArg (reply :: ·) h.2.1, h.2.2⟩

variable [DecidableEq τ]

/-- Runs that started on `p` and on `q` stand at the same point of the policy. -/
structure InStep (p q : Packet τ) (P Q : TraceablePacketImpl τ) : Prop where
  left : View p P.pkt.pkt P.cache
  right : View q Q.pkt.pkt Q.cache
  cache : Q.cache = P.cache
  mods : Q.pkt.mods = P.pkt.mods
  fields : ∀ t, (p t).isSome = (q t).isSome

namespace InStep

variable {p q : Packet τ} {P Q : TraceablePacketImpl τ} {mask : Mask t} {need read : Field t}

theorem isSome (h : InStep p q P Q) (t : τ) : (P.pkt.pkt t).isSome = (Q.pkt.pkt t).isSome := by
  rw [h.left.dom, h.right.dom, h.fields]

theorem eq_none (h : InStep p q P Q) (ht : P.pkt.pkt t = none) : Q.pkt.pkt t = none := by
  have := h.isSome t
  rw [ht] at this
  simpa using this.symm

theorem load_some (h : InStep p q P Q) (hr : P.pkt.pkt.load mask = some read) :
    ∃ read', Q.pkt.pkt.load mask = some read' := by
  refine Option.ne_none_iff_exists'.1 fun hn => ?_
  rw [Packet.load_eq_none, ← Option.not_isSome_iff_eq_none, ← h.isSome,
    Option.not_isSome_iff_eq_none, ← Packet.load_eq_none (m := mask), hr] at hn
  cases hn

/-- Both runs learn the same bits. -/
theorem learn (h : InStep p q P Q) {f : Field t} (hP : P.pkt.pkt.Has f) (hQ : Q.pkt.pkt.Has f) :
    InStep p q (P.learn f) (Q.learn f) where
  left := h.left.learn hP
  right := h.right.learn hQ
  cache := by simp only [TraceablePacketImpl.learn, h.cache]
  mods := h.mods
  fields := h.fields

/-- A load: the packet that answers what was recorded reads the same bits, and stays in step. -/
theorem load (h : InStep p q P Q) (hr : P.pkt.pkt.load mask = some read) :
    ∃ P' events, P.loadRecorded mask = .ok (read, P', events) ∧
      ((∀ e ∈ events, e.Answered q) →
        ∃ Q', Q.loadRecorded mask = .ok (read, Q', events) ∧ InStep p q P' Q') := by
  obtain ⟨read', hr'⟩ := h.load_some hr
  have hread := h.left.read_eq hr
  have hread' := h.right.read_eq hr'
  rw [TraceablePacketImpl.loadRecorded_some hr, TraceablePacketImpl.loadRecorded_some hr']
  rw [h.cache] at hread' ⊢
  by_cases hw : (restMask P.cache mask).wildcard = true
  · rw [if_pos hw, if_pos hw]
    have hsame : read' = read := by
      rw [hread, hread', rewrite_of_wildcard, rewrite_of_wildcard]
      · exact (wildcard_unexplored P.cache (load_mask hr)).trans hw
      · exact (wildcard_unexplored P.cache (load_mask hr')).trans hw
    refine ⟨P, [], rfl, fun _ => ⟨Q, ?_, h⟩⟩
    rw [hsame]
  · rw [if_neg hw, if_neg hw]
    refine ⟨_, _, rfl, fun hq => ?_⟩
    -- the recorded answer is the unexplored part of what `q` reads
    have hans : q.load (unexplored P.cache read).mask = some (unexplored P.cache read) :=
      hq _ List.mem_cons_self
    have hrest := h.right.load_rest hr'
    rw [h.cache, ← mask_unexplored P.cache (load_mask hr), hans, Option.some.injEq] at hrest
    have hsame : read' = read := by rw [hread, hread', ← hrest]
    subst hsame
    refine ⟨_, rfl, h.learn (View.has_unexplored P.cache hr) (View.has_unexplored P.cache hr')⟩

/-- A test: the packet that answers what was recorded gets the same result, and stays in step. -/
theorem test (h : InStep p q P Q) (hr : P.pkt.pkt.load need.mask = some read) :
    ∃ ret P' events, P.testRecorded need = .ok (ret, P', events) ∧
      ((∀ e ∈ events, e.Answered q) →
        ∃ Q', Q.testRecorded need = .ok (ret, Q', events) ∧ InStep p q P' Q') := by
  obtain ⟨read', hr'⟩ := h.load_some hr
  rw [TraceablePacketImpl.testRecorded_some hr, TraceablePacketImpl.testRecorded_some hr', h.cache]
  by_cases ha : (P.cache.load need.mask).agrees need = false
  · rw [if_pos ha, if_pos ha]
    exact ⟨false, P, [], rfl, fun _ => ⟨Q, rfl, h⟩⟩
  · rw [if_neg ha, if_neg ha]
    by_cases hw : (restMask P.cache need.mask).wildcard = true
    · rw [if_pos hw, if_pos hw]
      exact ⟨true, P, [], rfl, fun _ => ⟨Q, rfl, h⟩⟩
    · rw [if_neg hw, if_neg hw]
      refine ⟨_, _, _, rfl, fun hq => ?_⟩
      have hans : q.test (need.widen (restMask P.cache need.mask)) =
          some ((unexplored P.cache read).agrees need) := hq _ List.mem_cons_self
      have hrest := h.right.test_rest hr'
      rw [h.cache, hans, Option.some.injEq] at hrest
      rw [← hrest]
      refine ⟨_, rfl, ?_⟩
      split
      · -- a test that succeeds fixes the unexplored bits of both packets
        rename_i hret
        have hu := View.unexplored_of_agrees hr hret
        have hu' := View.unexplored_of_agrees hr' (hrest ▸ hret)
        have hQ := View.has_unexplored P.cache hr'
        rw [hu', ← hu] at hQ ⊢
        exact h.learn (View.has_unexplored P.cache hr) hQ
      · exact h

/-- A modification that the packet admits. -/
theorem modify (h : InStep p q P Q) {patch : Field t} {cur : Packet τ}
    (hm : P.pkt.pkt.modify patch = some cur) :
    ∃ cur', Q.pkt.pkt.modify patch = some cur' ∧
      InStep p q ⟨⟨cur, P.pkt.mods.modify patch⟩, P.cache.modify patch⟩
        ⟨⟨cur', Q.pkt.mods.modify patch⟩, Q.cache.modify patch⟩ := by
  have hne : Q.pkt.pkt.modify patch ≠ none := fun hn => by
    rw [Packet.modify_eq_none, ← Option.not_isSome_iff_eq_none, ← h.isSome,
      Option.not_isSome_iff_eq_none] at hn
    have hnone : P.pkt.pkt.modify patch = none := Packet.modify_eq_none.2 hn
    rw [hm] at hnone
    cases hnone
  obtain ⟨cur', hm'⟩ := Option.ne_none_iff_exists'.1 hne
  refine ⟨cur', hm', h.left.modify hm, h.right.modify hm', ?_, ?_, h.fields⟩
  · rw [h.cache]
  · rw [h.mods]

/-- **Tracing is sufficient**: a run in step with another, on a packet that gives the recorded
answers, is the recorded run. -/
theorem record (policy : Policy τ D) (h : InStep p q P Q)
    (hq : ∀ e ∈ (policy.record P).events, e.Answered q) :
    (policy.record Q).events = (policy.record P).events ∧
      (policy.record Q).replies = (policy.record P).replies ∧
      (policy.record Q).result = (policy.record P).result ∧
      (policy.record Q).pkt.mods = (policy.record P).pkt.mods := by
  induction policy generalizing P Q with
  | done d => exact ⟨rfl, rfl, rfl, h.mods⟩
  | raise e => exact ⟨rfl, rfl, rfl, h.mods⟩
  | load t mask k ih =>
    simp only [Policy.record] at hq ⊢
    cases hr : P.pkt.pkt.load mask with
    | none =>
      have hr' := Packet.load_eq_none (m := mask).2 (h.eq_none (Packet.load_eq_none.1 hr))
      rw [TraceablePacketImpl.loadRecorded_none hr] at hq ⊢
      rw [TraceablePacketImpl.loadRecorded_none hr']
      exact pushed (ih _ h hq)
    | some read =>
      obtain ⟨P', events, hl, hstep⟩ := h.load hr
      rw [hl] at hq ⊢
      obtain ⟨Q', hl', h'⟩ := hstep fun e he => hq e (List.mem_append_left _ he)
      rw [hl']
      exact pushed (ih _ h' fun e he => hq e (List.mem_append_right _ he))
  | test t need k ih =>
    simp only [Policy.record] at hq ⊢
    cases hr : P.pkt.pkt.load need.mask with
    | none =>
      have hr' := Packet.load_eq_none (m := need.mask).2 (h.eq_none (Packet.load_eq_none.1 hr))
      rw [TraceablePacketImpl.testRecorded_none hr] at hq ⊢
      rw [TraceablePacketImpl.testRecorded_none hr']
      exact pushed (ih _ h hq)
    | some read =>
      obtain ⟨ret, P', events, hl, hstep⟩ := h.test hr
      rw [hl] at hq ⊢
      obtain ⟨Q', hl', h'⟩ := hstep fun e he => hq e (List.mem_append_left _ he)
      rw [hl']
      exact pushed (ih _ h' fun e he => hq e (List.mem_append_right _ he))
  | modify t patch k ih =>
    simp only [Policy.record] at hq ⊢
    cases hm : P.pkt.pkt.modify patch with
    | none =>
      have hm' : Q.pkt.pkt.modify patch = none :=
        Packet.modify_eq_none.2 (h.eq_none (Packet.modify_eq_none.1 hm))
      rw [TraceablePacketImpl.modify_none hm] at hq ⊢
      rw [TraceablePacketImpl.modify_none hm']
      exact pushed (ih _ h hq)
    | some cur =>
      obtain ⟨cur', hm', h'⟩ := h.modify hm
      rw [TraceablePacketImpl.modify_some hm] at hq ⊢
      rw [TraceablePacketImpl.modify_some hm']
      exact pushed (ih _ h' hq)

end InStep

/-- **Tracing is transparent and sufficient.** Run through a traced packet, a policy is answered as
on the packet itself; the run on another packet with the same fields that gives, unmodified, every
recorded answer records the same events, gets the same results and makes the same modifications. -/
theorem tracing_sufficient (policy : Policy τ D) (p q : Packet τ)
    (hfields : ∀ t, (p t).isSome = (q t).isSome) :
    (policy.record ⟨⟨p, ∅⟩, ∅⟩).replies = policy.replies ⟨p, ∅⟩ ∧
      ((policy.record ⟨⟨p, ∅⟩, ∅⟩).result, (policy.record ⟨⟨p, ∅⟩, ∅⟩).pkt) =
        policy.eval ⟨p, ∅⟩ ∧
      ((∀ e ∈ (policy.record ⟨⟨p, ∅⟩, ∅⟩).events, e.Answered q) →
        (policy.record ⟨⟨q, ∅⟩, ∅⟩).events = (policy.record ⟨⟨p, ∅⟩, ∅⟩).events ∧
        (policy.record ⟨⟨q, ∅⟩, ∅⟩).replies = (policy.record ⟨⟨p, ∅⟩, ∅⟩).replies ∧
        (policy.record ⟨⟨q, ∅⟩, ∅⟩).result = (policy.record ⟨⟨p, ∅⟩, ∅⟩).result ∧
        (policy.record ⟨⟨q, ∅⟩, ∅⟩).pkt.mods = (policy.record ⟨⟨p, ∅⟩, ∅⟩).pkt.mods) := by
  obtain ⟨hreplies, heval⟩ := record_eq_eval policy (P := ⟨⟨p, ∅⟩, ∅⟩) (.refl p)
  have hstep : InStep p q ⟨⟨p, ∅⟩, ∅⟩ ⟨⟨q, ∅⟩, ∅⟩ :=
    ⟨.refl p, .refl q, rfl, rfl, hfields⟩
  exact ⟨hreplies, heval, hstep.record policy⟩

/-- Packets that differ in what `dispatch` does not read. -/
theorem tracing_sufficient_dispatch :
    (dispatch.record ⟨⟨frame 0x0800 7 9, ∅⟩, ∅⟩).events =
        [.test .eth_type (Field.make 0x0800 (.exact _)) true] ∧
      (dispatch.record ⟨⟨frame 0x0800 7 9, ∅⟩, ∅⟩).result = .ok 0 := by
  have hp : (dispatch.record ⟨⟨frame 0x0800 5 1, ∅⟩, ∅⟩).events =
      [.test .eth_type (Field.make 0x0800 (.exact _)) true] := by rfl
  obtain ⟨-, -, h⟩ := tracing_sufficient dispatch (frame 0x0800 5 1) (frame 0x0800 7 9) (by
    intro t
    rw [Bool.eq_iff_iff]
    exact ⟨frame_isSome t, frame_isSome t⟩)
  obtain ⟨h1, -, h3, -⟩ := h (by rw [hp]; decide)
  exact ⟨h1.trans hp, h3.trans (by decide)⟩

end Maple
