import Runos.Maple.Proof.Augment
import Runos.Maple.Proof.Record

/-!
# What a run changes

A call of the tracer leads the packets that answer what it records to the node it goes on to, and
the others as before (`Cursor.Local`). So a run of a policy on a tree of its own runs, when it
returns a decision that is not disposable, gives its flow to the packets that answer everything it
recorded; no other packet is led elsewhere (`lookup_augmentFrom`). What follows on a decision
without touching the packet has no part in it (`augmentFrom_andThen`).
-/

namespace Maple

open Oxm OxmType

variable {τ : Type} [OxmType τ] {D E F : Type} {t : τ} {alive : F → Bool}
  {q : Packet τ} {n : Node τ F} {p p' : TraceablePacketImpl τ} {c : Cursor τ F}
  {policy : Policy τ D} {flow : F}

/-! ## Whole fields -/

theorem wildcard_exact (ht : 0 < nbits t) : (Mask.exact t).wildcard = false := by
  rw [Mask.wildcard, beq_eq_false_iff_ne]
  intro h
  have h0 := congrArg (fun b : Bits t => b.getLsbD 0) h
  simp [Mask.exact, ht] at h0

theorem answered_load_exact {v : Bits t} :
    (TraceEvent.load t (.make v (.exact t))).Answered q ↔ q t = some v := by
  rw [TraceEvent.Answered, Packet.load_eq_some]
  constructor
  · rintro ⟨w, hw, heq⟩
    have hvalue : (Field.make w (.exact t)).value = (Field.make v (.exact t)).value :=
      congrArg Field.value heq
    rw [Field.value_make_exact, Field.value_make_exact] at hvalue
    rw [hw, hvalue]
  · exact fun h => ⟨v, h, rfl⟩

/-! ## One call -/

/-- The relation of the module doc, for a cursor at the node `n` after the events `es`. -/
structure Cursor.Local (alive : F → Bool) (q : Packet τ) (n : Node τ F)
    (es : List (TraceEvent τ)) (c : Cursor τ F) : Prop where
  plug : ∀ n', (c.plug n').lookup alive q =
    if ∀ e ∈ es, e.Answered q then n'.lookup alive q else n.lookup alive q
  child : (∀ e ∈ es, e.Answered q) → c.child.lookup alive q = n.lookup alive q

theorem Cursor.Local.stay : (Cursor.stay n).Local alive q n [] :=
  ⟨fun n' => by rw [if_pos nofun]; rfl, fun _ => rfl⟩

/-- What comes after, with what it records. -/
theorem Cursor.Local.append {es es' : List (TraceEvent τ)} (h : c.Local alive q n es)
    {n' : Node τ F} {f : Except Exc (Option F) → Except Exc (Option F)}
    (hn' : n'.lookup alive q =
      if ∀ e ∈ es', e.Answered q then f (c.child.lookup alive q) else c.child.lookup alive q) :
    (c.plug n').lookup alive q =
      if ∀ e ∈ es ++ es', e.Answered q then f (n.lookup alive q) else n.lookup alive q := by
  rw [h.plug]
  by_cases hes : ∀ e ∈ es, e.Answered q
  · have hall : (∀ e ∈ es ++ es', e.Answered q) ↔ ∀ e ∈ es', e.Answered q := by
      rw [List.forall_mem_append, and_iff_right hes]
    rw [if_pos hes, hn', h.child hes]
    simp only [hall]
  · rw [if_neg hes, if_neg fun hall => hes fun e he => hall e (List.mem_append_left _ he)]

variable [DecidableEq τ]

theorem Cursor.Local.event {e : TraceEvent τ} (ht : (q e.type).isSome)
    (h : TracerState.eventAt n e = .ok c) : c.Local alive q n [e] := by
  obtain ⟨hplug, hchild⟩ := lookup_event alive ht h
  refine ⟨fun n' => ?_, fun ha => hchild (ha e List.mem_cons_self)⟩
  simp only [hplug, List.forall_mem_singleton]

namespace TraceablePacketImpl

variable (alive q) in
theorem load_local {mask : Mask t} {read : Field t} (h : p.load mask n = .ok (read, p', c)) :
    ∃ es, p.loadRecorded mask = .ok (read, p', es) ∧
      ((∀ e ∈ es, (q e.type).isSome) → c.Local alive q n es) := by
  obtain ⟨hr, hcase⟩ := load_ok h
  rw [loadRecorded_some hr, ← wildcard_unexplored p.cache (load_mask hr)]
  rcases hcase with ⟨hw, rfl, rfl⟩ | ⟨hw, hload, rfl⟩
  · exact ⟨[], by rw [if_pos hw], fun _ => .stay⟩
  · exact ⟨[.load t (unexplored p.cache read)], by rw [if_neg hw]; rfl, fun hq =>
      .event (e := .load t (unexplored p.cache read)) (hq _ List.mem_cons_self) hload⟩

variable (alive q) in
theorem test_local {need : Field t} {ret : Bool} (h : p.test need n = .ok (ret, p', c)) :
    ∃ es, p.testRecorded need = .ok (ret, p', es) ∧
      ((∀ e ∈ es, (q e.type).isSome) → c.Local alive q n es) := by
  obtain ⟨read, hr, hcase⟩ := test_ok h
  rw [testRecorded_some hr, ← wildcard_unexplored p.cache (load_mask hr)]
  rcases hcase with ⟨ha, rfl, rfl, rfl⟩ | ⟨ha, hw, rfl, rfl, rfl⟩ | ⟨ha, hw, hret, htest, rfl⟩
  · exact ⟨[], by rw [if_pos ha], fun _ => .stay⟩
  · exact ⟨[], by rw [if_neg (by rw [ha]; nofun), if_pos hw], fun _ => .stay⟩
  · rw [mask_unexplored p.cache (load_mask hr)] at htest
    refine ⟨[.test t (need.widen (restMask p.cache need.mask)) ret], ?_, fun hq =>
      .event (e := .test t (need.widen (restMask p.cache need.mask)) ret)
        (hq _ List.mem_cons_self) htest⟩
    rw [if_neg (by rw [ha]; nofun), if_neg hw, ← hret]
    rfl

end TraceablePacketImpl

/-! ## A run -/

/-- Where a packet is led that answers everything a run recorded, when the run ends in `r`. -/
def landing (disposable : D → Bool) (alive : F → Bool) (flow : F) (r : Except Exc D)
    (old : Except Exc (Option F)) : Except Exc (Option F) :=
  match r with
  | .error _ => old
  | .ok d => if disposable d then old else .ok (if alive flow then some flow else none)

/-- **What a run changes**: it gives its flow to the packets that answer everything it recorded,
if it returns a decision that is not disposable. -/
theorem lookup_augmentFrom {has : τ → Prop} {Rec : F → D → FieldSet τ → Prop}
    (disposable : D → Bool) (flow : F) (hprop : policy.Propagates) {q₀ : Packet τ}
    (hv : View q₀ p.pkt.pkt p.cache) (hhas : ∀ t, (q₀ t).isSome → has t)
    (hn : Traced has Rec policy p.cache p.pkt.mods n)
    (hq : ∀ e ∈ (policy.record p).events, (q e.type).isSome) :
    (augmentFrom disposable flow policy p n).1.lookup alive q =
      if ∀ e ∈ (policy.record p).events, e.Answered q then
        landing disposable alive flow (policy.eval p.pkt).1 (n.lookup alive q)
      else n.lookup alive q := by
  induction policy generalizing p n with
  | done d =>
    have hfin : TracerImpl.finish flow n = .ok (.flow flow) := by
      obtain rfl | ⟨f, rfl, _⟩ := hn <;> rfl
    rw [if_pos (show ∀ e ∈ ((Policy.done d).record p).events, e.Answered q from nofun)]
    simp only [augmentFrom, Policy.eval, landing, hfin]
    split <;> rfl
  | raise e => exact (ite_self _).symm
  | load t mask k ih =>
    cases hr : p.pkt.pkt.load mask with
    | none =>
      have hl := TraceablePacketImpl.load_none hr n
      have hraise := hprop.1 .outOfRange
      simp only [augmentFrom, hl, Policy.eval, hr, orOutOfRange, Fallible.orThrow, hraise, landing,
        ite_self]
    | some read =>
      obtain ⟨v, hpv, -⟩ := Packet.load_eq_some.1 hr
      obtain ⟨⟨pkt, cache⟩, c, hl, rfl, hv', hchild, -⟩ :=
        hn.load_step hv (hhas t (hv.isSome hpv)) hr
      obtain ⟨es, hes, hlocal⟩ := TraceablePacketImpl.load_local alive q hl
      simp only [Policy.record, hes, Record.push] at hq ⊢
      obtain ⟨hq₁, hq₂⟩ := List.forall_mem_append.1 hq
      have hrun := (hlocal hq₁).append (ih _ (hprop.2 _) (p := ⟨p.pkt, cache⟩) hv' hchild hq₂)
      simp only [augmentFrom, hl, Policy.eval, hr, orOutOfRange, Fallible.orThrow]
      exact hrun
  | test t need k ih =>
    cases hr : p.pkt.pkt.load need.mask with
    | none =>
      have hl := TraceablePacketImpl.test_none hr n
      have hraise := hprop.1 .outOfRange
      simp only [augmentFrom, hl, Policy.eval, Packet.test, hr, Option.map_none, orOutOfRange,
        Fallible.orThrow, hraise, landing, ite_self]
    | some read =>
      obtain ⟨v, hpv, -⟩ := Packet.load_eq_some.1 hr
      obtain ⟨ret, ⟨pkt, cache⟩, c, htest, hl, rfl, hv', hchild, -⟩ :=
        hn.test_step hv (hhas t (hv.isSome hpv)) hr
      obtain ⟨es, hes, hlocal⟩ := TraceablePacketImpl.test_local alive q hl
      simp only [Policy.record, hes, Record.push] at hq ⊢
      obtain ⟨hq₁, hq₂⟩ := List.forall_mem_append.1 hq
      have hrun := (hlocal hq₁).append (ih _ (hprop.2 _) (p := ⟨p.pkt, cache⟩) hv' hchild hq₂)
      simp only [augmentFrom, hl, Policy.eval, htest, orOutOfRange, Fallible.orThrow]
      exact hrun
  | modify t patch k ih =>
    cases hm : p.pkt.pkt.modify patch with
    | none =>
      have hl := TraceablePacketImpl.modify_none hm
      have hraise := hprop.1 .outOfRange
      simp only [augmentFrom, hl, Policy.eval, modify_of_none hm, hraise, landing, ite_self]
    | some cur' =>
      have hl := TraceablePacketImpl.modify_some (p := p) hm
      have hn' : Traced has Rec (k (.ok ())) (p.cache.modify patch) (p.pkt.mods.modify patch) n := by
        obtain rfl | ⟨-, hn⟩ := hn
        · exact traced_unexplored _ _ _
        · exact hn
      simp only [Policy.record, hl, Record.push, List.nil_append] at hq ⊢
      have hrun := ih _ hprop.2
        (p := ⟨⟨cur', p.pkt.mods.modify patch⟩, p.cache.modify patch⟩) (hv.modify hm) hn' hq
      simp only [augmentFrom, hl, Policy.eval, modify_of_some hm]
      exact hrun

/-! ## Loads of whole fields -/

section
variable {cache : FieldSet τ}

theorem unexplored_of_free (hc : ∀ i, cache.get t i = none) (read : Field t) :
    unexplored cache read = read :=
  Field.ext_get fun i => by rw [get_unexplored, hc]; rfl

theorem restMask_of_free (hc : ∀ i, cache.get t i = none) (mask : Mask t) :
    restMask cache mask = mask :=
  Mask.ext <| BitVec.eq_of_getLsbD_eq fun i _ => by
    rw [getLsbD_restMask, hc, Option.isNone_none, Bool.and_true]

/-- A field that the cache knows nothing of is recorded as a whole. -/
theorem record_loadExact {k : Bits t → Policy τ D} {v : Bits t} (ht : 0 < nbits t)
    (hc : ∀ i, p.cache.get t i = none) (hv : p.pkt.pkt t = some v) :
    ((Policy.loadExact t k).record p).events =
      .load t (.make v (.exact t)) :: ((k v).record (p.learn (.make v (.exact t)))).events := by
  have hr : p.pkt.pkt.load (.exact t) = some (.make v (.exact t)) := by rw [Packet.load, hv]; rfl
  simp only [Policy.loadExact, Policy.record, TraceablePacketImpl.loadRecorded_some hr,
    restMask_of_free hc, wildcard_exact ht, unexplored_of_free hc, Field.value_make_exact,
    Bool.false_eq_true, if_false, Record.push]
  rfl

end

/-! ## What follows on a decision -/

/-- The result of `k` in place of the decision. -/
def Outcome.andThen (o : Outcome τ D) (k : D → Except Exc E) : Outcome τ E :=
  match o.decision.map k with
  | none => ⟨none, o.mods, o.thrown⟩
  | some (.ok e) => ⟨some e, o.mods, o.thrown⟩
  | some (.error x) => ⟨none, o.mods, some x⟩

/-- A flow is kept when `k` returns what is not disposable. -/
def dropped (disposable : E → Bool) (k : D → Except Exc E) (d : D) : Bool :=
  match k d with
  | .ok e => disposable e
  | .error _ => true

theorem augmentFrom_andThen (disposable : E → Bool) (flow : F) (k : D → Except Exc E)
    (policy : Policy τ D) (p : TraceablePacketImpl τ) (n : Node τ F) :
    augmentFrom disposable flow (policy.andThen k) p n =
      (augmentFrom (dropped disposable k) flow policy p n).map id (Outcome.andThen · k) := by
  induction policy generalizing p n with
  | done d =>
    unfold Policy.andThen
    cases hk : k d with
    | error e => simp [augmentFrom, dropped, hk, Outcome.andThen]
    | ok e =>
      simp only [augmentFrom, dropped, hk]
      split
      · simp [Outcome.andThen, hk]
      · split <;> simp [Outcome.andThen, hk]
  | raise e => rfl
  | load t mask k' ih =>
    unfold Policy.andThen augmentFrom
    cases p.load mask n with
    | error e => exact ih _ _ _
    | ok r => simp only [ih, Prod.map_map, Function.id_comp, Function.comp_id]
  | test t need k' ih =>
    unfold Policy.andThen augmentFrom
    cases p.test need n with
    | error e => exact ih _ _ _
    | ok r => simp only [ih, Prod.map_map, Function.id_comp, Function.comp_id]
  | modify t patch k' ih =>
    unfold Policy.andThen augmentFrom
    cases p.modify patch with
    | error e => exact ih _ _ _
    | ok p' => exact ih _ _ _

end Maple
