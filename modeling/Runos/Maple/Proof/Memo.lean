import Runos.Maple.Proof.Compile
import Runos.Maple.Proof.View

/-!
# Memoization is sound

`Traced has Rec policy c m n`: the tree `n` is a record of runs of `policy` from the point where
the cache is `c` and the modifications are `m`. Its nodes ask what the policy asks there, its
branches record what the policy does on each answer, its flows satisfy `Rec` for the decision and
the modifications the policy ends with, and `has` holds of every field the recorded runs needed.
A run keeps this, call by call (`Traced.load_step`, `Traced.test_step`, `augmentFrom_spec`): the
tracer never disagrees with the tree and the traced packet behaves as the packet itself. A packet
that `lookup` leads to a flow makes the policy end as recorded there (`eval_of_lookup`). Over the
calls of a `Memo` this is `memoization_sound`.
-/

namespace Maple

open Oxm OxmType

variable {τ : Type} [OxmType τ] {D F : Type} {t : τ}

/-! ## Fields without bits -/

theorem rewrite_of_wildcard {f g : Field t} (h : g.wildcard = true) : f.rewrite g = f :=
  Field.ext_get fun i => by rw [Field.get_rewrite, Field.wildcard_iff.1 h i, Option.none_or]

theorem agrees_of_wildcard {f g : Field t} (h : f.wildcard = true) : f.agrees g = true :=
  Field.agrees_iff.2 fun i b b' hb _ => by rw [Field.wildcard_iff.1 h i] at hb; cases hb

/-! ## The flow of a call -/

theorem Memo.flowFor_cases (s : Memo τ D) (call : Call τ) :
    s.flowFor call = s.next ∨ s.lookup call.pkt = .ok (some (s.flowFor call)) := by
  unfold Memo.flowFor
  split
  · rename_i f h
    cases call.reuse with
    | true => exact .inr h
    | false => exact .inl rfl
  · exact .inl rfl

/-! ## Trees that record a policy -/

variable [DecidableEq τ]

/-- The relation of the module doc. -/
def Traced (has : τ → Prop) (Rec : F → D → FieldSet τ → Prop) :
    Policy τ D → FieldSet τ → FieldSet τ → Node τ F → Prop
  | .done d, _, m, n => n = .unexplored ∨ ∃ f, n = .flow f ∧ Rec f d m
  | .raise _, _, _, n => n = .unexplored
  | .load t mask k, c, m, n => n = .unexplored ∨ has t ∧
    if (restMask c mask).wildcard then Traced has Rec (k (.ok (c.load mask))) c m n
    else ∃ keys cases, n = .load t (restMask c mask) keys cases ∧ ∀ key ∈ keys,
      Traced has Rec (k (.ok ((c.load mask).rewrite (Field.make key (restMask c mask)))))
        (c.modify (Field.make key (restMask c mask))) m (cases key)
  | .test t need k, c, m, n => n = .unexplored ∨ has t ∧
    if (c.load need.mask).agrees need = false then Traced has Rec (k (.ok false)) c m n
    else if (restMask c need.mask).wildcard then Traced has Rec (k (.ok true)) c m n
    else ∃ pos neg, n = .test t (need.widen (restMask c need.mask)) pos neg ∧
      Traced has Rec (k (.ok true)) (c.modify (need.widen (restMask c need.mask))) m pos ∧
      Traced has Rec (k (.ok false)) c m neg
  | .modify t patch k, c, m, n => n = .unexplored ∨ has t ∧
    Traced has Rec (k (.ok ())) (c.modify patch) (m.modify patch) n

variable {has : τ → Prop} {Rec Rec' : F → D → FieldSet τ → Prop} {policy : Policy τ D}
  {c m : FieldSet τ} {n : Node τ F}

theorem traced_unexplored (policy : Policy τ D) (c m : FieldSet τ) :
    Traced has Rec policy c m .unexplored := by
  cases policy with
  | raise e => rfl
  | _ => exact .inl rfl

theorem Traced.mono (h : Traced has Rec policy c m n)
    (hR : ∀ f d m, Rec f d m → Rec' f d m) : Traced has Rec' policy c m n := by
  induction policy generalizing c m n with
  | done d => exact h.imp_right fun ⟨f, hf, hr⟩ => ⟨f, hf, hR f d m hr⟩
  | raise e => exact h
  | load t mask k ih =>
    refine h.imp_right fun ⟨ht, h⟩ => ⟨ht, ?_⟩
    split at h
    · rename_i hw; rw [if_pos hw]; exact ih _ h
    · rename_i hw
      rw [if_neg hw]
      obtain ⟨keys, cases, rfl, hk⟩ := h
      exact ⟨keys, cases, rfl, fun key hkey => ih _ (hk key hkey)⟩
  | test t need k ih =>
    refine h.imp_right fun ⟨ht, h⟩ => ⟨ht, ?_⟩
    split at h
    · rename_i ha; rw [if_pos ha]; exact ih _ h
    · rename_i ha
      rw [if_neg ha]
      split at h
      · rename_i hw; rw [if_pos hw]; exact ih _ h
      · rename_i hw
        rw [if_neg hw]
        obtain ⟨pos, neg, rfl, hp, hn⟩ := h
        exact ⟨pos, neg, rfl, ih _ hp, ih _ hn⟩
  | modify t patch k ih => exact h.imp_right fun ⟨ht, h⟩ => ⟨ht, ih _ h⟩

/-- The tree mentions only fields that the recorded runs needed. -/
theorem Traced.carried {q : Packet τ} (h : Traced has Rec policy c m n)
    (hq : ∀ t, has t → (q t).isSome) : n.Carried q := by
  induction policy generalizing c m n with
  | done d =>
    obtain rfl | ⟨f, rfl, _⟩ := h <;> trivial
  | raise e => cases h; trivial
  | load t mask k ih =>
    obtain rfl | ⟨ht, h⟩ := h
    · trivial
    split at h
    · exact ih _ h
    · obtain ⟨keys, cases, rfl, hk⟩ := h
      exact ⟨hq t ht, fun key hkey => ih _ (hk key hkey)⟩
  | test t need k ih =>
    obtain rfl | ⟨ht, h⟩ := h
    · trivial
    split at h
    · exact ih _ h
    · split at h
      · exact ih _ h
      · obtain ⟨pos, neg, rfl, hp, hn⟩ := h
        exact ⟨hq t ht, ih _ hp, ih _ hn⟩
  | modify t patch k ih =>
    obtain rfl | ⟨ht, h⟩ := h
    · trivial
    · exact ih _ h

/-! ## A packet that follows the tree -/

theorem wildcard_unexplored (c : FieldSet τ) {read : Field t} {mask : Mask t}
    (h : read.mask = mask) : (unexplored c read).wildcard = (restMask c mask).wildcard := by
  rw [Field.wildcard, mask_unexplored c h]

theorem modify_of_none {p : ModTrackingPacket τ} {patch : Field t}
    (h : p.pkt.modify patch = none) : p.modify patch = .error .outOfRange := by
  rw [ModTrackingPacket.modify, h]; rfl

theorem modify_of_some {p : ModTrackingPacket τ} {patch : Field t} {cur : Packet τ}
    (h : p.pkt.modify patch = some cur) : p.modify patch = .ok ⟨cur, p.mods.modify patch⟩ := by
  rw [ModTrackingPacket.modify, h]; rfl

namespace TraceablePacketImpl

variable {p : TraceablePacketImpl τ}

theorem load_none {mask : Mask t} (h : p.pkt.pkt.load mask = none) (n : Node τ F) :
    p.load mask n = .error .outOfRange := loadVia_none h _ _

theorem test_none {need : Field t} (h : p.pkt.pkt.load need.mask = none) (n : Node τ F) :
    p.test need n = .error .outOfRange := testVia_none h _ _

theorem modify_none {patch : Field t} (h : p.pkt.pkt.modify patch = none) :
    p.modify patch = .error .outOfRange := by
  rw [TraceablePacketImpl.modify, modify_of_none h]; rfl

theorem modify_some {patch : Field t} {cur : Packet τ} (h : p.pkt.pkt.modify patch = some cur) :
    p.modify patch = .ok ⟨⟨cur, p.pkt.mods.modify patch⟩, p.cache.modify patch⟩ := by
  rw [TraceablePacketImpl.modify, modify_of_some h]; rfl

end TraceablePacketImpl

/-- A packet that is led to a flow from a load is led to it from what the policy does on the value
it reads. -/
theorem Traced.lookup_load {mask : Mask t} {k : Except Exc (Field t) → Policy τ D}
    (h : Traced has Rec (.load t mask k) c m n) {q cur : Packet τ} (hv : View q cur c)
    {read : Field t} (hr : cur.load mask = some read) {alive : F → Bool} {f : F}
    (hl : n.lookup alive q = .ok (some f)) :
    ∃ c' n', Traced has Rec (k (.ok read)) c' m n' ∧ View q cur c' ∧
      n'.lookup alive q = .ok (some f) := by
  have hread := hv.read_eq hr
  obtain rfl | ⟨-, h⟩ := h
  · cases hl
  split at h
  · rename_i hw
    rw [rewrite_of_wildcard ((wildcard_unexplored c (load_mask hr)).trans hw)] at hread
    rw [← hread] at h
    exact ⟨c, n, h, hv, hl⟩
  · obtain ⟨keys, cases, rfl, hk⟩ := h
    simp only [Node.lookup, hv.load_rest hr] at hl
    split at hl
    · rename_i hm
      have hkey := hk _ hm
      rw [← mask_unexplored c (load_mask hr), make_value_mask, ← hread] at hkey
      exact ⟨_, _, hkey, hv.learn (View.has_unexplored c hr), hl⟩
    · cases hl

/-- The same for a test. -/
theorem Traced.lookup_test {need : Field t} {k : Except Exc Bool → Policy τ D}
    (h : Traced has Rec (.test t need k) c m n) {q cur : Packet τ} (hv : View q cur c)
    {read : Field t} (hr : cur.load need.mask = some read) {alive : F → Bool} {f : F}
    (hl : n.lookup alive q = .ok (some f)) :
    ∃ ret c' n', cur.test need = some ret ∧ Traced has Rec (k (.ok ret)) c' m n' ∧
      View q cur c' ∧ n'.lookup alive q = .ok (some f) := by
  rw [hv.test_eq hr]
  obtain rfl | ⟨-, h⟩ := h
  · cases hl
  split at h
  · rename_i ha
    rw [ha, Bool.false_and]
    exact ⟨_, c, n, rfl, h, hv, hl⟩
  · rename_i ha
    rw [Bool.not_eq_false] at ha
    rw [ha, Bool.true_and]
    split at h
    · rename_i hw
      rw [agrees_of_wildcard ((wildcard_unexplored c (load_mask hr)).trans hw)]
      exact ⟨_, c, n, rfl, h, hv, hl⟩
    · obtain ⟨pos, neg, rfl, hp, hng⟩ := h
      simp only [Node.lookup, hv.test_rest hr] at hl
      cases hu : (unexplored c read).agrees need with
      | true =>
        rw [hu] at hl
        rw [← View.unexplored_of_agrees hr hu] at hp
        exact ⟨_, _, pos, rfl, hp, hv.learn (View.has_unexplored c hr), hl⟩
      | false =>
        rw [hu] at hl
        exact ⟨_, c, neg, rfl, hng, hv, hl⟩

/-- **A packet that is led to a flow** makes the policy end as the flow records, unless it lacks a
field that the recorded runs needed. -/
theorem eval_of_lookup (hprop : policy.Propagates) {q cur : Packet τ} {alive : F → Bool} {f : F}
    (hn : Traced has Rec policy c m n) (hv : View q cur c)
    (hl : n.lookup alive q = .ok (some f)) :
    (∃ d p', policy.eval ⟨cur, m⟩ = (.ok d, p') ∧ Rec f d p'.mods) ∨
      (∃ e p', policy.eval ⟨cur, m⟩ = (.error e, p')) ∧ ∃ t, has t ∧ q t = none := by
  induction policy generalizing c m n cur with
  | done d =>
    obtain rfl | ⟨g, rfl, hr⟩ := hn
    · cases hl
    · simp only [Node.lookup, Except.ok.injEq] at hl
      split at hl
      · cases hl; exact .inl ⟨d, _, rfl, hr⟩
      · cases hl
  | raise e => cases hn; cases hl
  | load t mask k ih =>
    cases hr : cur.load mask with
    | none =>
      obtain rfl | ⟨ht, -⟩ := hn
      · cases hl
      refine .inr ⟨⟨.outOfRange, ⟨cur, m⟩, ?_⟩, t, ht, hv.eq_none (Packet.load_eq_none.1 hr)⟩
      simp only [Policy.eval, hr, orOutOfRange, Fallible.orThrow, hprop.1]
    | some read =>
      obtain ⟨c', n', hn', hv', hl'⟩ := hn.lookup_load hv hr hl
      simp only [Policy.eval, hr, orOutOfRange, Fallible.orThrow]
      exact ih _ (hprop.2 _) hn' hv' hl'
  | test t need k ih =>
    cases hr : cur.load need.mask with
    | none =>
      obtain rfl | ⟨ht, -⟩ := hn
      · cases hl
      refine .inr ⟨⟨.outOfRange, ⟨cur, m⟩, ?_⟩, t, ht, hv.eq_none (Packet.load_eq_none.1 hr)⟩
      simp only [Policy.eval, Packet.test, hr, Option.map_none, orOutOfRange, Fallible.orThrow,
        hprop.1]
    | some read =>
      obtain ⟨ret, c', n', ht, hn', hv', hl'⟩ := hn.lookup_test hv hr hl
      simp only [Policy.eval, ht, orOutOfRange, Fallible.orThrow]
      exact ih _ (hprop.2 _) hn' hv' hl'
  | modify t patch k ih =>
    obtain rfl | ⟨ht, hn⟩ := hn
    · cases hl
    cases hm : cur.modify patch with
    | none =>
      refine .inr ⟨⟨.outOfRange, ⟨cur, m⟩, ?_⟩, t, ht, hv.eq_none (Packet.modify_eq_none.1 hm)⟩
      simp only [Policy.eval, modify_of_none (p := ⟨cur, m⟩) hm, hprop.1]
    | some cur' =>
      simp only [Policy.eval, modify_of_some (p := ⟨cur, m⟩) hm]
      exact ih _ hprop.2 hn (hv.modify hm) hl

/-! ## A run that follows the policy -/

/-- What `augment` leaves behind when the policy runs undisturbed. -/
def outcomeOf : Except Exc D × ModTrackingPacket τ → Outcome τ D
  | (.ok d, p) => ⟨some d, p.mods, none⟩
  | (.error e, p) => ⟨none, p.mods, some e⟩

/-- The load node that the tracer meets is the one the policy asks for. -/
theorem Traced.load_cases {mask : Mask t} {k : Except Exc (Field t) → Policy τ D}
    (h : Traced has Rec (.load t mask k) c m n) {data : Field t}
    (hm : data.mask = restMask c mask) (hw : ¬ (restMask c mask).wildcard = true) :
    ∃ keys cases, TracerImpl.load data n = .ok (loadCursor data keys cases) ∧
      ∀ key ∈ keys,
        Traced has Rec (k (.ok ((c.load mask).rewrite (Field.make key (restMask c mask)))))
          (c.modify (Field.make key (restMask c mask))) m (cases key) := by
  obtain rfl | ⟨-, h⟩ := h
  · exact ⟨[], fun _ => .unexplored, rfl, by simp⟩
  · rw [if_neg hw] at h
    obtain ⟨keys, cases, rfl, hk⟩ := h
    refine ⟨keys, cases, ?_, hk⟩
    rw [← hm]
    exact TracerImpl.load_load data keys cases

/-- The test node that the tracer meets is the one the policy asks for. -/
theorem Traced.test_cases {need : Field t} {k : Except Exc Bool → Policy τ D}
    (h : Traced has Rec (.test t need k) c m n) (ha : (c.load need.mask).agrees need = true)
    (hw : ¬ (restMask c need.mask).wildcard = true) (ret : Bool) :
    ∃ pos neg, TracerImpl.test (need.widen (restMask c need.mask)) ret n =
        .ok (if ret then ⟨pos, fun n => .test t (need.widen (restMask c need.mask)) n neg⟩
          else ⟨neg, fun n => .test t (need.widen (restMask c need.mask)) pos n⟩) ∧
      Traced has Rec (k (.ok true)) (c.modify (need.widen (restMask c need.mask))) m pos ∧
      Traced has Rec (k (.ok false)) c m neg := by
  obtain rfl | ⟨-, h⟩ := h
  · refine ⟨.unexplored, .unexplored, ?_, traced_unexplored _ _ _, traced_unexplored _ _ _⟩
    cases ret <;> rfl
  · rw [if_neg (by simp [ha]), if_neg hw] at h
    obtain ⟨pos, neg, rfl, hp, hn⟩ := h
    exact ⟨pos, neg, TracerImpl.test_test _ ret pos neg, hp, hn⟩

/-- **One load** of a run on a tree of the same policy: the tracer goes on to the record of what the
policy does on the value read. -/
theorem Traced.load_step {mask : Mask t} {k : Except Exc (Field t) → Policy τ D} {q : Packet τ}
    {p : TraceablePacketImpl τ} (h : Traced has Rec (.load t mask k) p.cache p.pkt.mods n)
    (hv : View q p.pkt.pkt p.cache) (ht : has t) {read : Field t}
    (hr : p.pkt.pkt.load mask = some read) :
    ∃ p' c, p.load mask n = .ok (read, p', c) ∧ p'.pkt = p.pkt ∧ View q p.pkt.pkt p'.cache ∧
      Traced has Rec (k (.ok read)) p'.cache p.pkt.mods c.child ∧
      ∀ n', Traced has Rec (k (.ok read)) p'.cache p.pkt.mods n' →
        Traced has Rec (.load t mask k) p.cache p.pkt.mods (c.plug n') := by
  have hread := hv.read_eq hr
  have hm := mask_unexplored p.cache (load_mask hr)
  have hwild := wildcard_unexplored p.cache (load_mask hr)
  rw [TraceablePacketImpl.load, TraceablePacketImpl.loadVia_some hr]
  by_cases hw : (restMask p.cache mask).wildcard = true
  · rw [if_pos (hwild.trans hw)]
    rw [rewrite_of_wildcard (hwild.trans hw)] at hread
    refine ⟨p, .stay n, rfl, rfl, hv, ?_, fun n' hn' => .inr ⟨ht, ?_⟩⟩
    · obtain rfl | ⟨-, h⟩ := h
      · exact traced_unexplored _ _ _
      · rw [if_pos hw] at h
        rw [hread]
        exact h
    · rw [if_pos hw, ← hread]
      exact hn'
  · rw [if_neg (fun hu => hw (hwild.symm.trans hu))]
    obtain ⟨keys, cases, hc, hk⟩ := h.load_cases hm hw
    rw [hc]
    refine ⟨_, _, rfl, rfl, hv.learn (View.has_unexplored p.cache hr), ?_, fun n' hn' => ?_⟩
    · dsimp only [loadCursor]
      split
      · rename_i hmem
        have := hk _ hmem
        rwa [← hm, make_value_mask, ← hread] at this
      · exact traced_unexplored _ _ _
    · refine .inr ⟨ht, ?_⟩
      rw [if_neg hw]
      refine ⟨_, _, by rw [← hm]; rfl, fun key hkey => ?_⟩
      by_cases hkv : key = (unexplored p.cache read).value
      · subst hkv
        rw [Function.update_self, ← hm, make_value_mask, ← hread]
        exact hn'
      · rw [Function.update_of_ne hkv]
        refine hk key ?_
        split at hkey
        · exact hkey
        · exact (List.mem_cons.1 hkey).resolve_left hkv

/-- **One test** of a run on a tree of the same policy. -/
theorem Traced.test_step {need : Field t} {k : Except Exc Bool → Policy τ D} {q : Packet τ}
    {p : TraceablePacketImpl τ} (h : Traced has Rec (.test t need k) p.cache p.pkt.mods n)
    (hv : View q p.pkt.pkt p.cache) (ht : has t) {read : Field t}
    (hr : p.pkt.pkt.load need.mask = some read) :
    ∃ ret p' c, p.pkt.pkt.test need = some ret ∧ p.test need n = .ok (ret, p', c) ∧
      p'.pkt = p.pkt ∧ View q p.pkt.pkt p'.cache ∧
      Traced has Rec (k (.ok ret)) p'.cache p.pkt.mods c.child ∧
      ∀ n', Traced has Rec (k (.ok ret)) p'.cache p.pkt.mods n' →
        Traced has Rec (.test t need k) p.cache p.pkt.mods (c.plug n') := by
  have hm := mask_unexplored p.cache (load_mask hr)
  have hwild := wildcard_unexplored p.cache (load_mask hr)
  rw [hv.test_eq hr, TraceablePacketImpl.test, TraceablePacketImpl.testVia_some hr]
  cases ha : (p.cache.load need.mask).agrees need with
  | false =>
    refine ⟨false, p, .stay n, rfl, rfl, rfl, hv, ?_, fun n' hn' => .inr ⟨ht, ?_⟩⟩
    · obtain rfl | ⟨-, h⟩ := h
      · exact traced_unexplored _ _ _
      · rwa [if_pos ha] at h
    · rw [if_pos ha]
      exact hn'
  | true =>
    have hna : ¬ (p.cache.load need.mask).agrees need = false := by simp [ha]
    simp only [Bool.true_and, Bool.not_true, Bool.false_eq_true, if_false]
    by_cases hw : (restMask p.cache need.mask).wildcard = true
    · rw [if_pos (hwild.trans hw), agrees_of_wildcard (hwild.trans hw)]
      refine ⟨true, p, .stay n, rfl, rfl, rfl, hv, ?_, fun n' hn' => .inr ⟨ht, ?_⟩⟩
      · obtain rfl | ⟨-, h⟩ := h
        · exact traced_unexplored _ _ _
        · rwa [if_neg hna, if_pos hw] at h
      · rw [if_neg hna, if_pos hw]
        exact hn'
    · rw [if_neg (fun hu => hw (hwild.symm.trans hu)), hm]
      obtain ⟨pos, neg, hc, hp, hng⟩ := h.test_cases ha hw ((unexplored p.cache read).agrees need)
      rw [hc]
      cases hu : (unexplored p.cache read).agrees need with
      | true =>
        rw [← View.unexplored_of_agrees hr hu] at hp
        refine ⟨true, _, _, rfl, rfl, rfl, hv.learn (View.has_unexplored p.cache hr), hp,
          fun n' hn' => .inr ⟨ht, ?_⟩⟩
        rw [if_neg hna, if_neg hw]
        refine ⟨n', neg, rfl, ?_, hng⟩
        rw [← View.unexplored_of_agrees hr hu]
        exact hn'
      | false =>
        refine ⟨false, p, _, rfl, rfl, rfl, hv, hng, fun n' hn' => .inr ⟨ht, ?_⟩⟩
        rw [if_neg hna, if_neg hw]
        exact ⟨pos, n', rfl, hp, hn'⟩

/-- **A run of `augment`** on a tree of the same policy: it ends as the policy ends on the packet,
and the tree stays a record of the policy's runs. -/
theorem augmentFrom_spec (disposable : D → Bool) (flow : F) (hprop : policy.Propagates)
    {q : Packet τ} {p : TraceablePacketImpl τ} (hv : View q p.pkt.pkt p.cache)
    (hhas : ∀ t, (q t).isSome → has t) (hn : Traced has Rec policy p.cache p.pkt.mods n)
    (hrec : ∀ d p', policy.eval p.pkt = (.ok d, p') → Rec flow d p'.mods) :
    Traced has Rec policy p.cache p.pkt.mods (augmentFrom disposable flow policy p n).1 ∧
      (augmentFrom disposable flow policy p n).2 = outcomeOf (policy.eval p.pkt) := by
  induction policy generalizing p n with
  | done d =>
    simp only [augmentFrom]
    split
    · exact ⟨hn, rfl⟩
    · have hfin : TracerImpl.finish flow n = .ok (.flow flow) := by
        obtain rfl | ⟨f, rfl, _⟩ := hn <;> rfl
      rw [hfin]
      exact ⟨.inr ⟨flow, rfl, hrec d p.pkt rfl⟩, rfl⟩
  | raise e => exact ⟨hn, rfl⟩
  | load t mask k ih =>
    cases hr : p.pkt.pkt.load mask with
    | none =>
      simp only [augmentFrom, TraceablePacketImpl.load_none hr, Policy.eval, hr, orOutOfRange,
        Fallible.orThrow, hprop.1]
      exact ⟨hn, rfl⟩
    | some read =>
      obtain ⟨v, hpv, -⟩ := Packet.load_eq_some.1 hr
      obtain ⟨⟨pkt, cache⟩, c, hl, rfl, hv', hchild, hplug⟩ :=
        hn.load_step hv (hhas t (hv.isSome hpv)) hr
      simp only [Policy.eval, hr, orOutOfRange, Fallible.orThrow] at hrec ⊢
      simp only [augmentFrom, hl]
      obtain ⟨h1, h2⟩ := ih _ (hprop.2 _) (p := ⟨p.pkt, cache⟩) hv' hchild hrec
      exact ⟨hplug _ h1, h2⟩
  | test t need k ih =>
    cases hr : p.pkt.pkt.load need.mask with
    | none =>
      simp only [augmentFrom, TraceablePacketImpl.test_none hr, Policy.eval, Packet.test, hr,
        Option.map_none, orOutOfRange, Fallible.orThrow, hprop.1]
      exact ⟨hn, rfl⟩
    | some read =>
      obtain ⟨v, hpv, -⟩ := Packet.load_eq_some.1 hr
      obtain ⟨ret, ⟨pkt, cache⟩, c, ht, hl, rfl, hv', hchild, hplug⟩ :=
        hn.test_step hv (hhas t (hv.isSome hpv)) hr
      simp only [Policy.eval, ht, orOutOfRange, Fallible.orThrow] at hrec ⊢
      simp only [augmentFrom, hl]
      obtain ⟨h1, h2⟩ := ih _ (hprop.2 _) (p := ⟨p.pkt, cache⟩) hv' hchild hrec
      exact ⟨hplug _ h1, h2⟩
  | modify t patch k ih =>
    cases hm : p.pkt.pkt.modify patch with
    | none =>
      simp only [augmentFrom, TraceablePacketImpl.modify_none hm, Policy.eval, modify_of_none hm,
        hprop.1]
      exact ⟨hn, rfl⟩
    | some cur' =>
      obtain ⟨v, hpv, -⟩ := Packet.modify_eq_some hm
      simp only [Policy.eval, modify_of_some hm] at hrec ⊢
      simp only [augmentFrom, TraceablePacketImpl.modify_some hm]
      have hn' : Traced has Rec (k (.ok ())) (p.cache.modify patch) (p.pkt.mods.modify patch) n := by
        obtain rfl | ⟨-, hn⟩ := hn
        · exact traced_unexplored _ _ _
        · exact hn
      obtain ⟨h1, h2⟩ := ih _ hprop.2
        (p := ⟨⟨cur', p.pkt.mods.modify patch⟩, p.cache.modify patch⟩) (hv.modify hm) hn' hrec
      exact ⟨.inr ⟨hhas t (hv.isSome hpv), h1⟩, h2⟩

/-! ## Calls of the runtime -/

/-- The tree records runs of the policy, its flows were made and hold what the policy ended with. -/
structure Memo.Inv (has : τ → Prop) (policy : Policy τ D) (s : Memo τ D) : Prop where
  tree : Traced has (fun f d m => f < s.next ∧ s.flows f = ⟨some d, m⟩) policy ∅ ∅ s.tree
  fresh : ∀ f, s.next ≤ f → s.flows f = ⟨none, ∅⟩

theorem Memo.Inv.empty (has : τ → Prop) : Memo.Inv has policy (.empty : Memo τ D) where
  tree := traced_unexplored _ _ _
  fresh _ _ := rfl

variable {s : Memo τ D} {call : Call τ}

/-- A flow that is used again keeps its record. -/
theorem Memo.Inv.update_eq (h : s.Inv has policy) (hprop : policy.Propagates) {p : Packet τ}
    {f : Nat} (hl : s.lookup p = .ok (some f)) :
    (s.flows f).update (outcomeOf (policy.eval ⟨p, ∅⟩)) = s.flows f ∧
      ∀ d p', policy.eval ⟨p, ∅⟩ = (.ok d, p') → f < s.next ∧ s.flows f = ⟨some d, p'.mods⟩ := by
  obtain ⟨d, p', he, hlt, hf⟩ | ⟨⟨e, p', he⟩, -⟩ := eval_of_lookup hprop h.tree (.refl p) hl
  · rw [he, hf]
    refine ⟨rfl, fun d' p'' h' => ?_⟩
    cases h'
    exact ⟨hlt, rfl⟩
  · rw [he]
    exact ⟨rfl, fun d' p'' h' => by cases h'⟩

/-- **One call**: it ends as the policy ends on the packet, and keeps the invariant. -/
theorem Memo.Inv.augment (h : s.Inv has policy) (disposable : D → Bool) (hprop : policy.Propagates)
    (hhas : ∀ t, (call.pkt t).isSome → has t) :
    (s.augment disposable policy call).1.Inv has policy ∧
      (s.augment disposable policy call).2 = outcomeOf (policy.eval ⟨call.pkt, ∅⟩) := by
  have htree : Traced has (fun _ _ _ => True) policy ∅ ∅ s.tree :=
    h.tree.mono fun _ _ _ _ => trivial
  have hout : (s.augment disposable policy call).2 = outcomeOf (policy.eval ⟨call.pkt, ∅⟩) :=
    (augmentFrom_spec disposable (s.flowFor call) hprop (p := ⟨⟨call.pkt, ∅⟩, ∅⟩) (.refl call.pkt)
      hhas htree fun _ _ _ => trivial).2
  have hflows : ∀ f, (s.augment disposable policy call).1.flows f =
      Function.update s.flows (s.flowFor call)
        ((s.flows (s.flowFor call)).update (outcomeOf (policy.eval ⟨call.pkt, ∅⟩))) f := by
    intro f; rw [← hout]; rfl
  refine ⟨⟨?_, fun f hf => ?_⟩, hout⟩
  · refine (augmentFrom_spec disposable (s.flowFor call) hprop (p := ⟨⟨call.pkt, ∅⟩, ∅⟩)
      (.refl call.pkt) hhas (h.tree.mono fun f d m hr => ?_) fun d p' he => ?_).1
    · -- the flows of the tree keep their records
      refine ⟨Nat.lt_succ_of_lt hr.1, ?_⟩
      rw [hflows]
      obtain hnew | hold := s.flowFor_cases call
      · rw [hnew, Function.update_of_ne (Nat.ne_of_lt hr.1)]; exact hr.2
      · rw [(h.update_eq hprop hold).1, Function.update_eq_self]; exact hr.2
    · -- the flow of this call records what the policy ends with
      rw [hflows, Function.update_self]
      obtain hnew | hold := s.flowFor_cases call
      · rw [hnew, h.fresh _ (Nat.le_refl _), he]
        exact ⟨Nat.lt_succ_self _, rfl⟩
      · obtain ⟨hlt, hf⟩ := (h.update_eq hprop hold).2 d p' he
        rw [(h.update_eq hprop hold).1]
        exact ⟨Nat.lt_succ_of_lt hlt, hf⟩
  · have hf' : s.next < f := hf
    rw [hflows]
    obtain hnew | hold := s.flowFor_cases call
    · rw [hnew, Function.update_of_ne (Nat.ne_of_gt hf')]
      exact h.fresh f (Nat.le_of_lt hf')
    · rw [(h.update_eq hprop hold).1, Function.update_eq_self]
      exact h.fresh f (Nat.le_of_lt hf')

/-- **Every sequence of calls** keeps the invariant, and each ends as the policy does. -/
theorem Memo.Inv.run (disposable : D → Bool) (hprop : policy.Propagates) (calls : List (Call τ))
    (h : s.Inv has policy) (hhas : ∀ call ∈ calls, ∀ t, (call.pkt t).isSome → has t) :
    (Memo.run disposable policy calls s).1.Inv has policy ∧
      ∀ o ∈ (Memo.run disposable policy calls s).2,
        ∃ pkt, o = outcomeOf (policy.eval ⟨pkt, ∅⟩) := by
  induction calls generalizing s with
  | nil => exact ⟨h, by simp [Memo.run]⟩
  | cons call calls ih =>
    obtain ⟨h1, h2⟩ := h.augment disposable hprop (hhas call List.mem_cons_self)
    obtain ⟨h3, h4⟩ := ih h1 fun c hc => hhas c (List.mem_cons_of_mem _ hc)
    refine ⟨h3, fun o ho => ?_⟩
    rcases List.mem_cons.1 ho with rfl | ho
    · exact ⟨call.pkt, h2⟩
    · exact h4 o ho

/-! ## Soundness -/

/-- A policy that propagates ends in an exception of its own or in `std::out_of_range`. -/
theorem eval_ne_inconsistent (hprop : policy.Propagates) (p : ModTrackingPacket τ) :
    (policy.eval p).1 ≠ .error .inconsistentTrace := by
  induction policy generalizing p with
  | done d => intro h; cases h
  | raise e => intro h; cases h; exact hprop rfl
  | load t mask k ih =>
    simp only [Policy.eval]
    cases p.pkt.load mask with
    | none => simp only [orOutOfRange, Fallible.orThrow, hprop.1]; intro h; cases h
    | some f => exact ih _ (hprop.2 f) p
  | test t need k ih =>
    simp only [Policy.eval]
    cases p.pkt.test need with
    | none => simp only [orOutOfRange, Fallible.orThrow, hprop.1]; intro h; cases h
    | some b => exact ih _ (hprop.2 b) p
  | modify t patch k ih =>
    simp only [Policy.eval]
    cases hm : p.pkt.modify patch with
    | none => simp only [modify_of_none hm, hprop.1]; intro h; cases h
    | some cur => simp only [modify_of_some hm]; exact ih _ hprop.2 _

/-- The packet that a policy leaves is the one it got with the tracked modifications. -/
theorem eval_pkt (policy : Policy τ D) {q : Packet τ} {p : ModTrackingPacket τ}
    (h : p.pkt = q.rewriteBy p.mods) :
    (policy.eval p).2.pkt = q.rewriteBy (policy.eval p).2.mods := by
  induction policy generalizing p with
  | done d => exact h
  | raise e => exact h
  | load t mask k ih => exact ih _ h
  | test t need k ih => exact ih _ h
  | modify t patch k ih =>
    simp only [Policy.eval]
    cases hm : p.pkt.modify patch with
    | none => simp only [modify_of_none hm]; exact ih _ h
    | some cur =>
      simp only [modify_of_some hm]
      exact ih _ (Packet.rewriteBy_modify h hm)

/-- **Memoization soundness**: no call raises `inconsistent_trace`, and a flow found for a packet
holds the decision and the modifications that the policy produces on that packet. -/
theorem memoization_sound (disposable : D → Bool) (policy : Policy τ D)
    (hprop : policy.Propagates) (calls : List (Call τ)) :
    (∀ o ∈ (Memo.run disposable policy calls .empty).2, o.thrown ≠ some .inconsistentTrace) ∧
      ∀ q : Packet τ, (∀ call ∈ calls, ∀ t, (call.pkt t).isSome → (q t).isSome) →
        ∃ found, (Memo.run disposable policy calls .empty).1.lookup q = .ok found ∧
          ∀ f, found = some f → ∃ d mods,
            (Memo.run disposable policy calls .empty).1.flows f = ⟨some d, mods⟩ ∧
            policy.eval ⟨q, ∅⟩ = (.ok d, ⟨q.rewriteBy mods, mods⟩) := by
  constructor
  · intro o ho hthrown
    obtain ⟨-, hall⟩ := Memo.Inv.run disposable hprop calls
      (.empty fun _ => True) fun _ _ _ _ => trivial
    obtain ⟨pkt, rfl⟩ := hall o ho
    have hne := eval_ne_inconsistent hprop ⟨pkt, ∅⟩
    cases he : policy.eval ⟨pkt, ∅⟩ with
    | mk r p' =>
      rw [he] at hthrown hne
      cases r with
      | ok d => cases hthrown
      | error e => cases hthrown; exact hne rfl
  · intro q hq
    obtain ⟨hinv, -⟩ := Memo.Inv.run disposable hprop calls
      (.empty fun t => (q t).isSome = true) hq
    obtain ⟨found, hfound⟩ := lookup_of_carried (fun _ => true) (hinv.tree.carried fun _ h => h)
    refine ⟨found, hfound, fun f hf => ?_⟩
    subst hf
    obtain ⟨d, p', he, -, hf⟩ | ⟨-, t, ht, hn⟩ :=
      eval_of_lookup hprop hinv.tree (.refl q) hfound
    · refine ⟨d, p'.mods, hf, ?_⟩
      have hp := eval_pkt policy (q := q) (p := ⟨q, ∅⟩) (Packet.rewriteBy_empty q).symm
      rw [he] at hp ⊢
      rw [← hp]
    · rw [hn] at ht; cases ht

theorem propagates_dispatch : dispatch.Propagates :=
  ⟨fun _ => rfl, fun b => match b with
    | true => ⟨fun _ => rfl, trivial⟩
    | false => ⟨fun _ => rfl, fun _ => trivial⟩⟩

/-- The flow of the first packet is found for a packet with another destination. -/
theorem memoization_sound_dispatch :
    (Memo.run (fun _ => false) dispatch [⟨frame 0x0806 5 3, false⟩, ⟨frame 0x0800 5 1, false⟩]
        .empty).1.lookup (frame 0x0800 7 9) = .ok (some 1) ∧
      ∃ d mods, (Memo.run (fun _ => false) dispatch
          [⟨frame 0x0806 5 3, false⟩, ⟨frame 0x0800 5 1, false⟩] .empty).1.flows 1 =
          ⟨some d, mods⟩ ∧
        dispatch.eval ⟨frame 0x0800 7 9, ∅⟩ =
          (.ok d, ⟨(frame 0x0800 7 9).rewriteBy mods, mods⟩) := by
  obtain ⟨-, h⟩ := memoization_sound (fun _ => false) dispatch propagates_dispatch
    [⟨frame 0x0806 5 3, false⟩, ⟨frame 0x0800 5 1, false⟩]
  obtain ⟨found, hl, hf⟩ := h (frame 0x0800 7 9) (by
    intro call hcall t ht
    simp only [List.mem_cons, List.not_mem_nil, or_false] at hcall
    rcases hcall with rfl | rfl
    · exact frame_isSome t ht
    · exact frame_isSome t ht)
  have hfound : found = some 1 := by
    have : Except.ok found = (.ok (some 1) : Except Exc (Option Nat)) := hl.symm.trans (by decide)
    cases this; rfl
  subst hfound
  exact ⟨hl, hf 1 rfl⟩

end Maple
