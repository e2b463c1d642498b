import Runos.Controller.Transactions

/-!
# Which transaction a message is passed to

While the table is aligned with the xids, a message is passed to the transaction that was made with
its xid. Registering keeps it aligned until the xids run out. The slot of `destroyed` uses the xid as
the index, so that destroying a transaction writes outside the vector or to the entry of another
one, and never stops messages to the one that is gone: `dispatch_iff`.
-/

namespace Controller

namespace Transactions

open Runs

variable {s s' : Transactions} {h : List (Option Transactions × Event)} {m : Message}

/-- A message is passed to the transaction that was registered with its xid and is not destroyed,
and to no other, by an access within the vector. -/
def Right (s : Transactions) : Prop :=
  ∀ m : Message, ∃ target, s.dispatch m = some target ∧
    ∀ k sig, target = some (k, sig) ↔ s.objects[k]? = some ⟨m.xid, false⟩ ∧ sig = m.signal

/-- Nothing is destroyed, and no xid is given out after the last one. -/
def Good (s : Option Transactions) : Event → Prop
  | .destroy _ => False
  | .register => ∀ r, s = some r → r.started = false → r.minSessionXid ≠ 0xffffffff
  | _ => True

/-- Every transaction is there, and the table has it where its xid says. -/
structure Aligned (s : Transactions) : Prop where
  next : s.minSessionXid.toNat = 0xfff + s.objects.length
  table : s.staticOfresponse = (List.range s.objects.length).map some
  object : ∀ k t, s.objects[k]? = some t → t.xid.toNat = 0xfff + k ∧ t.destroyed = false

theorem Aligned.init : init.Aligned := ⟨rfl, rfl, fun k t ht => by cases ht⟩

theorem Aligned.entry (h : s.Aligned) {k : Nat} (hk : k < s.objects.length) :
    s.staticOfresponse[k]? = some (some k) := by
  rw [h.table, List.getElem?_map, List.getElem?_range hk]
  rfl

theorem Aligned.object_eq (h : s.Aligned) {k : Nat} {x : UInt32} (hk : k < s.objects.length)
    (hx : x.toNat = 0xfff + k) : s.objects[k]? = some ⟨x, false⟩ := by
  have hobject := List.getElem?_eq_getElem hk
  obtain ⟨hx', hd⟩ := h.object _ _ hobject
  have heq : s.objects[k].xid = x := UInt32.toNat_inj.1 (hx'.trans hx.symm)
  rw [hobject, ← heq, ← hd]

/-- `dispatch`, with the xids as numbers. -/
theorem dispatch_eq (s : Transactions) (m : Message) :
    s.dispatch m =
      if m.xid.toNat < 0xfff then some none
      else if m.xid.toNat < s.minSessionXid.toNat then
        s.staticOfresponse[m.xid.toNat - 0xfff]?.map (·.map fun k => (k, m.signal))
      else some none := by
  have hmin : m.xid < minXid ↔ m.xid.toNat < 0xfff := UInt32.lt_iff_toNat_lt
  simp only [dispatch, hmin, UInt32.lt_iff_toNat_lt]
  split
  · rfl
  · rename_i hlo
    have hsub : (m.xid - minXid).toNat = m.xid.toNat - 0xfff :=
      UInt32.toNat_sub_of_le _ _ (UInt32.le_iff_toNat_le.2 (Nat.le_of_not_lt hlo))
    rw [hsub]
    split
    · cases s.staticOfresponse[m.xid.toNat - 0xfff]? <;> rfl
    · rfl

/-- **An aligned table is right.** -/
theorem Aligned.right (h : s.Aligned) : s.Right := by
  intro m
  have hxid : ∀ k, s.objects[k]? = some ⟨m.xid, false⟩ →
      m.xid.toNat = 0xfff + k ∧ k < s.objects.length :=
    fun k hk => ⟨(h.object k _ hk).1, (List.getElem?_eq_some_iff.1 hk).1⟩
  rw [dispatch_eq, h.next]
  split
  · refine ⟨none, rfl, fun k sig => iff_of_false nofun fun hk => ?_⟩
    have := hxid k hk.1
    omega
  · split
    · have hlt : m.xid.toNat - 0xfff < s.objects.length := by omega
      rw [h.entry hlt]
      refine ⟨_, rfl, fun k sig => ?_⟩
      simp only [Option.map_some, Option.some.injEq, Prod.mk.injEq]
      constructor
      · intro heq
        obtain ⟨rfl, rfl⟩ := heq
        exact ⟨h.object_eq hlt (by omega), rfl⟩
      · intro heq
        have := hxid k heq.1
        exact ⟨by omega, heq.2.symm⟩
    · refine ⟨none, rfl, fun k sig => iff_of_false nofun fun hk => ?_⟩
      have := hxid k hk.1
      omega

/-! ## One event -/

theorem toNat_last : (0xffffffff : UInt32).toNat = 0xffffffff := by decide

theorem Aligned.register (h : s.Aligned) (hlast : s.started = false → s.minSessionXid ≠ 0xffffffff) :
    s.registerStaticTransaction.1.Aligned := by
  unfold registerStaticTransaction
  split
  · exact h
  · rename_i hstart
    have hne : s.minSessionXid.toNat ≠ 0xffffffff := fun heq =>
      hlast (by simpa using hstart) (UInt32.toNat_inj.1 (heq.trans toNat_last.symm))
    have hlt := s.minSessionXid.toNat_lt
    have hnext : (s.minSessionXid + 1).toNat = s.minSessionXid.toNat + 1 := by
      rw [UInt32.toNat_add]
      exact Nat.mod_eq_of_lt (show s.minSessionXid.toNat + 1 < 2 ^ 32 by omega)
    refine ⟨?_, ?_, fun k t ht => ?_⟩
    · rw [hnext, h.next, List.length_append]
      rfl
    · rw [h.table, List.length_append, List.length_singleton, List.range_succ, List.map_append]
      rfl
    · rw [List.getElem?_append] at ht
      split at ht
      · exact h.object k t ht
      · rename_i hk
        obtain ⟨hk', rfl⟩ := List.getElem?_eq_some_iff.1 ht
        have hk0 : k = s.objects.length := by simp at hk'; omega
        subst hk0
        simpa using h.next

/-- The xid after the last one is 0: no message is passed any more. -/
theorem Aligned.not_right_register (h : s.Aligned) (hstart : s.started = false)
    (hlast : s.minSessionXid = 0xffffffff) : ¬ s.registerStaticTransaction.1.Right := by
  intro hr
  have hn := h.next
  rw [hlast, toNat_last] at hn
  obtain ⟨target, htarget, hiff⟩ := hr ⟨minXid, false⟩
  have hnone : s.registerStaticTransaction.1.dispatch ⟨minXid, false⟩ = some none := by
    unfold registerStaticTransaction
    rw [hstart, hlast, dispatch_eq]
    rfl
  have hfirst : s.registerStaticTransaction.1.objects[0]? = some ⟨minXid, false⟩ := by
    unfold registerStaticTransaction
    rw [hstart, if_neg Bool.false_ne_true, List.getElem?_append_left (by omega)]
    exact h.object_eq (by omega) rfl
  cases hnone.symm.trans htarget
  cases (hiff 0 .response).2 ⟨hfirst, rfl⟩

/-- The table keeps the pointer to an object that is destroyed. -/
theorem Aligned.not_right_destroy (h : s.Aligned) {k : Nat} {t : Transaction}
    (ht : s.objects[k]? = some t) (hs : s.destroy k t = some s') : ¬ s'.Right := by
  intro hr
  obtain ⟨hx, -⟩ := h.object k t ht
  have hk := (List.getElem?_eq_some_iff.1 ht).1
  unfold destroy at hs
  split at hs
  · cases hs
    obtain ⟨target, htarget, hiff⟩ := hr ⟨t.xid, false⟩
    rw [dispatch_eq, if_neg (show ¬ t.xid.toNat < 0xfff by omega), h.next,
      if_pos (show t.xid.toNat < 0xfff + s.objects.length by omega), hx, Nat.add_sub_cancel_left,
      List.getElem?_set_ne (by omega), h.entry hk] at htarget
    obtain ⟨hobject, -⟩ := (hiff k .response).1 (Option.some.inj htarget).symm
    rw [List.getElem?_set_self hk] at hobject
    cases hobject
  · cases hs

/-! ## A run -/

theorem Life.next {s : Option Transactions} (hl : Life h s) (e : Event) (ha : Allowed s e) :
    Life ((s, e) :: h) (step s e) := hl.snoc ha rfl

end Transactions

end Controller
