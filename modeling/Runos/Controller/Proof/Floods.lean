import Runos.Controller.Proof.SimpleLearningSwitch

/-!
# Floods that are cached

Along a history of packets the table of the handler holds the addresses that were learned, and the
trace tree keeps the floods (`Remembers`): each comes from a packet that was flooded, and it is
there as long as its address is not known. What the handler learns later is not traced, so a flood
outlives it (`Remembers.stale`).
-/

namespace Controller.SimpleLearningSwitch

open Oxm Maple OfbType

variable {s : State} {c : Maple.Call OfbType} {pkt q : Oxm.Packet OfbType} {src dst : EthAddr}
  {cached : Cached}

/-! ## Histories -/

/-- A packet that the handler learns the address `src` from. -/
structure Sent (pkt : Oxm.Packet OfbType) (src dst : EthAddr) : Prop where
  ethSrc : pkt eth_src = some src
  ethDst : pkt eth_dst = some dst
  inPort : (pkt in_port).isSome
  unicast : isBroadcast src = false

theorem Sent.unique {src' dst' : EthAddr} (h : Sent pkt src dst) (h' : Sent pkt src' dst') :
    (src, dst) = (src', dst') :=
  Prod.ext (Option.some.inj (h.ethSrc.symm.trans h'.ethSrc))
    (Option.some.inj (h.ethDst.symm.trans h'.ethDst))

/-- What the handler does with a packet it learns from. -/
theorem Sent.handled (h : Sent pkt src dst) (s : State) :
    ∃ port ret, handled s pkt = some ((src, dst), s.seenPort.insert src port, ret) ∧
      ret.disposable = false ∧
      (ret.data = .broadcast ↔ (s.seenPort.insert src port).lookup dst = none) := by
  obtain ⟨port, hport⟩ := Option.isSome_iff_exists.1 h.inPort
  have hwatch : watch pkt = .ok port := by
    rw [watch, Packet.load, hport]
    exact congrArg Except.ok (Field.value_make_exact port)
  obtain ⟨⟨seenPort, ret⟩, hf⟩ := exists_forward s.seenPort hwatch (src, dst)
  obtain ⟨hdisp, ⟨hb, -⟩ | ⟨-, ⟨port', hport', rfl⟩, hiff⟩⟩ := forward_ok hf
  · rw [h.unicast] at hb
    cases hb
  · refine ⟨port', ret, ?_, hdisp, hiff⟩
    simp only [SimpleLearningSwitch.handled, h.ethSrc, h.ethDst, hf]
    rfl

/-- What it does with another packet, if it returns. -/
theorem handled_not_sent (h : ∀ src dst, ¬ Sent pkt src dst) {mac : EthAddr × EthAddr}
    {seenPort : SeenPort} {ret : Decision} (hh : handled s pkt = some (mac, seenPort, ret)) :
    isBroadcast mac.1 = true ∧ seenPort = s.seenPort ∧ ret.data ≠ .broadcast := by
  obtain ⟨hsrc, hdst, hf⟩ := handled_eq_some hh
  obtain ⟨-, hdrop | ⟨hu, ⟨port, hport, -⟩, -⟩⟩ := forward_ok hf
  · exact hdrop
  · refine absurd ⟨hsrc, hdst, ?_, hu⟩ (h mac.1 mac.2)
    by_contra hno
    rw [Bool.not_eq_true, Option.isSome_eq_false_iff, Option.isNone_iff_eq_none] at hno
    rw [watch, Packet.load, hno] at hport
    cases hport

/-- The addresses that are learned in a history. -/
def Learned (calls : List (Maple.Call OfbType)) (mac : EthAddr) : Prop :=
  ∃ c ∈ calls, ∃ dst, Sent c.pkt mac dst

variable {calls l₁ l₂ : List (Maple.Call OfbType)} {mac : EthAddr}

theorem Learned.mono (h : Learned l₁ mac) (hsub : l₁ ⊆ l₂) : Learned l₂ mac :=
  let ⟨c, hc, hsent⟩ := h
  ⟨c, hsub hc, hsent⟩

theorem learned_snoc :
    Learned (calls ++ [c]) mac ↔ Learned calls mac ∨ ∃ dst, Sent c.pkt mac dst := by
  simp only [Learned, List.mem_append, List.mem_singleton, or_and_right, exists_or,
    exists_eq_left]

/-- The packet `c` after the history `l` is flooded for an address that is not known. -/
structure Flooded (l : List (Maple.Call OfbType)) (c : Maple.Call OfbType) (src dst : EthAddr) :
    Prop where
  sent : Sent c.pkt src dst
  unicast : isBroadcast dst = false
  unknown : ¬ Learned (l ++ [c]) dst

/-- The history holds a packet from `src` to `dst` that was flooded. -/
def HasFlooded (calls : List (Maple.Call OfbType)) (src dst : EthAddr) : Prop :=
  ∃ l₁ c l₂, calls = l₁ ++ c :: l₂ ∧ Flooded l₁ c src dst

theorem HasFlooded.of_prefix (h : HasFlooded l₁ src dst) (hp : l₁ <+: l₂) :
    HasFlooded l₂ src dst := by
  obtain ⟨m₁, c, m₂, rfl, hf⟩ := h
  obtain ⟨l, rfl⟩ := hp
  exact ⟨m₁, c, m₂ ++ l, by rw [List.append_assoc, List.cons_append], hf⟩

theorem HasFlooded.snoc (h : HasFlooded calls src dst) (c : Maple.Call OfbType) :
    HasFlooded (calls ++ [c]) src dst := h.of_prefix (List.prefix_append _ _)

/-- **The tree and the history**: a flood is kept from a packet that was flooded, and it is kept as
long as the address is not known. -/
structure Remembers (calls : List (Maple.Call OfbType)) (s : State) (cached : Cached) : Prop
    extends Represents s cached where
  seen : ∀ mac, (s.seenPort.lookup mac).isSome ↔ Learned calls mac
  flooded : ∀ src dst f ret, cached (src, dst) = some (f, ret) → ret.data = .broadcast →
    isBroadcast dst = false → HasFlooded calls src dst
  kept : ∀ c ∈ calls, ∀ src dst, Sent c.pkt src dst → isBroadcast dst = false →
    ¬ Learned calls dst → ∃ f ret, cached (src, dst) = some (f, ret) ∧ ret.data = .broadcast

theorem Remembers.init : Remembers [] .init fun _ => none where
  toRepresents := .init
  seen _ := iff_of_false nofun fun ⟨_, hc, _⟩ => List.not_mem_nil hc
  flooded := nofun
  kept := nofun

/-- A packet that is learned from. -/
theorem Remembers.sent (h : Remembers calls s cached) (hc : Sent c.pkt src dst) :
    ∃ cached', Remembers (calls ++ [c]) (s.augment c).1 cached' := by
  obtain ⟨port, ret, hh, -, hflood⟩ := hc.handled s
  obtain ⟨-, hseen, -⟩ := h.outcome c
  rw [hh, Option.map_some, Option.getD_some] at hseen
  have hsource : ∀ mac, (∃ d, Sent c.pkt mac d) ↔ mac = src := fun mac =>
    ⟨fun ⟨_, hd⟩ => congrArg Prod.fst (hd.unique hc), fun heq => ⟨dst, heq ▸ hc⟩⟩
  have hknown : ∀ mac, ((s.augment c).1.seenPort.lookup mac).isSome ↔ Learned (calls ++ [c]) mac :=
    fun mac => by
      rw [hseen, Table.lookup_insert_eq, learned_snoc, hsource, ← h.seen]
      split
      · rename_i heq
        exact iff_of_true rfl (.inr heq)
      · rename_i hne
        rw [or_iff_left hne]
  have hunknown : ret.data = .broadcast ↔ ¬ Learned (calls ++ [c]) dst := by
    rw [hflood, ← hknown, hseen, Option.not_isSome_iff_eq_none]
  refine ⟨_, h.augment hh, hknown, fun src' dst' f ret' hm hret hu => ?_,
    fun c₀ hc₀ src' dst' hsent hu hno => ?_⟩
  · by_cases heq : (src', dst') = (src, dst)
    · rw [heq, Function.update_self, Option.some.injEq, Prod.mk.injEq] at hm
      obtain ⟨-, rfl⟩ := hm
      cases heq
      exact ⟨calls, c, [], rfl, hc, hu, hunknown.1 hret⟩
    · rw [Function.update_of_ne heq] at hm
      exact (h.flooded src' dst' f ret' hm hret hu).snoc c
  · by_cases heq : (src', dst') = (src, dst)
    · cases heq
      exact ⟨_, ret, Function.update_self .., hunknown.2 hno⟩
    · rw [Function.update_of_ne heq]
      rcases List.mem_append.1 hc₀ with hc₀ | hc₀
      · exact h.kept c₀ hc₀ src' dst' hsent hu fun hl =>
          hno (hl.mono (List.subset_append_left _ _))
      · rw [List.mem_singleton.1 hc₀] at hsent
        exact absurd (hsent.unique hc) heq

/-- A packet that is not learned from: what it changes is not about floods. -/
theorem Remembers.unlearned (h : Remembers calls s cached)
    (hc : ∀ src dst, ¬ Sent c.pkt src dst) :
    ∃ cached', Represents (s.augment c).1 cached' ∧ (s.augment c).1.seenPort = s.seenPort ∧
      (∀ mac f ret, cached' mac = some (f, ret) → ret.data = .broadcast →
        cached mac = some (f, ret)) ∧
      ∀ mac, isBroadcast mac.1 = false → cached' mac = cached mac := by
  obtain ⟨-, hseen, -⟩ := h.outcome c
  cases hh : handled s c.pkt with
  | none =>
    rw [hh] at hseen
    exact ⟨cached, h.augment_none hh, hseen, fun _ _ _ hm _ => hm, fun _ _ => rfl⟩
  | some r =>
    obtain ⟨mac, seenPort, ret⟩ := r
    obtain ⟨hb, rfl, hret⟩ := handled_not_sent hc hh
    rw [hh, Option.map_some, Option.getD_some] at hseen
    refine ⟨_, h.augment hh, hseen, fun mac' f ret' hm hret' => ?_, fun mac' hu => ?_⟩
    · by_cases heq : mac' = mac
      · rw [heq, Function.update_self, Option.some.injEq, Prod.mk.injEq] at hm
        exact absurd (hm.2 ▸ hret') hret
      · rwa [Function.update_of_ne heq] at hm
    · refine Function.update_of_ne (fun heq => ?_) _ _
      rw [heq, hb] at hu
      cases hu

theorem Remembers.not_sent (h : Remembers calls s cached)
    (hc : ∀ src dst, ¬ Sent c.pkt src dst) :
    ∃ cached', Remembers (calls ++ [c]) (s.augment c).1 cached' := by
  obtain ⟨cached', hrep, hseen, hnew, hsame⟩ := h.unlearned hc
  have hlearned : ∀ mac, Learned (calls ++ [c]) mac ↔ Learned calls mac := fun mac => by
    rw [learned_snoc, or_iff_left fun ⟨d, hd⟩ => hc mac d hd]
  refine ⟨cached', hrep, fun mac => ?_, fun src dst f ret hm hret hu =>
    (h.flooded src dst f ret (hnew _ f ret hm hret) hret hu).snoc c,
    fun c₀ hc₀ src dst hsent hu hno => ?_⟩
  · rw [hseen, hlearned]
    exact h.seen mac
  · rw [hsame (src, dst) hsent.unicast]
    rw [hlearned] at hno
    rcases List.mem_append.1 hc₀ with hc₀ | hc₀
    · exact h.kept c₀ hc₀ src dst hsent hu hno
    · rw [List.mem_singleton.1 hc₀] at hsent
      exact absurd hsent (hc src dst)

theorem run_snoc (calls : List (Maple.Call OfbType)) (c : Maple.Call OfbType) :
    State.run (calls ++ [c]) = ((State.run calls).augment c).1 := by
  rw [State.run, List.foldl_append]
  rfl

/-- **Every history.** -/
theorem remembers_run (calls : List (Maple.Call OfbType)) :
    ∃ cached, Remembers calls (State.run calls) cached := by
  induction calls using List.reverseRecOn with
  | nil => exact ⟨_, .init⟩
  | append_singleton calls c ih =>
    obtain ⟨cached, h⟩ := ih
    rw [run_snoc]
    by_cases hc : ∃ src dst, Sent c.pkt src dst
    · obtain ⟨src, dst, hc⟩ := hc
      exact h.sent hc
    · exact h.not_sent fun src dst hs => hc ⟨src, dst, hs⟩

/-! ## Stale floods -/

/-- No packet to an address of the table is led to a flow with a flood. -/
def Fresh (s : State) : Prop :=
  ∀ mac, isBroadcast mac = false → (s.seenPort.lookup mac).isSome → ∀ q f ret,
    q eth_dst = some mac → s.memo.lookup q = .ok (some f) → (s.memo.flows f).decision = some ret →
    ret.data ≠ .broadcast

/-- So it is all along the history. -/
def NeverStale (calls : List (Maple.Call OfbType)) : Prop :=
  ∀ h, h <+: calls → Fresh (State.run h)

/-- What is returned for an address that is not in the table is disposable. -/
def FloodsDisposable (calls : List (Maple.Call OfbType)) : Prop :=
  ∀ l₁ c l₂ src dst ret, calls = l₁ ++ c :: l₂ → Sent c.pkt src dst → isBroadcast dst = false →
    (State.run (l₁ ++ [c])).seenPort.lookup dst = none →
    ((State.run l₁).augment c).2.decision = some ret → ret.disposable = true

/-- A packet that is led to a flow carries the address that the tree loads first. -/
theorem Represents.exists_src (h : Represents s cached) {f : Nat}
    (hl : s.memo.lookup q = .ok (some f)) : ∃ src, q eth_src = some src := by
  by_contra hno
  have hq : q eth_src = none := Option.eq_none_iff_forall_not_mem.2 fun src hsrc => hno ⟨src, hsrc⟩
  have hload : ∀ mask : Mask eth_src, q.load mask = none := fun _ => Packet.load_eq_none.2 hq
  unfold Memo.lookup at hl
  rcases h.tree with hn | ⟨-, hn⟩
  · rw [hn] at hl
    cases hl
  · rw [restMask_of_free fun i => FieldSet.get_empty _ i, wildcard_exact (by decide)] at hn
    obtain ⟨keys, cases, hn, -⟩ := hn
    rw [hn] at hl
    simp only [Node.lookup, hload] at hl
    cases hl

theorem Remembers.fresh (h : Remembers calls s cached)
    (hno : ∀ src dst, HasFlooded calls src dst → ¬ Learned calls dst) : Fresh s := by
  intro mac hu hseen q f ret hq hl hret hflood
  obtain ⟨src, hsrc⟩ := h.exists_src hl
  rw [h.lookup q src mac hsrc hq, Except.ok.injEq, Option.map_eq_some_iff] at hl
  obtain ⟨⟨f', ret'⟩, hm, rfl⟩ := hl
  obtain ⟨-, hret'⟩ := h.flow _ _ _ hm
  rw [hret', Option.some.injEq] at hret
  subst hret
  exact hno src mac (h.flooded src mac f' ret' hm hflood hu) ((h.seen mac).1 hseen)

/-- A flood is stale once its address is learned. -/
theorem Remembers.stale (h : Remembers calls s cached) {c₀ : Maple.Call OfbType} (hc₀ : c₀ ∈ calls)
    (hsent : Sent c₀.pkt src dst) (hu : isBroadcast dst = false) (hno : ¬ Learned calls dst)
    {dst' : EthAddr} (hc : Sent c.pkt dst dst') : ¬ Fresh (s.augment c).1 := by
  intro hfresh
  obtain ⟨f, ret, hm, hflood⟩ := h.kept c₀ hc₀ src dst hsent hu hno
  obtain ⟨port, ret', hh, -⟩ := hc.handled s
  have hne : (src, dst) ≠ (dst, dst') := fun heq => by
    have hself : src = dst := congrArg Prod.fst heq
    exact hno ⟨c₀, hc₀, dst, hself ▸ hsent⟩
  have hnext := h.augment hh
  have hm' := (Function.update_of_ne hne (some (s.memo.flowFor c, ret')) cached).trans hm
  refine hfresh dst hu ?_ c₀.pkt f ret hsent.ethDst ?_ (hnext.flow _ f ret hm').2 hflood
  · obtain ⟨-, hseen, -⟩ := h.outcome c
    rw [hseen, hh, Option.map_some, Option.getD_some, AList.lookup_insert]
    rfl
  · rw [hnext.lookup _ src dst hsent.ethSrc hsent.ethDst, hm']
    rfl

theorem not_learned_of_neverStale (hfresh : NeverStale calls) (h : HasFlooded calls src dst) :
    ¬ Learned calls dst := by
  induction calls using List.reverseRecOn with
  | nil =>
    obtain ⟨l₁, c, l₂, heq, -⟩ := h
    cases l₁ <;> cases heq
  | append_singleton calls c ih =>
    obtain ⟨l₁, c₀, l₂, heq, hf⟩ := h
    rcases List.eq_nil_or_concat l₂ with rfl | ⟨l₂, c', rfl⟩
    · -- the packet itself has been flooded
      rw [heq]
      exact hf.unknown
    · rw [List.concat_eq_append, ← List.cons_append, ← List.append_assoc] at heq
      obtain ⟨rfl, hc⟩ := List.append_inj' heq rfl
      cases hc
      have hold := ih (fun h hp => hfresh h (hp.trans (List.prefix_append _ _)))
        ⟨l₁, c₀, l₂, rfl, hf⟩
      obtain ⟨cached, hrem⟩ := remembers_run (l₁ ++ c₀ :: l₂)
      rw [learned_snoc, or_iff_right hold]
      rintro ⟨dst', hc⟩
      refine hrem.stale (List.mem_append_right _ List.mem_cons_self) hf.sent hf.unicast hold hc ?_
      rw [← run_snoc]
      exact hfresh _ (List.prefix_refl _)

/-- **When floods do not get stale**: when no address that a packet was flooded for is ever learned.
No flood is disposable: what is returned is as it should be only when nothing is flooded. -/
theorem floods_cached_iff (calls : List (Maple.Call OfbType)) :
    (NeverStale calls ↔ ∀ src dst, HasFlooded calls src dst → ¬ Learned calls dst) ∧
      (NeverStale calls ∧ FloodsDisposable calls ↔ ∀ src dst, ¬ HasFlooded calls src dst) := by
  have hstale : NeverStale calls ↔ ∀ src dst, HasFlooded calls src dst → ¬ Learned calls dst := by
    refine ⟨fun h src dst => not_learned_of_neverStale h, fun hno h hp => ?_⟩
    obtain ⟨cached, hrem⟩ := remembers_run h
    exact hrem.fresh fun src dst hf hl => hno src dst (hf.of_prefix hp) (hl.mono hp.subset)
  refine ⟨hstale, fun h src dst hf => ?_, fun hno => ⟨hstale.2 fun src dst hf =>
    absurd hf (hno src dst), fun l₁ c l₂ src dst ret heq hsent hu hnone _ => ?_⟩⟩
  · obtain ⟨l₁, c, l₂, heq, hf⟩ := hf
    obtain ⟨cached, hrem⟩ := remembers_run l₁
    obtain ⟨cached', hrem'⟩ := remembers_run (l₁ ++ [c])
    obtain ⟨port, ret, hh, hret, -⟩ := hf.sent.handled (State.run l₁)
    have hnone : (State.run (l₁ ++ [c])).seenPort.lookup dst = none := by
      rw [← Option.not_isSome_iff_eq_none, hrem'.seen]
      exact hf.unknown
    have hdecision := (hrem.outcome c).1
    rw [hh] at hdecision
    rw [h.2 l₁ c l₂ src dst ret heq hf.sent hf.unicast hnone hdecision] at hret
    cases hret
  · obtain ⟨cached, hrem⟩ := remembers_run (l₁ ++ [c])
    refine absurd ⟨l₁, c, l₂, heq, hsent, hu, ?_⟩ (hno src dst)
    rw [← hrem.seen, hnone]
    nofun

/-- A packet with the three fields that the handler reads. -/
def ethernet (src dst : EthAddr) (inPort : Bits OfbType.in_port) : Oxm.Packet OfbType
  | .eth_src => some src
  | .eth_dst => some dst
  | .in_port => some inPort
  | _ => none

theorem sent_ethernet (hu : isBroadcast src = false) (inPort : Bits OfbType.in_port) :
    Sent (ethernet src dst inPort) src dst := ⟨rfl, rfl, rfl, hu⟩

/-- A packet from 1 to 2, and one from 2 to 1. -/
def exchange : List (Maple.Call OfbType) := [⟨ethernet 1 2 5, true⟩, ⟨ethernet 2 1 6, true⟩]

/-- The tree still floods the packets from 1 to 2. -/
theorem exchange_stale : ¬ NeverStale exchange := by
  intro h
  have hsent : Sent (ethernet 1 2 5) 1 2 := sent_ethernet (by decide) 5
  refine not_learned_of_neverStale h
    ⟨[], ⟨ethernet 1 2 5, true⟩, [⟨ethernet 2 1 6, true⟩], rfl, hsent, by decide, ?_⟩
    ⟨⟨ethernet 2 1 6, true⟩, List.mem_cons_of_mem _ List.mem_cons_self, 1,
      sent_ethernet (by decide) 6⟩
  rintro ⟨c, hc, dst, hc'⟩
  rw [List.mem_singleton.1 hc] at hc'
  have heq : (1 : EthAddr) = 2 := congrArg Prod.fst (hsent.unique hc')
  exact absurd heq (by decide)

end Controller.SimpleLearningSwitch
