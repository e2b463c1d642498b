import Runos.Controller.SimpleLearningSwitch
import Runos.Lib.Fallible
import Runos.Lib.Trace
import Runos.Maple.Proof.Lookup

/-!
# The trace tree of the simple learning switch

The handler loads two addresses and returns decisions that are not disposable (`forward_ok`). So its
trace tree is a table (`Represents`): to a pair of addresses it gives a flow of its own, with the
decision that was returned last for them. A packet changes the entry of its own addresses only
(`Represents.augment`).
-/

namespace Controller.SimpleLearningSwitch

open Oxm OxmType Maple OfbType

variable {s : State} {c : Maple.Call OfbType} {pkt q : Oxm.Packet OfbType} {src dst : EthAddr}

/-! ## The two loads -/

theorem propagates_addresses : addresses.Propagates :=
  ⟨fun _ => rfl, fun _ => ⟨fun _ => rfl, fun _ => trivial⟩⟩

theorem eval_addresses (hsrc : pkt eth_src = some src) (hdst : pkt eth_dst = some dst) :
    addresses.eval ⟨pkt, ∅⟩ = (.ok (src, dst), ⟨pkt, ∅⟩) := by
  have h₁ : pkt.load (.exact eth_src) = some (.make src (.exact eth_src)) := by
    rw [Packet.load, hsrc]; rfl
  have h₂ : pkt.load (.exact eth_dst) = some (.make dst (.exact eth_dst)) := by
    rw [Packet.load, hdst]; rfl
  simp only [addresses, Policy.loadExact, Policy.eval, h₁, h₂, orOutOfRange, Fallible.orThrow,
    Field.value_make_exact]

theorem eval_addresses_none (h : pkt eth_src = none ∨ pkt eth_dst = none) :
    addresses.eval ⟨pkt, ∅⟩ = (.error .outOfRange, ⟨pkt, ∅⟩) := by
  simp only [addresses, Policy.loadExact, Policy.eval]
  cases hsrc : pkt.load (.exact eth_src) with
  | none => rfl
  | some read =>
    obtain ⟨v, hv, -⟩ := Packet.load_eq_some.1 hsrc
    have hdst : pkt.load (.exact eth_dst) = none :=
      Packet.load_eq_none.2 (h.resolve_left (by rw [hv]; exact Option.some_ne_none v))
    simp only [orOutOfRange, Fallible.orThrow, Policy.eval, hdst]

/-- What the tracer is told, as far as the packet goes. -/
theorem record_addresses (pkt : Oxm.Packet OfbType) :
    (addresses.record ⟨⟨pkt, ∅⟩, ∅⟩).events =
      match pkt eth_src with
      | none => []
      | some src => .load eth_src (.make src (.exact _)) ::
        match pkt eth_dst with
        | none => []
        | some dst => [.load eth_dst (.make dst (.exact _))] := by
  have hmissing {t : OfbType} {k : Bits t → Policy OfbType (EthAddr × EthAddr)}
      {p : TraceablePacketImpl OfbType} (h : p.pkt.pkt t = none) :
      ((Policy.loadExact t k).record p).events = [] := by
    simp only [Policy.loadExact, Policy.record,
      TraceablePacketImpl.loadRecorded_none (Packet.load_eq_none.2 h)]
    rfl
  cases hsrc : pkt eth_src with
  | none => exact hmissing hsrc
  | some src =>
    refine (record_loadExact (by decide) (fun i => FieldSet.get_empty _ i) hsrc).trans ?_
    refine congrArg _ ?_
    cases hdst : pkt eth_dst with
    | none => exact hmissing hdst
    | some dst =>
      refine record_loadExact (by decide) (fun i => ?_) hdst
      exact (FieldSet.get_modify_of_ne _ _ (by decide) i).trans (FieldSet.get_empty _ i)

variable (pkt) in
/-- A packet that carries both addresses is led as the loads say. -/
theorem answered_addresses (hsrc : q eth_src = some src) (hdst : q eth_dst = some dst) :
    (∀ e ∈ (addresses.record ⟨⟨pkt, ∅⟩, ∅⟩).events, (q e.type).isSome) ∧
      ∀ src' dst', pkt eth_src = some src' → pkt eth_dst = some dst' →
        ((∀ e ∈ (addresses.record ⟨⟨pkt, ∅⟩, ∅⟩).events, e.Answered q) ↔
          (src, dst) = (src', dst')) := by
  rw [record_addresses]
  constructor
  · intro e he
    have htype : e.type = eth_src ∨ e.type = eth_dst := by
      split at he
      · cases he
      · rcases List.mem_cons.1 he with rfl | he
        · exact .inl rfl
        · split at he
          · cases he
          · rw [List.mem_singleton.1 he]
            exact .inr rfl
    rcases htype with h | h
    · rw [h, hsrc]; rfl
    · rw [h, hdst]; rfl
  · intro src' dst' hsrc' hdst'
    simp only [hsrc', hdst', List.forall_mem_cons, List.not_mem_nil, false_imp_iff, implies_true,
      and_true, answered_load_exact, hsrc, hdst, Option.some.injEq, Prod.mk.injEq]

/-! ## The rest of the handler -/

/-- **What the handler returns**: a decision that is never disposable, and a flood exactly when the
address is not in the table. -/
theorem forward_ok {seenPort seenPort' : SeenPort} {inPort : Except Exc (Bits in_port)}
    {ret : Decision} (h : forward seenPort inPort {} (src, dst) = .ok (seenPort', ret)) :
    ret.disposable = false ∧
      ((isBroadcast src = true ∧ seenPort' = seenPort ∧ ret.data ≠ .broadcast) ∨
        (isBroadcast src = false ∧ (∃ port, inPort = .ok port ∧
          seenPort' = seenPort.insert src port) ∧
          (ret.data = .broadcast ↔ seenPort'.lookup dst = none))) := by
  unfold forward at h
  cases hsrc : isBroadcast src with
  | true =>
    simp only [hsrc, if_true] at h
    cases h
    exact ⟨rfl, .inl ⟨rfl, rfl, nofun⟩⟩
  | false =>
    simp only [hsrc, Bool.false_eq_true, if_false] at h
    obtain ⟨port, hport, h⟩ := Fallible.bind_ok h
    cases hdst : (seenPort.insert src port).lookup dst with
    | none =>
      simp only [hdst] at h
      cases h
      exact ⟨rfl, .inr ⟨rfl, ⟨port, hport, rfl⟩, iff_of_true rfl hdst⟩⟩
    | some out =>
      simp only [hdst] at h
      cases h
      exact ⟨rfl, .inr ⟨rfl, ⟨port, hport, rfl⟩, iff_of_false nofun (by rw [hdst]; nofun)⟩⟩

/-- With an input port, or from the broadcast address, the handler returns. -/
theorem exists_forward (seenPort : SeenPort) {inPort : Except Exc (Bits in_port)}
    {port : Bits in_port} (h : inPort = .ok port) (mac : EthAddr × EthAddr) :
    ∃ r, forward seenPort inPort {} mac = .ok r := by
  obtain ⟨src, dst⟩ := mac
  subst h
  simp only [forward, Bind.bind, Except.bind]
  split
  · exact ⟨_, rfl⟩
  · split
    · exact ⟨_, rfl⟩
    · exact ⟨_, rfl⟩

/-- What the handler does with the packet, if it returns. -/
def handled (s : State) (pkt : Oxm.Packet OfbType) :
    Option ((EthAddr × EthAddr) × SeenPort × Decision) :=
  match pkt eth_src, pkt eth_dst with
  | some src, some dst =>
    (forward s.seenPort (watch pkt) {} (src, dst)).toOption.map ((src, dst), ·)
  | _, _ => none

/-! ## The trace tree as a table -/

/-- To a pair of addresses, the flow that its packets are led to and the decision it keeps. -/
abbrev Cached := EthAddr × EthAddr → Option (Nat × Decision)

structure Represents (s : State) (cached : Cached) : Prop where
  tree : Traced (fun _ => True) (fun _ _ _ => True) addresses ∅ ∅ s.memo.tree
  lookup : ∀ q src dst, q eth_src = some src → q eth_dst = some dst →
    s.memo.lookup q = .ok ((cached (src, dst)).map Prod.fst)
  flow : ∀ mac f ret, cached mac = some (f, ret) →
    f < s.memo.next ∧ (s.memo.flows f).decision = some ret
  inj : ∀ mac mac' f ret ret', cached mac = some (f, ret) → cached mac' = some (f, ret') →
    mac = mac'

theorem Represents.init : Represents .init fun _ => none where
  tree := traced_unexplored _ _ _
  lookup _ _ _ _ _ := rfl
  flow := nofun
  inj := nofun

/-- The tree after a packet. -/
theorem memo_augment (s : State) (c : Maple.Call OfbType) :
    (s.augment c).1.memo.tree = (augmentFrom
        (dropped (fun ret => ret.2.disposable) (forward s.seenPort (watch c.pkt) {}))
        (s.memo.flowFor c) addresses ⟨⟨c.pkt, ∅⟩, ∅⟩ s.memo.tree).1 := by
  simp only [State.augment, Maple.augment, forwarding, augmentFrom_andThen, Prod.map_fst, id_eq]

variable {cached : Cached}

/-- **The handler ends** on a tree of its own as it would without a tree. -/
theorem Represents.outcome (h : Represents s cached) (c : Maple.Call OfbType) :
    (s.augment c).2.decision = (handled s c.pkt).map (·.2.2) ∧
      (s.augment c).1.seenPort = ((handled s c.pkt).map (·.2.1)).getD s.seenPort ∧
      Traced (fun _ => True) (fun _ _ _ => True) addresses ∅ ∅ (s.augment c).1.memo.tree := by
  obtain ⟨htree, hout⟩ := augmentFrom_spec
    (dropped (fun ret => ret.2.disposable) (forward s.seenPort (watch c.pkt) {}))
    (s.memo.flowFor c) propagates_addresses (p := ⟨⟨c.pkt, ∅⟩, ∅⟩) (.refl c.pkt)
    (fun _ _ => trivial) h.tree fun _ _ _ => trivial
  have hdecision : (s.augment c).2.decision =
      ((outcomeOf (addresses.eval ⟨c.pkt, ∅⟩)).andThen
        (forward s.seenPort (watch c.pkt) {})).decision.map Prod.snd := by
    simp only [State.augment, Maple.augment, forwarding, augmentFrom_andThen, Prod.map_snd, hout]
  have hseen : (s.augment c).1.seenPort =
      (((outcomeOf (addresses.eval ⟨c.pkt, ∅⟩)).andThen
        (forward s.seenPort (watch c.pkt) {})).decision.map Prod.fst).getD s.seenPort := by
    simp only [State.augment, Maple.augment, forwarding, augmentFrom_andThen, Prod.map_snd, hout]
  rw [hdecision, hseen, memo_augment]
  refine ⟨?_, ?_, htree⟩
  all_goals
    unfold handled
    cases hsrc : c.pkt eth_src with
    | none => rw [eval_addresses_none (.inl hsrc)]; rfl
    | some src =>
      cases hdst : c.pkt eth_dst with
      | none => rw [eval_addresses_none (.inr hdst)]; rfl
      | some dst =>
        simp only [eval_addresses hsrc hdst, outcomeOf, Outcome.andThen, Option.map_some]
        cases forward s.seenPort (watch c.pkt) {} (src, dst) <;> rfl

theorem handled_eq_some {mac : EthAddr × EthAddr} {r : SeenPort × Decision}
    (h : handled s pkt = some (mac, r)) :
    pkt eth_src = some mac.1 ∧ pkt eth_dst = some mac.2 ∧
      forward s.seenPort (watch pkt) {} mac = .ok r := by
  unfold handled at h
  split at h
  · rename_i src dst hsrc hdst
    cases hf : forward s.seenPort (watch pkt) {} (src, dst) with
    | error e => rw [hf] at h; cases h
    | ok r' =>
      rw [hf] at h
      cases h
      exact ⟨hsrc, hdst, hf⟩
  · cases h

/-- **Where packets are led after a packet**: those with its addresses, to its flow. -/
theorem Represents.lookup_augment (h : Represents s cached) (c : Maple.Call OfbType)
    (hsrc : q eth_src = some src) (hdst : q eth_dst = some dst) :
    (s.augment c).1.memo.lookup q =
      match handled s c.pkt with
      | none => s.memo.lookup q
      | some (mac, _) =>
        if (src, dst) = mac then .ok (some (s.memo.flowFor c)) else s.memo.lookup q := by
  obtain ⟨hcarried, hanswered⟩ := answered_addresses c.pkt hsrc hdst
  unfold Memo.lookup
  rw [memo_augment, lookup_augmentFrom _ _ propagates_addresses (p := ⟨⟨c.pkt, ∅⟩, ∅⟩)
    (.refl c.pkt) (fun _ _ => trivial) h.tree hcarried]
  unfold handled
  cases hsrc' : c.pkt eth_src with
  | none => simp only [eval_addresses_none (.inl hsrc'), landing, ite_self]
  | some src' =>
    cases hdst' : c.pkt eth_dst with
    | none => simp only [eval_addresses_none (.inr hdst'), landing, ite_self]
    | some dst' =>
      simp only [eval_addresses hsrc' hdst', landing]
      cases hf : forward s.seenPort (watch c.pkt) {} (src', dst') with
      | error e =>
        have hdrop : dropped (fun ret => ret.2.disposable)
            (forward s.seenPort (watch c.pkt) {}) (src', dst') = true := by rw [dropped, hf]
        rw [if_pos hdrop, ite_self]
        rfl
      | ok r =>
        have hdrop : ¬ dropped (fun ret => ret.2.disposable)
            (forward s.seenPort (watch c.pkt) {}) (src', dst') = true := by
          simp only [dropped, hf, (forward_ok hf).1, Bool.false_eq_true, not_false_eq_true]
        rw [if_neg hdrop]
        exact if_congr (hanswered src' dst' hsrc' hdst') rfl rfl

theorem decision_augment (s : State) (c : Maple.Call OfbType) (f : Nat) :
    ((s.augment c).1.memo.flows f).decision =
      if f = s.memo.flowFor c then (s.augment c).2.decision.or (s.memo.flows f).decision
      else (s.memo.flows f).decision := by
  have hflows : (s.augment c).1.memo.flows = Function.update s.memo.flows (s.memo.flowFor c)
    ((s.memo.flows (s.memo.flowFor c)).update (s.augment c).2) := rfl
  rw [hflows]
  split
  · rename_i hf
    rw [hf, Function.update_self]
    rfl
  · rename_i hf
    rw [Function.update_of_ne hf]

/-- The flow of a packet belongs to its addresses only. -/
theorem Represents.flowFor (h : Represents s cached) (hsrc : c.pkt eth_src = some src)
    (hdst : c.pkt eth_dst = some dst) :
    s.memo.flowFor c < s.memo.next + 1 ∧
      ∀ mac ret, cached mac = some (s.memo.flowFor c, ret) → mac = (src, dst) := by
  rcases s.memo.flowFor_cases c with hnew | hold
  · rw [hnew]
    exact ⟨Nat.lt_succ_self _, fun mac ret hm => absurd (h.flow mac _ ret hm).1 (Nat.lt_irrefl _)⟩
  · rw [h.lookup _ _ _ hsrc hdst, Except.ok.injEq, Option.map_eq_some_iff] at hold
    obtain ⟨⟨f, ret⟩, hfound, hf⟩ := hold
    rw [← hf]
    exact ⟨Nat.lt_succ_of_lt (h.flow _ f ret hfound).1,
      fun mac ret' hm => h.inj mac _ f ret' ret hm hfound⟩

/-- **A packet**: its decision takes the place of the one for its addresses. -/
theorem Represents.augment (h : Represents s cached) {mac : EthAddr × EthAddr}
    {seenPort : SeenPort} {ret : Decision} (hh : handled s c.pkt = some (mac, seenPort, ret)) :
    Represents (s.augment c).1 (Function.update cached mac (some (s.memo.flowFor c, ret))) := by
  obtain ⟨hdecision, -, htree⟩ := h.outcome c
  obtain ⟨hsrc, hdst, -⟩ := handled_eq_some hh
  obtain ⟨hlt, howner⟩ := h.flowFor hsrc hdst
  rw [hh] at hdecision
  refine ⟨htree, fun q src dst hsrc' hdst' => ?_, fun mac' f ret' hc => ?_,
    fun mac₁ mac₂ f ret₁ ret₂ h₁ h₂ => ?_⟩
  · rw [h.lookup_augment c hsrc' hdst', hh, h.lookup q src dst hsrc' hdst']
    by_cases hm : (src, dst) = mac
    · simp only [hm, if_true, Function.update_self, Option.map_some]
    · simp only [if_neg hm, Function.update_of_ne hm]
  · by_cases hm : mac' = mac
    · rw [hm, Function.update_self, Option.some.injEq, Prod.mk.injEq] at hc
      obtain ⟨rfl, rfl⟩ := hc
      refine ⟨hlt, ?_⟩
      rw [decision_augment, if_pos rfl, hdecision]
      rfl
    · rw [Function.update_of_ne hm] at hc
      have hne : f ≠ s.memo.flowFor c := fun heq => hm (howner mac' ret' (heq ▸ hc))
      refine ⟨Nat.lt_succ_of_lt (h.flow mac' f ret' hc).1, ?_⟩
      rw [decision_augment, if_neg hne]
      exact (h.flow mac' f ret' hc).2
  · by_cases hm₁ : mac₁ = mac
    · by_cases hm₂ : mac₂ = mac
      · rw [hm₁, hm₂]
      · rw [hm₁, Function.update_self, Option.some.injEq, Prod.mk.injEq] at h₁
        rw [Function.update_of_ne hm₂, ← h₁.1] at h₂
        exact absurd (howner mac₂ ret₂ h₂) hm₂
    · rw [Function.update_of_ne hm₁] at h₁
      by_cases hm₂ : mac₂ = mac
      · rw [hm₂, Function.update_self, Option.some.injEq, Prod.mk.injEq] at h₂
        rw [← h₂.1] at h₁
        exact absurd (howner mac₁ ret₁ h₁) hm₁
      · rw [Function.update_of_ne hm₂] at h₂
        exact h.inj mac₁ mac₂ f ret₁ ret₂ h₁ h₂

/-- A packet on which the handler throws. -/
theorem Represents.augment_none (h : Represents s cached) (hh : handled s c.pkt = none) :
    Represents (s.augment c).1 cached := by
  obtain ⟨hdecision, -, htree⟩ := h.outcome c
  rw [hh] at hdecision
  refine ⟨htree, fun q src dst hsrc hdst => ?_, fun mac f ret hc => ?_, h.inj⟩
  · rw [h.lookup_augment c hsrc hdst, hh, h.lookup q src dst hsrc hdst]
  · obtain ⟨hlt, hret⟩ := h.flow mac f ret hc
    refine ⟨Nat.lt_succ_of_lt hlt, ?_⟩
    rw [decision_augment, hdecision]
    exact (ite_self _).trans hret

end Controller.SimpleLearningSwitch
