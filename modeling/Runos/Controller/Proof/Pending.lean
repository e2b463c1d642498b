import Runos.Controller.Proof.Lifetime
import Runos.Maple.Proof.Memo

/-!
# Pending packet-ins

`FlowImpl::packet_in` stores the packet-in in the flow, and only an `install` that returns clears
it again. An install returns for every flow that has decided (`FlowImpl.install_answerable`), so a
commit whose flows have all decided leaves no flow pending that the tree holds (`Rest.commit`); a
flow that has decided `undefined` stays pending whatever is installed (`stuck_commit`).
`SwitchScope.Settles` is the condition on a packet-in and the scope it meets, and
`settled_iff_settles` says that it is exact: in a scope's life no flow ever keeps a packet-in
exactly when every packet-in meets it.
-/

namespace Controller

open Oxm OxmType Maple Runs

variable {τ : Type} [OxmType τ] {flood : Output} {policy : Policy τ Decision}

/-! ## Flows -/

namespace FlowImpl

variable {f f' : FlowImpl τ}

/-- The flow keeps nothing of a packet-in. -/
def Clean (f : FlowImpl τ) : Prop := f.packetIn = false ∧ f.packetData = none

/-- The flow is clean and has decided. -/
def Rests (f : FlowImpl τ) : Prop := f.Clean ∧ f.decision.data ≠ .undefined

/-- The flow has decided, and what it keeps is pending. -/
def Answerable (f : FlowImpl τ) : Prop :=
  f.decision.data ≠ .undefined ∧ (f.packetIn = true ∨ f.Clean)

/-- The flow keeps a packet-in that it cannot answer. -/
def Stuck (f : FlowImpl τ) : Prop := f.packetIn = true ∧ f.decision.data = .undefined

theorem Rests.answerable (h : f.Rests) : f.Answerable := ⟨h.2, .inr h.1⟩

theorem actions_of_decided (flood : Output) (h : f.decision.data ≠ .undefined) :
    ∃ a, f.actions flood = some a := by
  unfold actions outputs
  cases hd : f.decision.data with
  | undefined => exact absurd hd h
  | _ => exact ⟨_, rfl⟩

theorem messages_of_decided (flood : Output) (h : f.decision.data ≠ .undefined) :
    ∃ ms, f.messages flood = some ms := by
  obtain ⟨a, ha⟩ := actions_of_decided flood h
  unfold messages
  rw [ha]
  split
  · split <;> exact ⟨_, rfl⟩
  · exact ⟨_, rfl⟩

theorem Stuck.messages (h : f.Stuck) (flood : Output) : f.messages flood = none := by
  have ha : f.actions flood = none := by rw [actions, outputs, h.2]; rfl
  unfold FlowImpl.messages
  rw [h.1, ha]
  split <;> rfl

/-- **Installing a flow that has decided** returns, and leaves nothing pending. -/
theorem install_answerable (h : f.Answerable) (flood : Output) :
    ∃ f' ms, f.install flood = (f', .ok ms) ∧ f'.cookie = f.cookie ∧ f'.Rests := by
  cases hp : f.pending with
  | false =>
    have hn : f.state ≠ .active ∧ f.packetIn = false := by simpa [pending] using hp
    refine ⟨f, [], install_of_not_pending hp, rfl, ?_, h.1⟩
    exact h.2.resolve_left (by rw [hn.2]; decide)
  | true =>
    obtain ⟨g, hc, -, -, hd, -, -, hi⟩ := install_of_pending flood hp
    obtain ⟨ms, hms⟩ := messages_of_decided (f := g) flood (by rw [hd]; exact h.1)
    rw [hms] at hi
    refine ⟨g.installed, ms, hi, hc, ⟨rfl, rfl⟩, ?_⟩
    show g.decision.data ≠ .undefined
    rw [hd]
    exact h.1

/-- Installing a stuck flow throws, and leaves it stuck. -/
theorem Stuck.install (h : f.Stuck) (flood : Output) :
    ∃ f' e, f.install flood = (f', .error e) ∧ f'.cookie = f.cookie ∧ f'.Stuck := by
  unfold FlowImpl.install
  rw [if_neg (by simp [h.1]), if_neg (by simp [h.1])]
  have hg : Stuck (if f.state ≠ .egg then { f with expectRemoved := f.expectRemoved + 1 }
      else f) := by split <;> exact h
  have hc : (if f.state ≠ .egg then { f with expectRemoved := f.expectRemoved + 1 }
      else f).cookie = f.cookie := by split <;> rfl
  dsimp only
  rw [hg.messages]
  exact ⟨_, _, rfl, hc, hg⟩

theorem Rests.flow_removed (h : f.Rests) (reason : RemovedReason) :
    (f.flow_removed reason).Rests := by
  cases reason with
  | delete => simp only [FlowImpl.flow_removed]; split <;> exact h
  | _ => exact h

end FlowImpl

namespace SwitchScope

variable {s s' s₁ : SwitchScope τ} {f : FlowImpl τ} {pi : PacketIn τ} {enum : Enumeration τ}
  {P Q : Nat → FlowImpl τ → Prop} {K : Nat → Prop} {c : Nat}

/-! ## Flows that stay pending -/

/-- The flow `c` is stuck. -/
def StuckAt (c : Nat) (s : SwitchScope τ) : Prop := ∃ f, s.flows c = some f ∧ f.Stuck

theorem stuckAt_setFlow_of_ne (h : s.StuckAt c) (hne : c ≠ f.cookie) : (s.setFlow f).StuckAt c := by
  obtain ⟨g, hg, hstuck⟩ := h
  refine ⟨g, ?_, hstuck⟩
  unfold SwitchScope.setFlow
  split
  · exact hg
  · dsimp only
    rw [Function.update_of_ne hne, hg]

theorem stuckAt_setFlow (hc : missCookie < f.cookie) (h : f.Stuck) :
    (s.setFlow f).StuckAt f.cookie := ⟨f, by rw [setFlow_flows hc, if_pos rfl], h⟩

/-- A flow of the map keeps a packet-in. -/
def Keeping (s : SwitchScope τ) : Prop := ∃ c f, s.flows c = some f ∧ f.packetIn = true

theorem StuckAt.keeping (h : s.StuckAt c) : s.Keeping := by
  obtain ⟨f, hf, hstuck⟩ := h
  exact ⟨c, f, hf, hstuck.1⟩

theorem keeping_setFlow (hc : missCookie < f.cookie) (h : f.packetIn = true) :
    (s.setFlow f).Keeping := ⟨f.cookie, f, by rw [setFlow_flows hc, if_pos rfl], h⟩

/-- No flow of the scope keeps a packet-in. -/
def Settled (s : SwitchScope τ) : Prop :=
  (∀ c f, s.flows c = some f → f.packetIn = false ∧ f.packetData = none) ∧
    s.miss.packetIn = false ∧ s.miss.packetData = none

theorem Keeping.not_settled (h : s.Keeping) : ¬ s.Settled := by
  obtain ⟨c, f, hf, hp⟩ := h
  intro hs
  rw [(hs.1 c f hf).1] at hp
  cases hp

variable [DecidableEq τ]

theorem stuckAt_install (hinv : s.Inv) (h : s.StuckAt c) (flood : Output) (priority : Nat)
    (matchSet : FieldSet τ) (cookie : Nat) :
    Keeps (StuckAt c) ((mapleBackend flood).install priority matchSet cookie s) := by
  have other : ∀ f : FlowImpl τ, c ≠ f.cookie → Keeps (StuckAt c) (s.installFlow flood f) := by
    intro f hne
    have hcookie := f.install_cookie flood
    unfold SwitchScope.installFlow
    split
    · rename_i f' ms hi
      rw [hi] at hcookie
      exact stuckAt_setFlow_of_ne h (by rw [hcookie]; exact hne)
    · rename_i f' e hi
      rw [hi] at hcookie
      exact stuckAt_setFlow_of_ne h (by rw [hcookie]; exact hne)
  obtain ⟨g, hg, hstuck⟩ := h
  obtain ⟨hk, hlt⟩ := hinv.keyed c g hg
  simp only [mapleBackend]
  split
  · refine other _ ?_
    show c ≠ s.miss.cookie
    rw [hinv.missKey]
    exact Nat.ne_of_gt hlt
  · split
    · exact ⟨g, hg, hstuck⟩
    · rename_i f hf
      have hkf : (f.placed priority matchSet).cookie = cookie := (hinv.keyed _ f hf).1
      by_cases hc : c = cookie
      · subst hc
        rw [hg] at hf
        cases hf
        have hplaced : (g.placed priority matchSet).Stuck := hstuck
        obtain ⟨g', e, hi, hcookie, hstuck'⟩ := hplaced.install flood
        have hkg : g'.cookie = c := hcookie.trans hkf
        unfold SwitchScope.installFlow
        rw [hi]
        refine ⟨g', ?_, hstuck'⟩
        rw [setFlow_flows (by rw [hkg]; exact hlt), if_pos hkg.symm]
      · exact other _ (by rw [hkf]; exact hc)

theorem stuckAt_installAll (hinv : s.Inv) (h : s.StuckAt c) (flood : Output)
    (rs : List (FieldSet τ × Nat)) (p : Nat) :
    Keeps (StuckAt c) (installAll (mapleBackend flood) rs p s) := by
  induction rs generalizing s p with
  | nil => exact h
  | cons r rs ih =>
    have hi := stuckAt_install hinv h flood p r.1 r.2
    have hinv' := hinv.install flood p r.1 r.2
    simp only [Maple.installAll]
    cases hr : (mapleBackend flood).install p r.1 r.2 s with
    | error e => rw [hr] at hi; exact hi
    | ok s₁ =>
      rw [hr] at hi hinv'
      exact ih hinv' hi _

theorem stuckAt_commit (hinv : s.Inv) (h : s.StuckAt c) (flood : Output) (enum : Enumeration τ) :
    Keeps (StuckAt c) (s.commit flood enum) := by
  rw [SwitchScope.commit, commit_eq _ _ _ ((enum.reorder s.tree).wf hinv.wf)]
  exact stuckAt_installAll (s := (mapleBackend flood).remove s) hinv.remove h flood _ _

/-! ## Scopes that have decided -/

/-- The flows of the scope satisfy `P`, and the barrier flow keeps nothing. -/
structure Rest (P : Nat → FlowImpl τ → Prop) (s : SwitchScope τ) : Prop where
  inv : s.Inv
  miss : s.miss.Clean
  flows : ∀ c f, s.flows c = some f → P c f

/-- Outside `K` the flows rest; those of `K` can be answered. -/
abbrev RestBut (K : Nat → Prop) (s : SwitchScope τ) : Prop :=
  Rest (fun c f => f.Rests ∨ K c ∧ f.Answerable) s

theorem Rest.mono (h : Rest P s) (hP : ∀ c f, s.flows c = some f → P c f → Q c f) : Rest Q s :=
  ⟨h.inv, h.miss, fun c f hf => hP c f hf (h.flows c f hf)⟩

theorem Rest.setFlow (h : Rest P s) (hc : missCookie < f.cookie)
    (hP : ∀ c g, c ≠ f.cookie → P c g → Q c g) (hf : Q f.cookie f) : Rest Q (s.setFlow f) where
  inv := h.inv.setFlow hc
  miss := by rw [setFlow_miss hc]; exact h.miss
  flows c g hg := by
    rw [setFlow_flows hc] at hg
    split at hg
    · rename_i hcf
      cases hg
      rw [hcf]
      exact hf
    · rename_i hcf
      exact hP c g hcf (h.flows c g hg)

theorem Rest.installFlow (h : Rest P s) (flood : Output) (ha : f.Answerable)
    (hc : missCookie < f.cookie) (hP : ∀ c g, c ≠ f.cookie → P c g → Q c g)
    (hR : ∀ g : FlowImpl τ, g.Rests → Q f.cookie g) :
    ∃ s', s.installFlow flood f = .ok s' ∧ Rest Q s' := by
  obtain ⟨f', ms, hi, hcookie, hrest⟩ := FlowImpl.install_answerable ha flood
  have hinv := h.inv.installFlow flood hc
  have hset : Rest Q (s.setFlow f') := by
    refine h.setFlow (by rw [hcookie]; exact hc) ?_ ?_
    · rw [hcookie]; exact hP
    · rw [hcookie]; exact hR f' hrest
  unfold SwitchScope.installFlow at hinv ⊢
  rw [hi] at hinv ⊢
  exact ⟨_, rfl, hinv, hset.miss, hset.flows⟩

theorem RestBut.install (h : RestBut K s) (flood : Output) (priority : Nat)
    (matchSet : FieldSet τ) (cookie : Nat) :
    ∃ s', (mapleBackend flood).install priority matchSet cookie s = .ok s' ∧
      RestBut (fun c => K c ∧ c ≠ cookie) s' := by
  simp only [mapleBackend]
  split
  · rename_i hmiss
    have hp : (s.miss.placed priority matchSet).pending = false := h.inv.missIdle
    have hk : (s.miss.placed priority matchSet).cookie = missCookie := h.inv.missKey
    simp only [SwitchScope.installFlow, FlowImpl.install_of_not_pending hp]
    refine ⟨_, rfl, Inv.send (h.inv.setMiss hk hp) (by simp), ?_, fun c f hf => ?_⟩
    · simp only [SwitchScope.setFlow, if_pos hk, SwitchScope.send]
      exact h.miss
    · simp only [SwitchScope.setFlow, if_pos hk, SwitchScope.send] at hf
      refine (h.flows c f hf).imp_right fun hK => ⟨⟨hK.1, ?_⟩, hK.2⟩
      rw [hmiss]
      exact Nat.ne_of_gt (h.inv.keyed c f hf).2
  · split
    · rename_i hn
      refine ⟨s, rfl, h.mono fun c f hf hK => hK.imp_right fun hK => ⟨⟨hK.1, fun hc => ?_⟩, hK.2⟩⟩
      rw [hc, hn] at hf
      cases hf
    · rename_i f hf
      obtain ⟨hk, hlt⟩ := h.inv.keyed _ f hf
      have ha : (f.placed priority matchSet).Answerable :=
        (h.flows _ f hf).elim FlowImpl.Rests.answerable And.right
      refine h.installFlow flood ha (by rw [← hk] at hlt; exact hlt) (fun c g hne hg => ?_)
        fun g hg => .inl hg
      have hne' : c ≠ cookie := by rw [← hk]; exact hne
      exact hg.imp_right fun hK => ⟨⟨hK.1, hne'⟩, hK.2⟩

theorem RestBut.installAll (h : RestBut K s) (flood : Output) (rs : List (FieldSet τ × Nat))
    (p : Nat) :
    ∃ s', installAll (mapleBackend flood) rs p s = .ok s' ∧
      RestBut (fun c => K c ∧ ∀ r ∈ rs, c ≠ r.2) s' := by
  induction rs generalizing s p K with
  | nil =>
    refine ⟨s, rfl, h.mono fun c f _ hK => hK.imp_right fun hK => ⟨⟨hK.1, ?_⟩, hK.2⟩⟩
    simp
  | cons r rs ih =>
    obtain ⟨s₁, hi, h₁⟩ := h.install flood p r.1 r.2
    obtain ⟨s₂, hall, h₂⟩ := ih h₁ ((p + 1) % 2 ^ 16)
    refine ⟨s₂, by rw [Maple.installAll, hi]; exact hall, h₂.mono fun c f _ hK => ?_⟩
    refine hK.imp_right fun hK => ⟨⟨hK.1.1.1, ?_⟩, hK.2⟩
    exact List.forall_mem_cons.2 ⟨hK.1.1.2, hK.1.2⟩

/-- **A commit** of flows that have decided, those of `K` in the tree, leaves none pending. -/
theorem RestBut.commit (h : RestBut K s) (hK : ∀ c, K c → s.tree.Holds c) (flood : Output)
    (enum : Enumeration τ) :
    ∃ s', s.commit flood enum = .ok s' ∧ Rest (fun _ f => f.Rests) s' := by
  have hremove : RestBut K ((mapleBackend flood).remove s) := ⟨h.inv.remove, h.miss, h.flows⟩
  obtain ⟨s', hall, h'⟩ := hremove.installAll flood
    ((enum.order s.tree).rules s.alive missCookie ∅) 1
  have hcommit : s.commit flood enum = .ok s' := by
    rw [SwitchScope.commit, commit_eq _ _ _ ((enum.reorder s.tree).wf h.inv.wf), hall]
  have hkeys := installed_commit h.inv flood enum
  rw [hcommit] at hkeys
  refine ⟨s', hcommit, h'.mono fun c f hf hrest => hrest.resolve_right fun hk => ?_⟩
  -- the flow is alive and in the tree, so the compiler reaches it
  have halive : s.alive c = true := by rw [SwitchScope.alive, ← hkeys.1.flows, hf]; rfl
  obtain ⟨M, hM⟩ := ((enum.reorder s.tree).holds (hK c hk.1.1)).mem_rules halive missCookie ∅
  exact hk.1.2 _ hM rfl

/-! ## Processing a packet-in -/

/-- The policy, traced over the tree, returns a decision other than `undefined`. -/
def Decides (s : SwitchScope τ) (policy : Policy τ Decision) (pi : PacketIn τ) (cookie : Nat) :
    Prop :=
  (augment Decision.disposable policy pi.pkt cookie s.tree).2.thrown = none ∧
    ∃ d, (augment Decision.disposable policy pi.pkt cookie s.tree).2.decision = some d ∧
      d.data ≠ .undefined

/-- The condition of the module doc, once the flow of the packet-in is known: only a table miss
wakes up an active flow. -/
def SettlesWith (s : SwitchScope τ) (policy : Policy τ Decision) (pi : PacketIn τ)
    (f : FlowImpl τ) : Prop :=
  match f.state with
  | .egg | .idle => s.Decides policy pi f.cookie
  | .active => isTableMiss pi = true
  | .evicted | .expired => True

/-- The condition of the module doc. -/
def Settles (s : SwitchScope τ) : ScopeEvent τ → Prop
  | .packetIn policy pi _ => ∀ f s', s.flowFor pi = .ok (f, s') → s'.SettlesWith policy pi f
  | _ => True

/-- Where a stage ends. -/
def Stage.final (flood : Output) (enum : Enumeration τ) : Stage τ → SwitchScope τ
  | .returned s => s
  | .thrown _ s => s
  | .committing s =>
    match s.commit flood enum with
    | .ok s => s
    | .error (_, s) => s

theorem processPacketIn_eq_final (s : SwitchScope τ) (flood : Output) (policy : Policy τ Decision)
    (pi : PacketIn τ) (enum : Enumeration τ) :
    s.processPacketIn flood policy pi enum =
      (s.processUntilCommit flood policy pi).final flood enum := by
  unfold processPacketIn Stage.final
  cases s.processUntilCommit flood policy pi <;> rfl

section
variable (h : Rest (fun c g => c = f.cookie ∨ g.Rests) s) (hc : missCookie < f.cookie)
  (hp : f.packetIn = true)

include h hc in
/-- The scope once the policy has run. -/
theorem rest_augmented (policy : Policy τ Decision) (pi : PacketIn τ) (d : Decision) :
    Rest (fun c g => c = f.cookie ∨ g.Rests)
      { s.setFlow { f with decision := d } with
        tree := (augment Decision.disposable policy pi.pkt f.cookie s.tree).1 } := by
  have hset : Rest (fun c g => c = f.cookie ∨ g.Rests) (s.setFlow { f with decision := d }) :=
    h.setFlow hc (fun _ _ _ hg => hg) (.inl rfl)
  exact ⟨hset.inv.setTree (wf_augment _ _ _ _ h.inv.wf), hset.miss, hset.flows⟩

include h hc hp

/-- The flow `f`, pending in a scope whose other flows rest, decides and is answered. -/
theorem final_decideFlow_of_decides (hd : s.Decides policy pi f.cookie) :
    Rest (fun _ g => g.Rests) ((s.decideFlow flood policy pi f).final flood enum) := by
  obtain ⟨hthrown, d, hdec, hdata⟩ := hd
  have hrest := rest_augmented h hc policy pi d
  have hholds := augment_holds hthrown hdec
  unfold decideFlow
  generalize augment Decision.disposable policy pi.pkt f.cookie s.tree = r at *
  simp only [hthrown, hdec, Option.getD_some]
  split
  · obtain ⟨s', hi, h'⟩ := hrest.installFlow (Q := fun c g => c = f.cookie ∨ g.Rests) flood
      (f := { f with decision := d, mods := r.2.mods, priority := 1, matchSet := r.2.mods })
      ⟨hdata, .inl hp⟩ hc (fun _ _ _ hg => hg) fun _ hg => .inr hg
    simp only [FlowImpl.placed, hi, Stage.final]
    refine ⟨h'.inv.erase _, h'.miss, fun c g hg => ?_⟩
    obtain ⟨hne, hg⟩ := flows_of_erase hg
    exact (h'.flows c g hg).resolve_left hne
  · rename_i hdisp
    have hready : RestBut (· = f.cookie) (SwitchScope.setFlow
        { s.setFlow { f with decision := d } with tree := r.1 }
        { f with decision := d, mods := r.2.mods }) :=
      hrest.setFlow hc (fun c g hne hg => .inl (hg.resolve_left hne))
        (.inr ⟨rfl, hdata, .inl hp⟩)
    obtain ⟨s', hcommit, h'⟩ := hready.commit (fun c hck => by
      rw [hck, setFlow_tree]
      exact hholds (eq_false_of_ne_true hdisp)) flood enum
    simp only [Stage.final, hcommit]
    exact h'

/-- A flow `f` that does not decide stays pending. -/
theorem final_decideFlow_of_not_decides (hd : ¬ s.Decides policy pi f.cookie) :
    ((s.decideFlow flood policy pi f).final flood enum).Keeping := by
  have hdecided : (augment Decision.disposable policy pi.pkt f.cookie s.tree).2.thrown = none →
      ∃ d, (augment Decision.disposable policy pi.pkt f.cookie s.tree).2.decision = some d :=
    augmentFrom_decided
  have hrest := rest_augmented h hc policy pi
  unfold Decides at hd
  unfold decideFlow
  generalize augment Decision.disposable policy pi.pkt f.cookie s.tree = r at *
  cases hthrown : r.2.thrown with
  | some e =>
    simp only [hthrown, Stage.final]
    exact keeping_setFlow (f := { f with decision := r.2.decision.getD f.decision }) hc hp
  | none =>
    obtain ⟨d, hdec⟩ := hdecided hthrown
    have hdata : d.data = .undefined := by
      refine Classical.not_not.1 fun hne => hd ⟨hthrown, d, hdec, hne⟩
    simp only [hthrown, hdec, Option.getD_some]
    split
    · have hstuck : FlowImpl.Stuck
        { f with decision := d, mods := r.2.mods, priority := 1, matchSet := r.2.mods } :=
        ⟨hp, hdata⟩
      obtain ⟨f', e, hi, hcookie, hstuck'⟩ := hstuck.install flood
      simp only [FlowImpl.placed, installFlow, hi, Stage.final]
      exact keeping_setFlow (by rw [hcookie]; exact hc) hstuck'.1
    · have hinv := ((hrest d).inv.setFlow (f := { f with decision := d, mods := r.2.mods }) hc)
      have hcommit := stuckAt_commit hinv
        (stuckAt_setFlow (f := { f with decision := d, mods := r.2.mods }) hc ⟨hp, hdata⟩)
        flood enum
      simp only [Stage.final]
      split
      · rename_i s' hr
        rw [hr] at hcommit
        exact hcommit.keeping
      · rename_i e s' hr
        rw [hr] at hcommit
        exact hcommit.keeping

end

/-! ## Lives -/

/-- The flow of a packet-in, once it is pending: the other flows rest, and so did this one if it is
not new. -/
theorem rest_pending (h : Rest (fun _ g => g.Rests) s) (hf : s.flowFor pi = .ok (f, s₁)) :
    Rest (fun c g => c = f.cookie ∨ g.Rests) (s₁.setFlow (f.packet_in pi)) ∧
      missCookie < f.cookie ∧ f.state ≠ .expired ∧
      (f.state ≠ .egg → (f.packet_in pi).Answerable) := by
  obtain ⟨hinv, hc⟩ := h.inv.flowFor hf
  have hrest : Rest (fun c g => c = f.cookie ∨ g.Rests) s₁ ∧ f.state ≠ .expired ∧
      (f.state ≠ .egg → f.decision.data ≠ .undefined) := by
    rcases flowFor_ok hf with ⟨c, -, hfc, hstate, rfl⟩ | ⟨rfl, rfl, -⟩
    · exact ⟨h.mono fun _ _ _ hg => .inr hg, hstate, fun _ => (h.flows c f hfc).2⟩
    · have hset : Rest (fun c g => c = s.nextCookie ∨ g.Rests)
          (s.setFlow { cookie := s.nextCookie }) :=
        h.setFlow h.inv.next (fun _ _ _ hg => .inr hg) (.inl rfl)
      exact ⟨⟨hinv, hset.miss, hset.flows⟩, by simp, fun hne => absurd rfl hne⟩
  obtain ⟨hrest, hstate, hdata⟩ := hrest
  exact ⟨hrest.setFlow hc (fun _ _ _ hg => hg) (.inl rfl), hc, hstate,
    fun hne => ⟨hdata hne, .inl rfl⟩⟩

/-- A flow that is woken up is answered. -/
theorem final_wakeup (h : Rest (fun c g => c = f.cookie ∨ g.Rests) s) (ha : f.Answerable)
    (hc : missCookie < f.cookie) :
    Rest (fun _ g => g.Rests) ((Stage.ofInstall (s.installFlow flood f)).final flood enum) := by
  obtain ⟨s', hi, h'⟩ := h.installFlow (Q := fun _ g => g.Rests) flood ha hc
    (fun _ _ hne hg => hg.resolve_left hne) fun _ hg => hg
  rw [hi]
  exact h'

/-- **Processing a packet-in** in a scope whose flows all rest: they rest again when the condition
holds, and when it does not, one keeps the packet-in. -/
theorem Rest.processPacketIn (h : Rest (fun _ g => g.Rests) s) (flood : Output)
    (policy : Policy τ Decision) (pi : PacketIn τ) (enum : Enumeration τ) :
    (s.Settles (.packetIn policy pi enum) →
        Rest (fun _ g => g.Rests) (s.processPacketIn flood policy pi enum)) ∧
      (¬ s.Settles (.packetIn policy pi enum) →
        (s.processPacketIn flood policy pi enum).Keeping) := by
  rw [processPacketIn_eq_final]
  unfold processUntilCommit
  cases hf : s.flowFor pi with
  | error e =>
    refine ⟨fun _ => h, fun hn => absurd (fun f s' hf' => ?_) hn⟩
    rw [hf] at hf'
    cases hf'
  | ok r =>
    obtain ⟨f, s₁⟩ := r
    obtain ⟨hrest, hc, hstate, hans⟩ := rest_pending h hf
    have hwith : s.Settles (.packetIn policy pi enum) ↔ s₁.SettlesWith policy pi f := by
      refine ⟨fun hs => hs f s₁ hf, fun hs f' s' hf' => ?_⟩
      rw [hf] at hf'
      cases hf'
      exact hs
    have hdecide : (s₁.setFlow (f.packet_in pi)).Decides policy pi (f.packet_in pi).cookie ↔
        s₁.Decides policy pi f.cookie := by
      rw [Decides, Decides, setFlow_tree]
      rfl
    have hstate' : (f.packet_in pi).state = f.state := rfl
    rw [hwith, SettlesWith]
    dsimp only
    rw [hstate']
    cases hs : f.state with
    | egg =>
      exact ⟨fun hd => final_decideFlow_of_decides hrest hc rfl (hdecide.2 hd),
        fun hd => final_decideFlow_of_not_decides hrest hc rfl fun hn => hd (hdecide.1 hn)⟩
    | idle =>
      exact ⟨fun hd => final_decideFlow_of_decides hrest hc rfl (hdecide.2 hd),
        fun hd => final_decideFlow_of_not_decides hrest hc rfl fun hn => hd (hdecide.1 hn)⟩
    | evicted =>
      exact ⟨fun _ => final_wakeup hrest (hans (by simp [hs])) hc, fun hn => absurd trivial hn⟩
    | expired => exact absurd hs hstate
    | active =>
      dsimp only
      split
      · rename_i hmiss
        exact ⟨fun _ => final_wakeup hrest (hans (by simp [hs])) hc, fun hn => absurd hmiss hn⟩
      · rename_i hmiss
        refine ⟨fun hm => absurd hm hmiss, fun _ => ?_⟩
        split
        · rename_i d p' he
          exact keeping_setFlow (f := { f.packet_in pi with decision := d, state := .active }) hc rfl
        · exact keeping_setFlow (f := f.packet_in pi) hc rfl

/-- **One event** in a scope whose flows all rest. -/
theorem Rest.react (h : Rest (fun _ g => g.Rests) s) (flood : Output) (e : ScopeEvent τ) :
    (s.Settles e → Rest (fun _ g => g.Rests) (s.react flood e)) ∧
      (¬ s.Settles e → (s.react flood e).Keeping) := by
  have hi := h.inv
  cases e with
  | packetIn policy pi enum => exact h.processPacketIn flood policy pi enum
  | flowRemoved cookie reason =>
    refine ⟨fun _ => ?_, fun hn => absurd trivial hn⟩
    simp only [SwitchScope.react, processFlowRemoved]
    split
    · exact h
    · rename_i f hf
      split
      · exact ⟨hi.erase cookie, h.miss, fun c g hg => h.flows c g (flows_of_erase hg).2⟩
      · refine h.setFlow ?_ (fun _ _ _ hg => hg) ((h.flows _ f hf).flow_removed reason)
        rw [FlowImpl.flow_removed_cookie, (hi.keyed _ f hf).1]
        exact (hi.keyed _ f hf).2
  | invalidateTraceTree =>
    exact ⟨fun _ => ⟨hi.invalidateTraceTree, h.miss, h.flows⟩, fun hn => absurd trivial hn⟩
  | closed =>
    exact ⟨fun _ => ⟨hi.closed, h.miss, fun c f hf => (by cases hf)⟩, fun hn => absurd trivial hn⟩
  | reinit => exact ⟨fun _ => ⟨hi.reinit, h.miss, h.flows⟩, fun hn => absurd trivial hn⟩

theorem rest_init : Rest (fun _ g => g.Rests) (init : SwitchScope τ) :=
  ⟨.init, ⟨rfl, rfl⟩, fun c f hf => by cases hf⟩

theorem Rest.settled (h : Rest (fun _ g => g.Rests) s) : s.Settled :=
  ⟨fun c f hf => (h.flows c f hf).1, h.miss⟩

/-- **No flow keeps a packet-in**, in every state of a scope's life, exactly when every packet-in
met the condition. -/
theorem settled_iff_settles {h : List (SwitchScope τ × ScopeEvent τ)} (hl : Life flood h s) :
    (∀ y ∈ states h s, y.Settled) ↔ ∀ x ∈ h, x.1.Settles x.2 := by
  refine hl.states_iff (I := Rest fun _ g => g.Rests) (R := Settled) (G := Settles)
    rest_init (fun _ hrest => hrest.settled) fun s e s' hrest _ he => ?_
  cases he
  obtain ⟨hgood, hbad⟩ := hrest.react flood e
  exact ⟨hgood, fun hn => (hbad hn).not_settled⟩

/-- The policy of the first packet-in throws, and its flow keeps the packet-in. -/
theorem settled_iff_settles_first :
    ((∀ y ∈ states [((init : SwitchScope OfbType),
          ScopeEvent.packetIn throwing (firstPacketIn (frame 0x0800 5 3)) inOrder)]
          ((init : SwitchScope OfbType).processPacketIn (.port 0xfffffffb 0) throwing
            (firstPacketIn (frame 0x0800 5 3)) inOrder), y.Settled) ↔
      ∀ x ∈ [((init : SwitchScope OfbType),
        ScopeEvent.packetIn throwing (firstPacketIn (frame 0x0800 5 3)) inOrder)],
        x.1.Settles x.2) ∧
      (((init : SwitchScope OfbType).processPacketIn (.port 0xfffffffb 0) throwing
        (firstPacketIn (frame 0x0800 5 3)) inOrder).flows (missCookie + 1)).map
          (·.packetData) = some (some 0) := by
  have hlife : Life (.port 0xfffffffb 0)
      [((init : SwitchScope OfbType),
        ScopeEvent.packetIn throwing (firstPacketIn (frame 0x0800 5 3)) inOrder)]
      ((init : SwitchScope OfbType).processPacketIn (.port 0xfffffffb 0) throwing
        (firstPacketIn (frame 0x0800 5 3)) inOrder) :=
    Trace.nil.snoc trivial rfl
  exact ⟨settled_iff_settles hlife, rfl⟩

/-- Flows keep packet-ins that are consumed. -/
theorem processPacketIn_not_settled : ¬ ∀ (flood : Output)
    (h : List (SwitchScope OfbType × ScopeEvent OfbType)) (s : SwitchScope OfbType)
    (policy : Policy OfbType Decision) (pi : PacketIn OfbType) (enum : Enumeration OfbType),
    Life flood h s → (s.processPacketIn flood policy pi enum).Settled := by
  intro hall
  have h := hall (.port 0xfffffffb 0) [] init throwing (firstPacketIn (frame 0x0800 5 3)) inOrder
    .nil
  exact absurd (h.1 (missCookie + 1) _ rfl).1 (by decide)

end SwitchScope

end Controller
