import Runos.Controller.Proof.Install

/-!
# Unexplored packets at the switch

The barrier rules of a compiled tree are those of the flow `miss`, which is never pending, so
`FlowImpl::install` sends none of them. A packet that passes a test whose positive branch has no
rule for it then meets the rules of the negative branch: `Node.fallThrough` is the flow whose rule
it meets. `run_inv` is the invariant of every run; after every commit the highest rule that matches
a packet is that of the flow it falls through to, or the table-miss rule (`commit_top`). Hence an
unexplored packet goes to the controller exactly when that flow sends it there
(`unexplored_to_controller_iff`), and `unexplored_forwarded` is a run after which it does not.
-/

/-! ## Falling through the tree -/

namespace Maple

open Oxm

variable {τ : Type} [OxmType τ] {F : Type} {q : Packet τ} {n n' : Node τ F}

/-- The flow whose rule a packet meets where there are no barrier rules: at a test it passes, that
of the positive branch if it meets one there, else that of the negative branch. -/
def Node.fallThrough (hasRule : F → Bool) (q : Packet τ) : Node τ F → Option F
  | .unexplored => none
  | .flow f => if hasRule f then some f else none
  | .test _ need positive negative =>
    if q.test need = some true then
      (positive.fallThrough hasRule q).or (negative.fallThrough hasRule q)
    else negative.fallThrough hasRule q
  | .load _ mask keys cases =>
    match q.load mask with
    | none => none
    | some f => if f.value ∈ keys then (cases f.value).fallThrough hasRule q else none

theorem claimant_eq_fallThrough (alive : F → Bool) {hasRule : F → Bool} {barrier : F}
    (hb : hasRule barrier = false) (ha : ∀ f, hasRule f = true → alive f = true) :
    n.claimant alive hasRule barrier q = n.fallThrough hasRule q := by
  induction n with
  | unexplored => rfl
  | flow f =>
    simp only [Node.claimant, Node.fallThrough]
    cases hr : hasRule f with
    | false => simp
    | true => simp [ha f hr]
  | test t need pos neg ihp ihn =>
    simp [Node.claimant, Node.fallThrough, hb, ihp, ihn]
  | load t mask keys cases ih =>
    unfold Node.claimant Node.fallThrough
    cases q.load mask with
    | none => rfl
    | some f => simp only [ih]

theorem Node.Reorder.fallThrough {hasRule : F → Bool} (h : n.Reorder n') :
    n'.fallThrough hasRule q = n.fallThrough hasRule q := by
  induction h with
  | unexplored => rfl
  | flow f => rfl
  | test t need _ _ ihp ihn => simp only [Node.fallThrough, ihp, ihn]
  | load t mask hk _ ih => simp only [Node.fallThrough, ih, hk.mem_iff]

end Maple

namespace Controller

open Oxm OxmType Maple Priority

variable {τ : Type} [OxmType τ] {flood : Output} {policy : Policy τ Decision}
  {s s' : SwitchScope τ} {f : FlowImpl τ} {pi : PacketIn τ}

namespace SwitchScope

/-! ## Flows with a rule -/

theorem alive_of_hasRule {s : SwitchScope τ} (c : Nat) (h : s.hasRule c = true) :
    s.alive c = true := by
  unfold SwitchScope.hasRule at h
  unfold SwitchScope.alive
  cases hf : s.flows c with
  | none => rw [hf] at h; cases h
  | some f => rfl

/-- An entry matches what its rule matches. -/
theorem entryOf_any {r : Rule τ Nat} (h : s.hasRule r.flow = true → (s.entryOf flood r).isSome)
    (q : Packet τ) : (s.entryOf flood r).any (fun e => e.matchSet.admits q) =
      (s.hasRule r.flow && r.matchSet.admits q) := by
  cases he : s.entryOf flood r with
  | none =>
    rw [he] at h
    cases hr : s.hasRule r.flow with
    | false => rfl
    | true => cases h hr
  | some e =>
    have hr : s.hasRule r.flow = true := by
      obtain ⟨f, hf, hfe⟩ := Option.bind_eq_some_iff.1 he
      rw [SwitchScope.hasRule, hf, Option.any_some]
      split at hfe
      · rename_i hp; exact hp
      · cases hfe
    obtain ⟨f, a, -, -, rfl⟩ := entryOf_eq_some he
    rw [hr, Option.any_some, Bool.true_and]
    rfl

/-! ## The invariant of a run -/

/-- The state in which a stage leaves the scope. -/
def Stage.Keeps (P : SwitchScope τ → Prop) : Stage τ → Prop
  | .returned s => P s
  | .thrown _ s => P s
  | .committing s => P s

theorem Stage.keeps_ofInstall {P : SwitchScope τ → Prop}
    {r : Except (Exc × SwitchScope τ) (SwitchScope τ)} (h : SwitchScope.Keeps P r) :
    (Stage.ofInstall r).Keeps P := by
  cases r <;> exact h

/-- The flows that are left once the flow `c` is erased. -/
theorem flows_of_erase {flows : Nat → Option (FlowImpl τ)} {c c' : Nat}
    (h : Function.update flows c none c' = some f) : c' ≠ c ∧ flows c' = some f := by
  rw [Function.update_apply] at h
  split at h
  · cases h
  · rename_i hne
    exact ⟨hne, h⟩

variable [DecidableEq τ]

theorem Inv.flowFor (h : s.Inv) (hf : s.flowFor pi = .ok (f, s')) :
    s'.Inv ∧ missCookie < f.cookie := by
  have hnew : ({ s.setFlow { cookie := s.nextCookie } with
      nextCookie := s.nextCookie + 1 } : SwitchScope τ).Inv :=
    let hs := h.setFlow (f := { cookie := s.nextCookie }) h.next
    ⟨hs.wf, hs.keyed, Nat.lt_succ_of_lt h.next, hs.missKey, hs.missIdle, hs.base⟩
  unfold SwitchScope.flowFor at hf
  cases hl : s.lookup pi.pkt with
  | error e => rw [hl] at hf; cases hf
  | ok found =>
    rw [hl] at hf
    simp only [bind, Except.bind] at hf
    split at hf
    · rename_i g hg
      split at hf
      · cases hf
        obtain ⟨c, -, hc⟩ := Option.bind_eq_some_iff.1 hg
        obtain ⟨hk, hlt⟩ := h.keyed c f hc
        exact ⟨h, by rw [hk]; exact hlt⟩
      · cases hf
        exact ⟨hnew, h.next⟩
    · cases hf
      exact ⟨hnew, h.next⟩

theorem Inv.setTree (h : s.Inv) {tree : Node τ Nat} (ht : tree.WF ∅) :
    ({ s with tree := tree } : SwitchScope τ).Inv :=
  ⟨ht, h.keyed, h.next, h.missKey, h.missIdle, h.base⟩

theorem Inv.erase (h : s.Inv) (c : Nat) :
    ({ s with flows := Function.update s.flows c none } : SwitchScope τ).Inv :=
  ⟨h.wf, fun c' g hg => h.keyed c' g (flows_of_erase hg).2, h.next, h.missKey, h.missIdle, h.base⟩

theorem Inv.decideFlow (h : s.Inv) (hf : missCookie < f.cookie) :
    (s.decideFlow flood policy pi f).Keeps Inv := by
  have hwf := wf_augment Decision.disposable policy pi.pkt f.cookie h.wf
  unfold SwitchScope.decideFlow
  generalize augment Decision.disposable policy pi.pkt f.cookie s.tree = r at hwf ⊢
  have h1 := (h.setFlow (f := { f with decision := r.2.decision.getD f.decision }) hf).setTree hwf
  dsimp only
  split
  · exact h1
  · split
    · have h2 := h1.installFlow flood (f := { f with
        decision := r.2.decision.getD f.decision
        mods := r.2.mods
        priority := 1
        matchSet := r.2.mods }) hf
      split
      · rename_i s1 hi
        have h3 : Keeps Inv (Except.ok s1) := hi ▸ h2
        exact Inv.erase h3 _
      · rename_i e s1 hi
        have h3 : Keeps Inv (Except.error (e, s1)) := hi ▸ h2
        exact h3
    · exact h1.setFlow hf

/-- **Processing a packet-in** keeps the invariant up to the commit. -/
theorem Inv.processUntilCommit (h : s.Inv) (flood : Output) (policy : Policy τ Decision)
    (pi : PacketIn τ) : (s.processUntilCommit flood policy pi).Keeps Inv := by
  unfold SwitchScope.processUntilCommit
  split
  · exact h
  · rename_i f s1 hf
    obtain ⟨h1, hc⟩ := h.flowFor hf
    have h2 : (s1.setFlow (f.packet_in pi)).Inv := h1.setFlow hc
    dsimp only
    split
    · exact h2.decideFlow hc
    · exact h2.decideFlow hc
    · exact Stage.keeps_ofInstall (h2.installFlow flood hc)
    · exact h2
    · split
      · exact Stage.keeps_ofInstall (h2.installFlow flood hc)
      · split
        · exact h2.setFlow hc
        · exact h2

theorem Inv.step (h : s.Inv) (e : Event τ) : (s.step flood policy e).Inv := by
  cases e with
  | packetIn pi enum =>
    have hp := h.processUntilCommit flood policy pi
    simp only [SwitchScope.step, SwitchScope.processPacketIn]
    split
    · rename_i hs; rw [hs] at hp; exact hp
    · rename_i hs; rw [hs] at hp; exact hp
    · rename_i s1 hs
      rw [hs] at hp
      have hc := Inv.commit hp flood enum
      split
      · rename_i hr; rw [hr] at hc; exact hc
      · rename_i hr; rw [hr] at hc; exact hc
  | flowRemoved cookie reason =>
    simp only [SwitchScope.step, SwitchScope.processFlowRemoved]
    split
    · exact h
    · rename_i f hf
      obtain ⟨hk, hlt⟩ := h.keyed _ f hf
      split
      · exact h.erase cookie
      · refine h.setFlow ?_
        rw [FlowImpl.flow_removed_cookie, hk]
        exact hlt

/-- **Every run** keeps the invariant. -/
theorem run_inv (flood : Output) (policy : Policy τ Decision) (events : List (Event τ)) :
    (run flood policy events).Inv := by
  unfold run
  suffices ∀ s : SwitchScope τ, s.Inv → (events.foldl (SwitchScope.step flood policy) s).Inv from
    this _ .init
  induction events with
  | nil => exact fun _ h => h
  | cons e events ih => exact fun s h => ih _ (h.step e)

/-! ## The rule that decides on the switch -/

theorem hasRule_miss (h : s.Inv) : s.hasRule missCookie = false := by
  rw [SwitchScope.hasRule, h.flows_miss]; rfl

/-- **The table after a commit that returns**. -/
theorem commit_table (h : s.Inv) {enum : Enumeration τ} (hc : s.commit flood enum = .ok s')
    (hcount : ((enum.order s.tree).rules s.alive missCookie ∅).length ≤ 65535) :
    Frame s s' ∧
      s'.table = tableMiss ::
        (numbered ((enum.order s.tree).rules s.alive missCookie ∅) 1).filterMap (s.entryOf flood) ∧
      ∀ r ∈ numbered ((enum.order s.tree).rules s.alive missCookie ∅) 1,
        s.hasRule r.flow = true → (s.entryOf flood r).isSome := by
  rw [SwitchScope.commit, commit_eq _ _ _ ((enum.reorder s.tree).wf h.wf)] at hc
  have hbase : ((mapleBackend flood).remove s).table = [tableMiss] := h.base
  have htab : ∀ e ∈ ((mapleBackend flood).remove s).table, e.priority < 1 := by
    rw [hbase]
    intro e he
    cases List.mem_singleton.1 he
    exact Nat.zero_lt_one
  obtain ⟨hframe, htable, hrule⟩ :=
    installAll_ok h.remove (by omega) (fun _ => htab) hc
  refine ⟨⟨hframe.tree, hframe.none, hframe.some⟩, ?_, hrule⟩
  rw [htable, hbase]
  rfl

/-- **The rule that decides after a commit**: that of the flow the packet falls through to, or the
table-miss rule. -/
theorem commit_top (h : s.Inv) {enum : Enumeration τ} (hc : s.commit flood enum = .ok s')
    (hcount : ((enum.order s.tree).rules s.alive missCookie ∅).length ≤ 65535) (q : Packet τ) :
    ∃ e, (∀ e', IsTop Entry.priority (·.matchSet.admits q) s'.table e' ↔ e' = e) ∧
      match s.tree.fallThrough s.hasRule q with
      | none => e = tableMiss
      | some c => ∃ f a, s.flows c = some f ∧ f.actions flood = some a ∧ e.actions = a := by
  obtain ⟨-, htable, hrule⟩ := commit_table h hc hcount
  have hnum := numbered_pairwise ((enum.order s.tree).rules s.alive missCookie ∅) 1
    (by omega)
  have hpw : s'.table.Pairwise (·.priority < ·.priority) := by
    rw [htable, List.pairwise_cons]
    refine ⟨fun e he => ?_, hnum.1.filterMap _ fun r r' hr e he e' he' => ?_⟩
    · obtain ⟨r, hr, he⟩ := List.mem_filterMap.1 he
      rw [entryOf_priority he]
      exact hnum.2 r hr
    · rw [entryOf_priority he, entryOf_priority he']
      exact hr
  -- the flow of the last rule that matches is the one the packet falls through to
  have hfall : (lastMatch (fun r : Rule τ Nat => s.hasRule r.flow && r.matchSet.admits q)
      (numbered ((enum.order s.tree).rules s.alive missCookie ∅) 1)).map Rule.flow =
      s.tree.fallThrough s.hasRule q := by
    rw [← (enum.reorder s.tree).fallThrough, ← claimant_eq_fallThrough s.alive
      (hasRule_miss h) alive_of_hasRule,
      ← lastMatch_rules s.alive missCookie s.hasRule ((enum.reorder s.tree).wf h.wf)
        (FieldSet.admits_empty q),
      ← lastMatch_numbered _ _ 1, Option.map_map]
    rfl
  have hlast : lastMatch (fun e : Entry τ => e.matchSet.admits q) s'.table =
      ((lastMatch (fun r : Rule τ Nat => s.hasRule r.flow && r.matchSet.admits q)
        (numbered ((enum.order s.tree).rules s.alive missCookie ∅) 1)).bind (s.entryOf flood)).or
        (some tableMiss) := by
    have hmiss : (tableMiss : Entry τ).matchSet.admits q = true := FieldSet.admits_empty q
    rw [htable, ← List.singleton_append, lastMatch_append, lastMatch_filterMap,
      lastMatch_singleton, if_pos hmiss,
      lastMatch_congr fun r hr => entryOf_any (hrule r hr) q]
  cases hm : lastMatch (fun r : Rule τ Nat => s.hasRule r.flow && r.matchSet.admits q)
      (numbered ((enum.order s.tree).rules s.alive missCookie ∅) 1) with
  | none =>
    rw [hm] at hfall hlast
    refine ⟨tableMiss, fun e' => ?_, by rw [← hfall]; rfl⟩
    rw [isTop_iff_lastMatch hpw, hlast]
    simp [eq_comm]
  | some r =>
    obtain ⟨hr, hp⟩ := of_lastMatch hm
    rw [Bool.and_eq_true] at hp
    obtain ⟨e, he⟩ := Option.isSome_iff_exists.1 (hrule r hr hp.1)
    obtain ⟨f, a, hf, ha, hea⟩ := entryOf_eq_some he
    rw [hm, Option.bind_some, he] at hlast
    rw [hm] at hfall
    refine ⟨e, fun e' => ?_, ?_⟩
    · rw [isTop_iff_lastMatch hpw, hlast]
      simp [eq_comm]
    · rw [← hfall]
      exact ⟨f, a, hf, ha, by rw [hea]; rfl⟩

/-! ## Unexplored packets -/

/-- The rule of the flow outputs to the controller. -/
def ToController (flood : Output) (s : SwitchScope τ) (cookie : Nat) : Prop :=
  ∃ f a, s.flows cookie = some f ∧ f.actions flood = some a ∧ a.ToController

/-- **Unexplored packets**: after every commit of every run, a packet that `lookup` finds no flow
for is output to the controller exactly when the flow it falls through to, if any, is. -/
theorem unexplored_to_controller_iff (flood : Output) (policy : Policy τ Decision)
    (events : List (Event τ)) (pi : PacketIn τ) (enum : Enumeration τ) {s₁ s₂ : SwitchScope τ}
    (hpi : (run flood policy events).processUntilCommit flood policy pi = .committing s₁)
    (hcommit : s₁.commit flood enum = .ok s₂)
    (hcount : ∀ rules, (enum.order s₁.tree).commit recorder s₁.alive missCookie [] = .ok rules →
      rules.length ≤ 65535) (q : Packet τ) :
    (s₂.lookup q = .ok none →
      ∃ e, IsTop Entry.priority (·.matchSet.admits q) s₂.table e ∧ e.actions.ToController) ↔
    (s₁.lookup q = .ok none →
      ∀ c, s₁.tree.fallThrough s₁.hasRule q = some c → s₁.ToController flood c) := by
  have hinv : s₁.Inv := by
    have := (run_inv flood policy events).processUntilCommit flood policy pi
    rw [hpi] at this; exact this
  have hlen : ((enum.order s₁.tree).rules s₁.alive missCookie ∅).length ≤ 65535 := by
    rw [← numbered_length _ 1]
    refine hcount _ ?_
    rw [commit_eq _ _ _ ((enum.reorder s₁.tree).wf hinv.wf), installAll_recorder]
    rfl
  obtain ⟨hframe, -, -⟩ := commit_table hinv hcommit hlen
  obtain ⟨e, htop, hfall⟩ := commit_top hinv hcommit hlen q
  rw [hframe.lookup]
  refine imp_congr_right fun _ => ?_
  cases hc : s₁.tree.fallThrough s₁.hasRule q with
  | none =>
    rw [hc] at hfall
    subst hfall
    refine ⟨fun _ c h => (by cases h), fun _ => ⟨_, (htop _).2 rfl, ?_⟩⟩
    exact ⟨_, Multiset.mem_singleton_self _, rfl⟩
  | some c =>
    rw [hc] at hfall
    obtain ⟨f, a, hf, ha, hea⟩ := hfall
    constructor
    · rintro ⟨e', he', hctrl⟩ c' hc'
      cases hc'
      rw [(htop e').1 he', hea] at hctrl
      exact ⟨f, a, hf, ha, hctrl⟩
    · intro h
      obtain ⟨f', a', hf', ha', hctrl⟩ := h c rfl
      rw [hf] at hf'
      cases hf'
      rw [ha] at ha'
      cases ha'
      exact ⟨e, (htop e).2 rfl, by rw [hea]; exact hctrl⟩

/-- The case maps in the order they are stored. -/
def inOrder : Enumeration τ := ⟨id, Node.Reorder.refl⟩

/-- The first packet-in of a scope. -/
def firstPacketIn (pkt : Packet OfbType) : PacketIn OfbType :=
  ⟨pkt, .noMatch, 0, 1, none, 3, some 0⟩

/-- A policy that sends every packet to a port, after it looked whether it is IPv4. -/
def forwardAll : Policy OfbType Decision :=
  .test .eth_type (Field.make 0x0800 (.exact _)) fun
    | .ok _ => .done { data := .unicast 1 }
    | .error e => .raise e

/-- A policy that sends every packet by its port. -/
def forwardByPort : Policy OfbType Decision :=
  .load .in_port (.exact _) fun
    | .ok f => .done { data := .unicast (f.value.toNat + 1) }
    | .error e => .raise e

/-- After the first packet, which is not IPv4, its rule matches every packet: an IPv4 packet, which
no run has explored, is sent to a port. -/
theorem unexplored_forwarded :
    ∃ s₁ s₂ : SwitchScope OfbType,
      (run (.port 0xfffffffb 0) forwardAll []).processUntilCommit (.port 0xfffffffb 0) forwardAll
        (firstPacketIn (frame 0x0806 5 3)) = .committing s₁ ∧
      s₁.commit (.port 0xfffffffb 0) inOrder = .ok s₂ ∧
      s₁.tree.Carried (frame 0x0800 5 3) ∧ s₂.lookup (frame 0x0800 5 3) = .ok none ∧
      ¬ ∃ e, IsTop Entry.priority (·.matchSet.admits (frame 0x0800 5 3)) s₂.table e ∧
        e.actions.ToController := by
  refine ⟨_, _, rfl, rfl, ⟨rfl, trivial, trivial⟩, rfl, ?_⟩
  rintro ⟨e, ⟨he, -, hmax⟩, hctrl⟩
  rcases List.mem_cons.1 he with rfl | he
  · have := hmax _ (List.mem_cons_of_mem _ List.mem_cons_self) (FieldSet.admits_empty _)
    exact absurd this (by decide)
  · cases List.mem_singleton.1 he
    exact absurd hctrl (by decide)

/-- With loads alone nothing is fallen through to: a packet of another port goes to the
controller. -/
theorem unexplored_to_controller_by_port :
    ∃ s₁ s₂ : SwitchScope OfbType,
      (run (.port 0xfffffffb 0) forwardByPort []).processUntilCommit (.port 0xfffffffb 0)
        forwardByPort (firstPacketIn (frame 0x0806 5 3)) = .committing s₁ ∧
      s₁.commit (.port 0xfffffffb 0) inOrder = .ok s₂ ∧
      s₂.lookup (frame 0x0800 5 4) = .ok none ∧
      ∃ e, IsTop Entry.priority (·.matchSet.admits (frame 0x0800 5 4)) s₂.table e ∧
        e.actions.ToController := by
  refine ⟨_, _, rfl, rfl, rfl, ?_⟩
  refine (unexplored_to_controller_iff (.port 0xfffffffb 0) forwardByPort []
    (firstPacketIn (frame 0x0806 5 3)) inOrder rfl rfl (fun rules hr => ?_)
    (frame 0x0800 5 4)).2 (fun _ c hc => ?_) rfl
  · cases hr
    decide
  · cases hc

end SwitchScope

end Controller
