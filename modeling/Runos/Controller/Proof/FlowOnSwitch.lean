import Runos.Lib.Trace
import Runos.Controller.FlowOnSwitch
import Runos.Controller.Proof.Install

/-!
# A flow is active while its rule is on the switch

`outstanding` lists the removals that are reported or that the messages on their way will cause,
`willHold` says whether the rule will be there once they are executed. A flow that is active stays
so when nothing is outstanding, or one delete that it expects (`Expected`): `expect_remowed` counts
up with every installation, and is only compared with 1. So flow and switch agree whenever both
channels are empty as long as every step leaves the flow to stay active exactly when the rule will
hold (`Settled`). `settled_step_iff` says which steps do (`Safe`):

* an installation that adds the rule, in a commit or to answer a table miss, finds nothing
  outstanding, or one delete (that of the commit counts) with `expect_remowed` at 0 before;
* an installation that adds none, because the decision is disposable or there are no actions for
  it, does not leave an active flow without a rule, or the other way round;
* a commit that does not come to an active flow does not find its delete expected;
* a rule that is removed by a timeout or a third party has no new rule on its way, and is not taken
  for the expected delete; or it is just that delete, in the place of the one on its way;
* a rule that is removed with its group, which `flow_removed` ignores, has a new rule on its way
  exactly when the flow is active and stays so.
-/

namespace Controller

open Oxm OxmType Runs

variable {τ : Type} [OxmType τ]

/-! ## Messages on their way -/

/-- The rule once the messages are executed, and the removals that are reported. -/
def settle : Bool → List (Msg τ) → Bool × List RemovedReason
  | present, [] => (present, [])
  | present, m :: ms =>
    ((settle (m.apply present).1 ms).1, (m.apply present).2 ++ (settle (m.apply present).1 ms).2)

theorem settle_append (present : Bool) (ms ms' : List (Msg τ)) :
    settle present (ms ++ ms') = ((settle (settle present ms).1 ms').1,
      (settle present ms).2 ++ (settle (settle present ms).1 ms').2) := by
  induction ms generalizing present with
  | nil => simp [settle]
  | cons m ms ih => simp [settle, ih]

/-- `flow_removed` has a case for the reason. -/
def RemovedReason.handled : RemovedReason → Bool
  | .delete | .meterDelete | .idleTimeout | .hardTimeout => true
  | .groupDelete | .other _ => false

/-- The removals among the reports that are handled. -/
def reported (reports : List (Report τ)) : List RemovedReason :=
  reports.filterMap fun
    | .packetIn _ => none
    | .flowRemoved reason => if reason.handled then some reason else none

theorem reported_append (l l' : List (Report τ)) :
    reported (l ++ l') = reported l ++ reported l' := List.filterMap_append

theorem reported_flowRemoved (reason : RemovedReason) (l : List (Report τ)) :
    reported (.flowRemoved reason :: l) =
      if reason.handled then reason :: reported l else reported l := by
  cases h : reason.handled <;> simp [reported, h]

/-- The removals that a message causes are deletes. -/
@[simp] theorem reported_apply (m : Msg τ) (present : Bool) :
    reported ((m.apply present).2.map Report.flowRemoved : List (Report τ)) =
      (m.apply present).2 := by
  cases m with
  | add | packetOut => rfl
  | delete => cases present <;> rfl

/-! ## Removals of an active flow -/

/-- The removals leave an active flow as it is. -/
def Expected (removals : List RemovedReason) (expectRemoved : Int) : Prop :=
  removals = [] ∨ removals = [.delete] ∧ expectRemoved = 1

instance (removals : List RemovedReason) (expectRemoved : Int) :
    Decidable (Expected removals expectRemoved) := inferInstanceAs (Decidable (_ ∨ _))

/-- The flow is active once the removals have been handled. -/
def Stays (flow : Option (FlowImpl τ)) (removals : List RemovedReason) : Prop :=
  ∃ f ∈ flow, f.state = .active ∧ Expected removals f.expectRemoved

instance (flow : Option (FlowImpl τ)) (removals : List RemovedReason) :
    Decidable (Stays flow removals) := inferInstanceAs (Decidable (∃ _ ∈ flow, _))

@[simp] theorem stays_none (removals : List RemovedReason) :
    ¬ Stays (none : Option (FlowImpl τ)) removals := by
  simp [Stays]

@[simp] theorem stays_some {f : FlowImpl τ} {removals : List RemovedReason} :
    Stays (some f) removals ↔ f.state = .active ∧ Expected removals f.expectRemoved := by
  simp [Stays]

namespace FlowOnSwitch

variable {flood : Output} {s : FlowOnSwitch τ} {f : FlowImpl τ}

/-- **Handling a removal.** -/
theorem stays_processFlowRemoved (reason : RemovedReason) (removals : List RemovedReason) :
    Stays (s.processFlowRemoved reason).flow removals ↔
      Stays s.flow (if reason.handled then reason :: removals else removals) := by
  unfold processFlowRemoved
  cases hf : s.flow with
  | none => simp [hf]
  | some f =>
    cases reason with
    | groupDelete | other _ =>
      by_cases hx : f.state = .expired
      · simp [FlowImpl.flow_removed, RemovedReason.handled, hx]
      · simp [FlowImpl.flow_removed, RemovedReason.handled, hx]
    | delete =>
      by_cases he : f.expectRemoved = 1
      · by_cases hx : f.state = .expired
        · simp [FlowImpl.flow_removed, he, hx]
        · simp [FlowImpl.flow_removed, RemovedReason.handled, he, hx, Expected]
      · simp [FlowImpl.flow_removed, RemovedReason.handled, he, Expected]
    | meterDelete => simp [FlowImpl.flow_removed, RemovedReason.handled, Expected]
    | idleTimeout => simp [FlowImpl.flow_removed, RemovedReason.handled, Expected]
    | hardTimeout => simp [FlowImpl.flow_removed, RemovedReason.handled, Expected]

/-- The removals that are reported or that the messages on their way will cause. -/
def outstanding (s : FlowOnSwitch τ) : List RemovedReason :=
  reported s.toController ++ (settle s.present s.toSwitch).2

/-- The rule is there once the messages on their way are executed. -/
def willHold (s : FlowOnSwitch τ) : Bool := (settle s.present s.toSwitch).1

/-- Flow and rule will agree. -/
def Settled (s : FlowOnSwitch τ) : Prop := Stays s.flow s.outstanding ↔ s.willHold = true

theorem Settled.willHold_eq_false (h : Settled s) (hf : s.flow = some f)
    (ha : f.state ≠ .active) : s.willHold = false := by
  rw [Settled, hf, stays_some] at h
  simpa [ha] using h

theorem settled_execute : Settled s.execute ↔ Settled s := by
  unfold execute
  cases hm : s.toSwitch with
  | nil => simp
  | cons m ms =>
    simp [Settled, outstanding, willHold, hm, settle, reported_append]

/-! ## Installing the flow -/

/-- `expect_remowed` once the flow is installed. -/
def expectAfter (f : FlowImpl τ) : Int :=
  if f.state = .egg then f.expectRemoved else f.expectRemoved + 1

/-- `install` with these removals outstanding, and a rule that will hold or not if no rule is
added. -/
def InstallSafe (flood : Output) (f : FlowImpl τ) (removals : List RemovedReason) (held : Bool) :
    Prop :=
  f.pending = true →
    if f.messages flood = none then
      f.state = .active → (Expected removals (expectAfter f) ↔ held = true)
    else if f.disposable = true then
      Expected removals (expectAfter f) ↔ held = true
    else
      Expected removals (expectAfter f)

theorem settle_messages {ms : List (Msg τ)} (h : f.messages flood = some ms) (present : Bool) :
    settle present ms = (if f.disposable then present else true, []) := by
  unfold FlowImpl.messages at h
  split at h
  · rename_i hd
    split at h
    · obtain ⟨a, -, rfl⟩ := Option.map_eq_some_iff.1 h
      simp [settle, Msg.apply, FlowImpl.packetOutMsg, hd]
    · cases h
      simp [settle, hd]
  · obtain ⟨a, -, rfl⟩ := Option.map_eq_some_iff.1 h
    split
    · simp [settle, Msg.apply, FlowImpl.packetOutMsg]
    · simp [settle, Msg.apply]

/-- The cases of `install`. -/
theorem install_cases (flood : Output) (f : FlowImpl τ) :
    (f.pending = false ∧ f.install flood = (f, .ok [])) ∨
    (f.pending = true ∧ f.messages flood = none ∧
      f.install flood = ({ f with expectRemoved := expectAfter f }, .error .unhandledPacket)) ∨
    ∃ ms, f.pending = true ∧ f.messages flood = some ms ∧
      f.install flood = ({ f with expectRemoved := expectAfter f }.installed, .ok ms) := by
  cases hp : f.pending with
  | false => exact .inl ⟨rfl, FlowImpl.install_of_not_pending hp⟩
  | true =>
    have hs : f.state = .active ∨ f.packetIn = true := by simpa [FlowImpl.pending] using hp
    have hguard : ¬ (f.state ≠ .active ∧ f.packetIn = false) := by
      intro hg
      rcases hs with hs | hs
      · exact hg.1 hs
      · simp [hs] at hg
    have hguard' : ¬ (f.state = .evicted ∧ f.packetIn = false) := by
      intro hg
      exact hguard ⟨by simp [hg.1], hg.2⟩
    have hexpect : (if f.state ≠ .egg then { f with expectRemoved := f.expectRemoved + 1 } else f) =
        { f with expectRemoved := expectAfter f } := by
      unfold expectAfter
      by_cases he : f.state = .egg
      · rw [if_neg (not_not.2 he), if_pos he]
      · rw [if_pos he, if_neg he]
    have hmsg : FlowImpl.messages flood { f with expectRemoved := expectAfter f } =
        f.messages flood := rfl
    simp only [FlowImpl.install, hguard, hguard', if_false, hexpect, hmsg]
    cases hm : f.messages flood with
    | none => exact .inr (.inl ⟨trivial, rfl, rfl⟩)
    | some ms => exact .inr (.inr ⟨ms, trivial, rfl, rfl⟩)

/-- **Installing the flow.** -/
theorem settled_install_iff (flood : Output) (h : f.state ≠ .active → s.willHold = false) :
    Settled (s.install flood f) ↔ InstallSafe flood f s.outstanding s.willHold := by
  unfold install
  obtain ⟨hp, hi⟩ | ⟨hp, hm, hi⟩ | ⟨ms, hp, hm, hi⟩ := install_cases flood f
  · -- nothing is done for a flow that is not active
    have ha : f.state ≠ .active := by
      intro ha
      simp [FlowImpl.pending, ha] at hp
    have hheld : (settle s.present s.toSwitch).1 = false := h ha
    simp [hi, Settled, InstallSafe, hp, willHold, ha, hheld]
  · by_cases ha : f.state = .active
    · simp [hi, Settled, InstallSafe, hp, hm, ha, outstanding, willHold]
    · have hheld : (settle s.present s.toSwitch).1 = false := h ha
      simp [hi, Settled, InstallSafe, hp, hm, ha, willHold, hheld]
  · have hsettle := settle_messages hm (settle s.present s.toSwitch).1
    by_cases hd : f.disposable = true
    · simp [hi, Settled, InstallSafe, hp, hm, hd, outstanding, willHold, settle_append, hsettle,
        FlowImpl.installed]
    · simp [hi, Settled, InstallSafe, hp, hm, hd, outstanding, willHold, settle_append, hsettle,
        FlowImpl.installed]

/-! ## Commits -/

/-- The delete of a commit is sent. -/
def deleted (s : FlowOnSwitch τ) : FlowOnSwitch τ :=
  { s with toSwitch := s.toSwitch ++ [Msg.delete] }

/-- The removals with the one that a delete causes when the rule will hold. -/
def withDelete (removals : List RemovedReason) (held : Bool) : List RemovedReason :=
  removals ++ if held then [.delete] else []

@[simp] theorem outstanding_deleted :
    s.deleted.outstanding = withDelete s.outstanding s.willHold := by
  simp only [outstanding, willHold, withDelete, deleted, settle_append, settle, Msg.apply,
    List.append_nil, List.append_assoc]
  rfl

@[simp] theorem willHold_deleted : s.deleted.willHold = false := by
  simp [willHold, deleted, settle_append, settle, Msg.apply]

theorem commit_none (hf : s.flow = none) (priority : Nat) (matchSet : FieldSet τ)
    (reached : Bool) : s.commit flood priority matchSet reached = s.deleted := by
  simp [commit, deleted, hf]

theorem commit_some (hf : s.flow = some f) (priority : Nat) (matchSet : FieldSet τ)
    (reached : Bool) : s.commit flood priority matchSet reached =
      if reached then s.deleted.install flood (f.placed priority matchSet) else s.deleted := by
  simp [commit, deleted, hf]

/-- A commit that comes to the flow or not. -/
def CommitSafe (flood : Output) (f : FlowImpl τ) (removals : List RemovedReason)
    (held reached : Bool) : Prop :=
  if reached then InstallSafe flood f (withDelete removals held) false
  else f.state = .active → ¬ Expected (withDelete removals held) f.expectRemoved

/-- **A commit.** -/
theorem settled_commit_iff (flood : Output) (priority : Nat) (matchSet : FieldSet τ)
    (reached : Bool) :
    Settled (s.commit flood priority matchSet reached) ↔ ∀ f ∈ s.flow,
      CommitSafe flood (f.placed priority matchSet) s.outstanding s.willHold reached := by
  have hdel : Settled s.deleted ↔ ¬ Stays s.flow (withDelete s.outstanding s.willHold) := by
    rw [Settled, willHold_deleted, outstanding_deleted]
    show (Stays s.flow _ ↔ _) ↔ _
    simp
  cases hf : s.flow with
  | none => simp [commit_none hf, hdel, hf]
  | some f =>
    rw [commit_some hf]
    cases reached with
    | false => simp [hdel, hf, CommitSafe, FlowImpl.placed]
    | true =>
      have hinst := settled_install_iff flood (f := f.placed priority matchSet)
        (s := s.deleted) fun _ => willHold_deleted
      rw [willHold_deleted, outstanding_deleted] at hinst
      simpa [CommitSafe] using hinst

/-! ## Steps -/

/-- The flow is decided: only a rule for it is of interest. -/
def DecideSafe (flood : Output) (removals : List RemovedReason) (held : Bool) (f : FlowImpl τ)
    (v : Verdict τ) : Prop :=
  v.thrown = false → (decided f v).disposable = false →
    CommitSafe flood ((decided f v).placed v.priority v.matchSet) removals held v.reached

/-- A packet-in of the flow. -/
def PacketSafe (flood : Output) (removals : List RemovedReason) (held : Bool) (f : FlowImpl τ)
    (pi : PacketIn τ) (v : Verdict τ) : Prop :=
  (f.state = .egg ∨ f.state = .idle → DecideSafe flood removals held (f.packet_in pi) v) ∧
  (f.state = .evicted ∨ f.state = .active ∧ SwitchScope.isTableMiss pi = true →
    InstallSafe flood (f.packet_in pi) removals held)

/-- The packet-in that is handled next. -/
def nextPacket (s : FlowOnSwitch τ) : Option (PacketIn τ) :=
  match s.toController with
  | .packetIn pi :: _ => some pi
  | _ => none

/-- The rule is removed by the switch itself: the messages on their way are then executed without
it. A removal that is not handled leaves the flow to those that are outstanding. -/
def RemoveSafe (s : FlowOnSwitch τ) (reason : RemovedReason) : Prop :=
  if reason.handled then
    (∃ f ∈ s.flow, f.state = .active ∧ f.expectRemoved = 1 ∧ reason = .delete ∧
      reported s.toController = [] ∧ (settle false s.toSwitch).2 = []) ↔
      (settle false s.toSwitch).1 = true
  else
    (∃ f ∈ s.flow, f.state = .active ∧
      Expected (reported s.toController ++ (settle false s.toSwitch).2) f.expectRemoved) ↔
      (settle false s.toSwitch).1 = true

/-- The steps of the module doc. -/
def Safe (flood : Output) (s : FlowOnSwitch τ) : Event τ → Prop
  | .packet _ | .execute => True
  | .receive v => ∀ pi ∈ s.nextPacket, ∀ f ∈ s.flow,
      PacketSafe flood s.outstanding s.willHold f pi v
  | .commit priority matchSet reached => ∀ f ∈ s.flow,
      CommitSafe flood (f.placed priority matchSet) s.outstanding s.willHold reached
  | .remove reason => s.present = true → RemoveSafe s reason

section
variable (flood : Output) (removals : List RemovedReason) (held reached : Bool) (f : FlowImpl τ)
  (pi : PacketIn τ) (v : Verdict τ) (s : FlowOnSwitch τ) (reason : RemovedReason)

instance : Decidable (InstallSafe flood f removals held) :=
  inferInstanceAs (Decidable (f.pending = true →
    if f.messages flood = none then
      f.state = .active → (Expected removals (expectAfter f) ↔ held = true)
    else if f.disposable = true then Expected removals (expectAfter f) ↔ held = true
    else Expected removals (expectAfter f)))

instance : Decidable (CommitSafe flood f removals held reached) :=
  inferInstanceAs (Decidable (if reached then InstallSafe flood f (withDelete removals held) false
    else f.state = .active → ¬ Expected (withDelete removals held) f.expectRemoved))

instance : Decidable (DecideSafe flood removals held f v) :=
  inferInstanceAs (Decidable (_ → _ → CommitSafe flood _ _ _ _))

instance : Decidable (PacketSafe flood removals held f pi v) :=
  inferInstanceAs (Decidable ((_ ∨ _ → DecideSafe flood _ _ _ _) ∧
    (_ ∨ _ → InstallSafe flood _ _ _)))

instance : Decidable (RemoveSafe s reason) :=
  inferInstanceAs (Decidable (if reason.handled = true then (∃ f ∈ s.flow, _ ∧ _ ∧ _ ∧ _ ∧ _) ↔ _
    else (∃ f ∈ s.flow, _ ∧ Expected _ f.expectRemoved) ↔ _))

instance : DecidablePred (Safe flood s)
  | .packet _ | .execute => .isTrue trivial
  | .receive v => inferInstanceAs (Decidable (∀ pi ∈ s.nextPacket, ∀ f ∈ s.flow,
      PacketSafe flood s.outstanding s.willHold f pi v))
  | .commit priority matchSet reached => inferInstanceAs (Decidable (∀ f ∈ s.flow,
      CommitSafe flood (f.placed priority matchSet) s.outstanding s.willHold reached))
  | .remove reason => inferInstanceAs (Decidable (_ → RemoveSafe s reason))

end

theorem expected_middle (l l' : List RemovedReason) (reason : RemovedReason) (expect : Int) :
    Expected (l ++ reason :: l') expect ↔ expect = 1 ∧ reason = .delete ∧ l = [] ∧ l' = [] := by
  cases l with
  | nil => cases l' <;> simp [Expected, and_comm]
  | cons a l => simp [Expected]

theorem settled_remove_iff (h : Settled s) (reason : RemovedReason) :
    Settled (s.remove reason) ↔ (s.present = true → RemoveSafe s reason) := by
  unfold remove
  split
  · rename_i hp
    have hout : outstanding { s with
        present := false
        toController := s.toController ++ [.flowRemoved reason] } =
        reported s.toController ++ (if reason.handled then [reason] else []) ++
          (settle false s.toSwitch).2 := by
      rw [outstanding, reported_append, reported_flowRemoved]
      rfl
    rw [Settled, hout]
    cases hh : reason.handled with
    | true =>
      simp only [if_true, List.append_assoc, List.singleton_append, Stays, expected_middle, hp,
        true_imp_iff, RemoveSafe, hh]
      rfl
    | false =>
      simp only [Bool.false_eq_true, if_false, List.append_nil, Stays, hp, true_imp_iff,
        RemoveSafe, hh]
      rfl
  · rename_i hp
    simp [hp, h]

/-- A flow that is not active, and whose rule will not hold. -/
theorem settled_of_ne_active (hf : s.flow = some f) (ha : f.state ≠ .active)
    (hheld : s.willHold = false) : Settled s := by
  simp [Settled, hf, ha, hheld]

theorem settled_decideFlow_iff (hheld : s.willHold = false) (hs : f.state ≠ .active)
    (v : Verdict τ) : Settled (s.decideFlow flood f v) ↔
      DecideSafe flood s.outstanding s.willHold f v := by
  unfold decideFlow DecideSafe
  split
  · rename_i ht
    simp only [ht, reduceCtorEq, false_imp_iff, iff_true]
    exact settled_of_ne_active rfl hs hheld
  rename_i ht
  split
  · -- the packet is answered without a rule, and the flow is gone
    rename_i hd
    simp only [hd, reduceCtorEq, false_imp_iff, implies_true, iff_true]
    obtain ⟨-, hi⟩ | ⟨-, -, hi⟩ | ⟨ms, -, hm, hi⟩ :=
      install_cases flood ((decided f v).placed 1 v.mods)
    · rw [hi]
      simp only [List.append_nil, Settled, stays_none, false_iff]
      simpa [willHold] using hheld
    · rw [hi]
      exact settled_of_ne_active rfl hs hheld
    · have hsettle := settle_messages hm s.willHold
      rw [if_pos (show ((decided f v).placed 1 v.mods).disposable = true from hd)] at hsettle
      rw [hi]
      have hgone : willHold { s with flow := none, toSwitch := s.toSwitch ++ ms } = false := by
        rw [willHold, settle_append]
        show (settle s.willHold ms).1 = false
        rw [hsettle]
        exact hheld
      simp [Settled, hgone]
  · rename_i hd
    have hcommit := settled_commit_iff (s := { s with flow := some (decided f v) }) flood
      v.priority v.matchSet v.reached
    simp only [Option.mem_some_iff, forall_eq'] at hcommit
    simp only [Bool.not_eq_true] at ht hd
    simp only [ht, hd, true_imp_iff]
    exact hcommit

theorem settled_processPacketIn_iff (flood : Output) (h : Settled s) (hf : s.flow = some f)
    (pi : PacketIn τ) (v : Verdict τ) : Settled (s.processPacketIn flood pi v) ↔
      PacketSafe flood s.outstanding s.willHold f pi v := by
  have hheld := h.willHold_eq_false hf
  simp only [processPacketIn, hf]
  cases hs : f.state with
  | egg =>
    simp only [PacketSafe, hs, true_or, true_imp_iff, reduceCtorEq, false_and, or_self,
      false_imp_iff, and_true]
    exact settled_decideFlow_iff (hheld (by simp [hs])) (by simp [FlowImpl.packet_in, hs]) v
  | idle =>
    simp only [PacketSafe, hs, or_true, true_imp_iff, reduceCtorEq, false_and, or_self,
      false_imp_iff, and_true]
    exact settled_decideFlow_iff (hheld (by simp [hs])) (by simp [FlowImpl.packet_in, hs]) v
  | evicted =>
    simp only [PacketSafe, hs, true_or, true_imp_iff, reduceCtorEq, or_self, false_imp_iff,
      true_and]
    exact settled_install_iff flood fun ha => hheld ha
  | expired => simpa [PacketSafe, hs] using h
  | active =>
    have hkeep : ∀ d : Decision,
        Settled { s with flow := some { f.packet_in pi with decision := d } } := by
      intro d
      rw [Settled, hf, stays_some] at h
      show Stays (some _) s.outstanding ↔ s.willHold = true
      rw [stays_some]
      exact h
    by_cases hmiss : SwitchScope.isTableMiss pi = true
    · simp only [PacketSafe, hs, hmiss, if_true, true_imp_iff, reduceCtorEq, or_self,
        false_imp_iff, true_and, and_self, or_true]
      exact settled_install_iff flood fun ha => absurd hs ha
    · simp only [PacketSafe, hs, hmiss, if_false, reduceCtorEq, or_self, false_imp_iff, and_false,
        true_and, iff_true, Bool.false_eq_true]
      split
      · exact hkeep f.decision
      · exact hkeep _

/-- Handling a removal changes neither what is outstanding otherwise nor the rule. -/
theorem settled_receive_flowRemoved (flood : Output) {reason : RemovedReason}
    {rest : List (Report τ)} (hc : s.toController = .flowRemoved reason :: rest) (v : Verdict τ) :
    Settled (s.receive flood v) ↔ Settled s := by
  have hout : s.outstanding = if reason.handled then
      reason :: outstanding { s with toController := rest }
      else outstanding { s with toController := rest } := by
    rw [outstanding, hc, reported_flowRemoved]
    split <;> rfl
  have hkeep : ∀ s' : FlowOnSwitch τ, (s'.processFlowRemoved reason).outstanding =
      s'.outstanding ∧ (s'.processFlowRemoved reason).willHold = s'.willHold := by
    intro s'
    unfold processFlowRemoved
    split <;> exact ⟨rfl, rfl⟩
  obtain ⟨hout', hheld⟩ := hkeep { s with toController := rest }
  have hreceive : s.receive flood v =
      processFlowRemoved { s with toController := rest } reason := by
    simp [receive, hc]
  rw [hreceive, Settled, hout', hheld, stays_processFlowRemoved, ← hout]
  rfl

theorem settled_receive_iff (h : Settled s) (v : Verdict τ) :
    Settled (s.receive flood v) ↔ Safe flood s (.receive v) := by
  cases hc : s.toController with
  | nil => simpa [receive, Safe, nextPacket, hc] using h
  | cons r rest =>
    cases r with
    | packetIn pi =>
      have hout : outstanding { s with toController := rest } = s.outstanding := by
        simp [outstanding, hc, reported]
      have hrest : Settled { s with toController := rest } := by
        rw [Settled, hout]
        exact h
      have hreceive :
          s.receive flood v = processPacketIn flood { s with toController := rest } pi v := by
        simp only [receive, hc]
      have hsafe : Safe flood s (.receive v) ↔
          ∀ f ∈ s.flow, PacketSafe flood s.outstanding s.willHold f pi v := by
        simp [Safe, nextPacket, hc]
      rw [hreceive, hsafe]
      obtain hf | ⟨f, hf⟩ := Option.eq_none_or_eq_some s.flow
      · have hsame : processPacketIn flood { s with toController := rest } pi v =
            { s with toController := rest } := by
          simp [processPacketIn, hf]
        rw [hsame]
        refine iff_of_true hrest ?_
        intro f hf'
        cases hf.symm.trans hf'
      · have hiff := settled_processPacketIn_iff flood hrest hf pi v
        rw [hout] at hiff
        constructor
        · intro hs f' hf'
          cases hf.symm.trans hf'
          exact hiff.1 hs
        · intro hall
          exact hiff.2 (hall f hf)
    | flowRemoved reason =>
      have hsafe : Safe flood s (.receive v) := by simp [Safe, nextPacket, hc]
      exact iff_of_true ((settled_receive_flowRemoved flood hc v).2 h) hsafe

/-- **One step.** -/
theorem settled_step_iff (h : Settled s) (e : Event τ) :
    Settled (s.step flood e) ↔ Safe flood s e := by
  cases e with
  | packet pi =>
    simpa [step, Safe, Settled, outstanding, willHold, reported_append, reported] using h
  | receive v => exact settled_receive_iff h v
  | commit priority matchSet reached => exact settled_commit_iff flood priority matchSet reached
  | execute => simpa [step, Safe] using settled_execute.2 h
  | remove reason => exact settled_remove_iff h reason

/-! ## Delivering what is on its way -/

/-- The messages on their way to the switch are executed. -/
def executed (s : FlowOnSwitch τ) : FlowOnSwitch τ := execute^[s.toSwitch.length] s

/-- Then the messages on their way to the controller are handled. -/
def delivered (flood : Output) (v : Verdict τ) (s : FlowOnSwitch τ) : FlowOnSwitch τ :=
  (receive flood · v)^[s.executed.toController.length] s.executed

/-- No packet-in is on its way. -/
def NoPackets (s : FlowOnSwitch τ) : Prop :=
  ∀ r ∈ s.toController, ∃ reason, r = .flowRemoved reason

theorem execute_iterate (n : Nat) (hn : s.toSwitch.length = n) (hp : NoPackets s) :
    (execute^[n] s).toSwitch = [] ∧ NoPackets (execute^[n] s) ∧
      (Settled (execute^[n] s) ↔ Settled s) := by
  induction n generalizing s with
  | zero => exact ⟨List.length_eq_zero_iff.1 hn, hp, Iff.rfl⟩
  | succ n ih =>
    rw [Function.iterate_succ_apply]
    cases hm : s.toSwitch with
    | nil => simp [hm] at hn
    | cons m ms =>
      have hlen : s.execute.toSwitch.length = n := by
        simp only [execute, hm]
        simpa [hm] using hn
      have hp' : NoPackets s.execute := by
        intro r hr
        simp only [execute, hm, List.mem_append, List.mem_map] at hr
        rcases hr with hr | ⟨reason, -, rfl⟩
        · exact hp r hr
        · exact ⟨reason, rfl⟩
      obtain ⟨h₁, h₂, h₃⟩ := ih hlen hp'
      exact ⟨h₁, h₂, h₃.trans settled_execute⟩

theorem receive_iterate (flood : Output) (v : Verdict τ) (n : Nat) (hn : s.toController.length = n)
    (hs : s.toSwitch = []) (hp : NoPackets s) :
    ((receive flood · v)^[n] s).toSwitch = [] ∧ ((receive flood · v)^[n] s).toController = [] ∧
      (Settled ((receive flood · v)^[n] s) ↔ Settled s) := by
  induction n generalizing s with
  | zero => exact ⟨hs, List.length_eq_zero_iff.1 hn, Iff.rfl⟩
  | succ n ih =>
    rw [Function.iterate_succ_apply]
    cases hc : s.toController with
    | nil => simp [hc] at hn
    | cons r rest =>
      obtain ⟨reason, rfl⟩ := hp r (by rw [hc]; exact List.mem_cons_self)
      have hsettled := settled_receive_flowRemoved flood hc v
      have hrest : (s.receive flood v).toController = rest ∧ (s.receive flood v).toSwitch = [] := by
        simp only [receive, hc, processFlowRemoved]
        split <;> exact ⟨rfl, hs⟩
      have hlen : (s.receive flood v).toController.length = n := by
        rw [hrest.1]
        simpa [hc] using hn
      have hp' : NoPackets (s.receive flood v) := by
        intro r hr
        rw [hrest.1] at hr
        exact hp r (by rw [hc]; exact List.mem_cons_of_mem _ hr)
      obtain ⟨h₁, h₂, h₃⟩ := ih hlen hrest.2 hp'
      exact ⟨h₁, h₂, h₃.trans hsettled⟩

/-! ## Runs -/

/-- When both channels are empty, the flow is active if and only if its rule is there. -/
def Agrees (s : FlowOnSwitch τ) : Prop :=
  s.toSwitch = [] → s.toController = [] →
    ((∃ f ∈ s.flow, f.state = .active) ↔ s.present = true)

theorem settled_iff_agrees (hs : s.toSwitch = []) (hc : s.toController = []) :
    Settled s ↔ s.Agrees := by
  simp [Settled, Agrees, hs, hc, outstanding, willHold, settle, reported, Stays, Expected]

theorem settled_iff_delivered (hp : NoPackets s) (v : Verdict τ) :
    Settled s ↔ (s.delivered flood v).Agrees := by
  obtain ⟨hs, hp', hiff⟩ := execute_iterate s.toSwitch.length rfl hp
  obtain ⟨hs', hc', hiff'⟩ := receive_iterate flood v s.executed.toController.length rfl
    hs hp'
  rw [delivered, ← settled_iff_agrees hs' hc', hiff']
  exact hiff.symm

/-- Runs from a new flow, whose steps all satisfy `ok`. -/
abbrev Run (flood : Output) (ok : FlowOnSwitch τ → Event τ → Prop) (cookie : Nat)
    (h : List (FlowOnSwitch τ × Event τ)) (s : FlowOnSwitch τ) : Prop :=
  Trace (fun s e => (.ok (s.step flood e) : Except Empty (FlowOnSwitch τ))) ok (init cookie) h s

/-- **Flow and switch agree** whenever both channels are empty, in every run of safe steps. And a
next step is safe exactly when they agree once what is then on its way is delivered, if that holds
no packet-in. -/
theorem flow_agrees {cookie : Nat} {h : List (FlowOnSwitch τ × Event τ)}
    (hr : Run flood (Safe flood) cookie h s) :
    s.Agrees ∧ ∀ e v, NoPackets (s.step flood e) →
      (((s.step flood e).delivered flood v).Agrees ↔ Safe flood s e) := by
  have hsettled : Settled s := by
    refine hr.invariant_state ?_ ?_
    · simp [init, Settled, outstanding, willHold, settle, reported]
    · intro s e s' h hok hstep
      cases hstep
      exact (settled_step_iff h e).2 hok
  refine ⟨fun hs hc => (settled_iff_agrees hs hc).1 hsettled hs hc, ?_⟩
  intro e v hp
  rw [← settled_iff_delivered hp v]
  exact settled_step_iff hsettled e

/-- A packet-in that finds no rule. -/
def tableMiss : PacketIn OfbType := ⟨Maple.frame 0x0800 5 3, .noMatch, 0, 1, none, 3, some 0⟩

/-- The packets of the flow are sent to port 1. -/
def toPort1 : Verdict OfbType := ⟨some { data := .unicast 1 }, false, ∅, 1, ∅, true⟩

/-- A flow is installed, then again by a commit of another packet; its rule is idle, and the flow
is installed once more. -/
theorem flow_agrees_reinstalled : ∃ h, ∃ s : FlowOnSwitch OfbType,
    Run (.port 0xfffffffb 0) (Safe (.port 0xfffffffb 0)) (cookieBase + 1) h s ∧
    s.toSwitch = [] ∧ s.toController = [] ∧ s.present = true ∧ s.Agrees := by
  obtain ⟨h, s, hr, hs, hc, hp⟩ := exists_trace
    (fun s e => (.ok (step (.port 0xfffffffb 0) s e) : Except Empty (FlowOnSwitch OfbType)))
    (Safe (.port 0xfffffffb 0)) (init (cookieBase + 1))
    [.packet tableMiss, .receive toPort1, .execute, .execute, .execute, .commit 2 ∅ true, .execute,
      .execute, .receive toPort1, .remove .idleTimeout, .receive toPort1, .packet tableMiss,
      .receive toPort1, .execute, .execute, .execute]
    (P := fun _ s => s.toSwitch.isEmpty ∧ s.toController.isEmpty ∧ s.present = true)
    (by decide +kernel)
  exact ⟨h, s, hr, List.isEmpty_iff.1 hs, List.isEmpty_iff.1 hc, hp, (flow_agrees hr).1⟩

/-- Two commits of other packets before the switch has reported the first removal: the flow is
evicted, its rule is there. -/
theorem flow_agrees_two_commits : ∃ h, ∃ s : FlowOnSwitch OfbType,
    Run (.port 0xfffffffb 0) (fun _ _ => True) (cookieBase + 1) h s ∧
    s.toSwitch = [] ∧ s.toController = [] ∧ s.present = true ∧
    s.flow.map (·.state) = some .evicted ∧ ¬ s.Agrees := by
  obtain ⟨h, s, hr, hs, hc, hp, hf⟩ := exists_trace
    (fun s e => (.ok (step (.port 0xfffffffb 0) s e) : Except Empty (FlowOnSwitch OfbType)))
    (fun _ _ => True) (init (cookieBase + 1))
    [.packet tableMiss, .receive toPort1, .execute, .execute, .execute, .commit 2 ∅ true,
      .commit 2 ∅ true, .execute, .execute, .execute, .execute, .receive toPort1, .receive toPort1]
    (P := fun _ s => s.toSwitch.isEmpty ∧ s.toController.isEmpty ∧ s.present = true ∧
      s.flow.map (·.state) = some .evicted)
    (by decide +kernel)
  refine ⟨h, s, hr, List.isEmpty_iff.1 hs, List.isEmpty_iff.1 hc, hp, hf, fun hagrees => ?_⟩
  obtain ⟨f, hflow, hactive⟩ :=
    (hagrees (List.isEmpty_iff.1 hs) (List.isEmpty_iff.1 hc)).2 hp
  rw [show s.flow = some f from hflow] at hf
  simp [hactive] at hf

end FlowOnSwitch

end Controller
