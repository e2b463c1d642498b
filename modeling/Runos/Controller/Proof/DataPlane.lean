import Runos.Controller.DataPlane
import Runos.Controller.Proof.Lifetime
import Runos.Maple.Proof.LoadsOnly

/-!
# The switch forwards as the policy decides

The trace tree records runs of the policy in force, and every live flow of it holds what the policy
decided there (`SwitchScope.Records`). A flow is sent to the switch with the match set of its path;
one that was never sent has priority 0 and matches everything, so the switch refuses it beside the
table-miss rule. Under a policy without tests the rule of a path matches no packet off the path, so
each rule of the table is faithful to the policy by itself (`Entry.Faithful`): timeouts, wake-ups,
failing commits and lost connections do not matter, and whichever rule applies to a packet does what
the policy decides for it (`applies_as_decided`). With tests that holds right after a commit for the
packets that are explored (`explored_as_decided`).
-/

namespace Maple

open Oxm

/-- A packet falls through to the flow that is found for it, if that has a rule. -/
theorem fallThrough_of_lookup {τ : Type} [OxmType τ] {F : Type} {q : Packet τ} {n : Node τ F}
    {alive hasRule : F → Bool} {f : F} (h : n.lookup alive q = .ok (some f))
    (hf : hasRule f = true) : n.fallThrough hasRule q = some f := by
  induction n with
  | unexplored => cases h
  | flow f' =>
    simp only [Node.lookup, Except.ok.injEq] at h
    split at h
    · cases h
      rw [Node.fallThrough, if_pos hf]
    · cases h
  | test t need pos neg ihp ihn =>
    simp only [Node.lookup] at h
    split at h
    · cases h
    · rename_i ht
      rw [Node.fallThrough, if_pos ht, ihp h, Option.some_or]
    · rename_i ht
      rw [Node.fallThrough, if_neg (by rw [ht]; decide), ihn h]
  | load t mask keys cases ih =>
    simp only [Node.lookup] at h
    split at h
    · cases h
    · rename_i f' hl
      split at h
      · rename_i hm
        simp only [Node.fallThrough, hl, if_pos hm, ih _ h]
      · cases h

end Maple

namespace Controller

open Oxm OxmType Maple Runs Priority

variable {τ : Type} [OxmType τ] {flood : Output} {policy : Policy τ Decision}

/-! ## Flows and rules -/

namespace FlowImpl

variable {f f' : FlowImpl τ} {d : Decision} {m : FieldSet τ}

/-- No rule was sent for the flow. -/
def Unplaced (f : FlowImpl τ) : Prop := f.priority = 0 ∧ f.matchSet = ∅

/-- Two states of a flow with the same decision and the same rule. -/
structure Kin (f f' : FlowImpl τ) : Prop where
  cookie : f'.cookie = f.cookie
  decision : f'.decision = f.decision
  mods : f'.mods = f.mods
  priority : f'.priority = f.priority
  matchSet : f'.matchSet = f.matchSet

theorem Kin.refl (f : FlowImpl τ) : Kin f f := ⟨rfl, rfl, rfl, rfl, rfl⟩

theorem kin_install (f : FlowImpl τ) (flood : Output) : Kin f (f.install flood).1 := by
  cases hp : f.pending with
  | false => rw [install_of_not_pending hp]; exact .refl f
  | true =>
    obtain ⟨g, hc, hpr, hm, hd, hmods, -, hi⟩ := install_of_pending flood hp
    rw [hi]
    cases g.messages flood <;> exact ⟨hc, hd, hmods, hpr, hm⟩

theorem kin_flow_removed (f : FlowImpl τ) (reason : RemovedReason) :
    Kin f (f.flow_removed reason) := by
  cases reason with
  | delete => simp only [flow_removed]; split <;> exact ⟨rfl, rfl, rfl, rfl, rfl⟩
  | _ => exact ⟨rfl, rfl, rfl, rfl, rfl⟩

theorem actions_eq (f : FlowImpl τ) (flood : Output) :
    f.actions flood = actionsOf flood f.decision f.mods := rfl

variable [DecidableEq τ]

/-- Sending the flow does no harm: where its rule matches, the policy decides as the flow. -/
def Placeable (policy : Policy τ Decision) (f : FlowImpl τ) : Prop :=
  policy.LoadsOnly → f.disposable = false →
    f.Unplaced ∨ policy.Answers f.matchSet f.decision f.mods

/-- The flow holds what the tree records for it. -/
structure Fits (policy : Policy τ Decision) (d : Decision) (m : FieldSet τ) (f : FlowImpl τ) :
    Prop where
  decision : f.decision = d
  mods : f.mods = m
  placeable : f.Placeable policy

theorem Kin.placeable (h : Kin f f') (hf : f.Placeable policy) : f'.Placeable policy := by
  intro hl hd
  have hd' : f.disposable = false := by rw [disposable, ← h.decision]; exact hd
  rw [Unplaced, h.priority, h.matchSet, h.decision, h.mods]
  exact hf hl hd'

theorem Kin.fits (h : Kin f f') (hf : f.Fits policy d m) : f'.Fits policy d m :=
  ⟨h.decision.trans hf.decision, h.mods.trans hf.mods, h.placeable hf.placeable⟩

end FlowImpl

variable [DecidableEq τ]

/-- The rule does what the policy decides for the packets that it matches. -/
def Entry.Faithful (flood : Output) (policy : Policy τ Decision) (e : Entry τ) : Prop :=
  e = SwitchScope.tableMiss ∨
    ∃ d m, policy.Answers e.matchSet d m ∧ actionsOf flood d m = some e.actions

namespace SwitchScope

variable {s s' : SwitchScope τ} {f f' : FlowImpl τ} {pi : PacketIn τ} {c : Nat} {d : Decision}
  {m : FieldSet τ}

/-! ## The table -/

/-- The scope is as it should be, and every rule of the table is faithful. -/
structure TableSound (flood : Output) (policy : Policy τ Decision) (s : SwitchScope τ) :
    Prop where
  inv : s.Inv
  table : policy.LoadsOnly → ∀ e ∈ s.table, e.Faithful flood policy

theorem Inv.tableMiss_mem (h : s.Inv) : tableMiss ∈ s.table := by
  have hm : tableMiss ∈ foreign s.table := by rw [h.base]; exact List.mem_singleton_self _
  exact (List.mem_filter.1 hm).1

/-- The rule of an unplaced flow is refused. -/
theorem exec_unplaced {table : List (Entry τ)} (hm : tableMiss ∈ table) (hf : f.Unplaced)
    (xid : Nat) (bufferId : Option Nat) (a : ActionList τ) :
    (Msg.add xid bufferId (f.entry a)).exec table = table := by
  simp only [Msg.exec]
  refine if_pos (List.any_eq_true.2 ⟨tableMiss, hm, ?_⟩)
  simp [FlowImpl.entry, hf.1, hf.2, tableMiss, overlaps]

theorem mem_exec_add {table : List (Entry τ)} {e e' : Entry τ} {xid : Nat} {bufferId : Option Nat}
    (h : e' ∈ (Msg.add xid bufferId e).exec table) : e' ∈ table ∨ e' = e := by
  simp only [Msg.exec] at h
  split at h
  · exact .inl h
  · simpa using h

theorem TableSound.setFlow (h : s.TableSound flood policy) (hc : missCookie < f.cookie) :
    (s.setFlow f).TableSound flood policy :=
  ⟨h.inv.setFlow hc, by rw [setFlow_table]; exact h.table⟩

/-- **Sending a flow** that may be sent keeps the table faithful. -/
theorem TableSound.installFlow (h : s.TableSound flood policy) (hc : missCookie < f.cookie)
    (hf : f.Placeable policy) : Keeps (TableSound flood policy) (s.installFlow flood f) := by
  have hinv := h.inv.installFlow flood hc
  have hkin := f.kin_install flood
  unfold SwitchScope.installFlow at hinv ⊢
  split
  · rename_i g ms hi
    rw [hi] at hinv hkin
    refine ⟨hinv, fun hl => ?_⟩
    have htable : ((s.setFlow g).send ms).table = ms.foldl Msg.exec s.table := by
      simp [SwitchScope.send]
    rw [htable]
    obtain ⟨-, ht⟩ | ⟨hp, a, xid, b, ha, ht⟩ := (FlowImpl.install_ok hi).2 s.table
    · rw [ht]; exact h.table hl
    · rw [ht]
      simp only [Bool.and_eq_true, Bool.not_eq_true'] at hp
      intro e he
      obtain hun | hans := hf hl hp.2
      · rw [exec_unplaced h.inv.tableMiss_mem hun] at he
        exact h.table hl e he
      · obtain he | rfl := mem_exec_add he
        · exact h.table hl e he
        · exact .inr ⟨f.decision, f.mods, hans, ha⟩
  · rename_i g e hi
    rw [hi] at hinv hkin
    exact ⟨hinv, by rw [setFlow_table]; exact h.table⟩

/-! ## What the tree records -/

/-- The flow `c` was made, and if it is alive it holds the decision `d` with modifications `m`. -/
def Records (policy : Policy τ Decision) (s : SwitchScope τ) (c : Nat) (d : Decision)
    (m : FieldSet τ) : Prop :=
  c < s.nextCookie ∧ ∀ f, s.flows c = some f → f.Fits policy d m

/-- The tree records runs of the policy. -/
def Recorded (policy : Policy τ Decision) (s : SwitchScope τ) : Prop :=
  Traced (fun _ => True) (s.Records policy) policy ∅ ∅ s.tree

/-- Nothing that is recorded is lost, and no decision changes. -/
structure Onward (policy : Policy τ Decision) (s s' : SwitchScope τ) : Prop where
  tree : s'.tree = s.tree
  next : s'.nextCookie = s.nextCookie
  fits : ∀ c d m, s.Records policy c d m → s'.Records policy c d m
  flows : ∀ c f', s'.flows c = some f' →
    ∃ f, s.flows c = some f ∧ f'.decision = f.decision ∧ f'.mods = f.mods

theorem Onward.refl (s : SwitchScope τ) : Onward policy s s :=
  ⟨rfl, rfl, fun _ _ _ h => h, fun _ f h => ⟨f, h, rfl, rfl⟩⟩

theorem Onward.trans {s'' : SwitchScope τ} (h : Onward policy s s') (h' : Onward policy s' s'') :
    Onward policy s s'' where
  tree := h'.tree.trans h.tree
  next := h'.next.trans h.next
  fits c d m hr := h'.fits c d m (h.fits c d m hr)
  flows c f'' hf := by
    obtain ⟨f', hf', hd', hm'⟩ := h'.flows c f'' hf
    obtain ⟨f, hf, hd, hm⟩ := h.flows c f' hf'
    exact ⟨f, hf, hd'.trans hd, hm'.trans hm⟩

theorem Recorded.onward (h : s.Recorded policy) (ho : Onward policy s s') :
    s'.Recorded policy := by
  unfold Recorded
  rw [ho.tree]
  exact h.mono ho.fits

/-- A flow of the scope is changed, to one that fits what is recorded. -/
theorem onward_of_update {g : FlowImpl τ} (hs : s.flows f.cookie = some g)
    (ht : s'.tree = s.tree) (hn : s'.nextCookie = s.nextCookie)
    (hflows : ∀ c, s'.flows c = if c = f.cookie then some f else s.flows c)
    (hd : f.decision = g.decision) (hm : f.mods = g.mods)
    (hp : g.Placeable policy → f.Placeable policy) : Onward policy s s' where
  tree := ht
  next := hn
  fits c d m hr := by
    refine ⟨by rw [hn]; exact hr.1, fun f' hf' => ?_⟩
    rw [hflows] at hf'
    split at hf'
    · rename_i hc
      cases hf'
      have hg := hr.2 g (by rw [hc]; exact hs)
      exact ⟨hd.trans hg.decision, hm.trans hg.mods, hp hg.placeable⟩
    · exact hr.2 f' hf'
  flows c f' hf' := by
    rw [hflows] at hf'
    split at hf'
    · rename_i hc
      cases hf'
      exact ⟨g, by rw [hc]; exact hs, hd, hm⟩
    · exact ⟨f', hf', rfl, rfl⟩

theorem installFlow_flows (flood : Output) (hc : missCookie < f.cookie) :
    Keeps (fun s' => s'.tree = s.tree ∧ s'.nextCookie = s.nextCookie ∧ ∃ f', FlowImpl.Kin f f' ∧
      ∀ c, s'.flows c = if c = f'.cookie then some f' else s.flows c) (s.installFlow flood f) := by
  have hkin := f.kin_install flood
  unfold SwitchScope.installFlow
  split
  · rename_i g ms hi
    rw [hi] at hkin
    refine ⟨setFlow_tree, setFlow_nextCookie, g, hkin, fun c => ?_⟩
    exact setFlow_flows (by rw [hkin.cookie]; exact hc) c
  · rename_i g e hi
    rw [hi] at hkin
    refine ⟨setFlow_tree, setFlow_nextCookie, g, hkin, fun c => ?_⟩
    exact setFlow_flows (by rw [hkin.cookie]; exact hc) c

/-- **Sending a flow of the scope**, with the rule it had or a new one. -/
theorem installFlow_sound (h : s.TableSound flood policy) {g : FlowImpl τ}
    (hs : s.flows f.cookie = some g) (hd : f.decision = g.decision) (hm : f.mods = g.mods)
    (hp : g.Placeable policy → f.Placeable policy) (hf : f.Placeable policy) :
    Keeps (fun s' => s'.TableSound flood policy ∧ Onward policy s s') (s.installFlow flood f) := by
  have hc : missCookie < f.cookie := by
    obtain ⟨hk, hlt⟩ := h.inv.keyed _ g hs
    exact hlt
  have htable := h.installFlow hc hf
  have hflows := installFlow_flows (s := s) flood hc
  have honward : ∀ s', (s'.tree = s.tree ∧ s'.nextCookie = s.nextCookie ∧ ∃ f', FlowImpl.Kin f f' ∧
      ∀ c, s'.flows c = if c = f'.cookie then some f' else s.flows c) → Onward policy s s' := by
    rintro s' ⟨ht, hn, f', hkin, hfl⟩
    exact onward_of_update (f := f') (by rw [hkin.cookie]; exact hs) ht hn hfl
      (hkin.decision.trans hd) (hkin.mods.trans hm) fun hg => hkin.placeable (hp hg)
  cases hr : s.installFlow flood f with
  | ok s' =>
    rw [hr] at htable hflows
    exact ⟨htable, honward s' hflows⟩
  | error e =>
    rw [hr] at htable hflows
    exact ⟨htable, honward e.2 hflows⟩

/-! ## A commit -/

/-- The rule stands for its flow: where it matches, the policy decides as the flow. -/
def Stands (policy : Policy τ Decision) (s : SwitchScope τ) (r : FieldSet τ × Nat) : Prop :=
  ∀ f, s.flows r.2 = some f → policy.LoadsOnly → policy.Answers r.1 f.decision f.mods

theorem Stands.onward {r : FieldSet τ × Nat} (h : s.Stands policy r) (ho : Onward policy s s') :
    s'.Stands policy r := by
  intro f' hf' hl
  obtain ⟨f, hf, hd, hm⟩ := ho.flows _ f' hf'
  rw [hd, hm]
  exact h f hf hl

theorem TableSound.install (h : s.TableSound flood policy) {r : FieldSet τ × Nat}
    (hr : s.Stands policy r) (priority : Nat) :
    Keeps (fun s' => s'.TableSound flood policy ∧ Onward policy s s')
      ((mapleBackend flood).install priority r.1 r.2 s) := by
  have hinv := h.inv.install flood priority r.1 r.2
  simp only [mapleBackend] at hinv ⊢
  split
  · rename_i hmiss
    have hp : (s.miss.placed priority r.1).pending = false := h.inv.missIdle
    have hk : (s.miss.placed priority r.1).cookie = missCookie := h.inv.missKey
    rw [if_pos hmiss] at hinv
    simp only [SwitchScope.installFlow, FlowImpl.install_of_not_pending hp, SwitchScope.setFlow,
      if_pos hk] at hinv ⊢
    exact ⟨⟨hinv, h.table⟩, rfl, rfl, fun _ _ _ hrec => hrec, fun _ f hf => ⟨f, hf, rfl, rfl⟩⟩
  · split
    · exact ⟨h, .refl s⟩
    · rename_i f hf
      have hcookie : f.cookie = r.2 := (h.inv.keyed _ f hf).1
      refine installFlow_sound (f := f.placed priority r.1) h
        (show s.flows f.cookie = some f by rw [hcookie]; exact hf) rfl rfl (fun _ hl _ => ?_)
        fun hl _ => ?_
      · exact .inr (hr f hf hl)
      · exact .inr (hr f hf hl)

theorem TableSound.installAll (h : s.TableSound flood policy) {rs : List (FieldSet τ × Nat)}
    (hrs : ∀ r ∈ rs, s.Stands policy r) (p : Nat) :
    Keeps (fun s' => s'.TableSound flood policy ∧ Onward policy s s')
      (Maple.installAll (mapleBackend flood) rs p s) := by
  induction rs generalizing s p with
  | nil => exact ⟨h, .refl s⟩
  | cons r rs ih =>
    have hi := h.install (hrs r List.mem_cons_self) p
    simp only [Maple.installAll]
    cases hr : (mapleBackend flood).install p r.1 r.2 s with
    | error e => rw [hr] at hi; exact hi
    | ok s1 =>
      rw [hr] at hi
      obtain ⟨h1, ho⟩ := hi
      have h2 := ih h1 (fun r' hr' => (hrs r' (List.mem_cons_of_mem _ hr')).onward ho)
        ((p + 1) % 2 ^ 16)
      exact keeps_mono (fun s' hs' => ⟨hs'.1, ho.trans hs'.2⟩) h2

/-- The rules of the compiled tree stand for their flows. -/
theorem Recorded.stands (hprop : policy.Propagates) (hinv : s.Inv) (h : s.Recorded policy)
    (enum : Enumeration τ) {r : FieldSet τ × Nat}
    (hr : r ∈ (enum.order s.tree).rules s.alive missCookie ∅) : s.Stands policy r := by
  intro f hf hl q d p hq he
  have hrec := h.of_mem_rules hprop hl hinv.wf ((enum.reorder s.tree).mem_rules hr) hq he
  have hfit := hrec.2 f hf
  exact ⟨hfit.decision.symm, hfit.mods.symm⟩

/-- **A commit** keeps the table faithful, also when it fails half way. -/
theorem TableSound.commit (hprop : policy.Propagates) (h : s.TableSound flood policy)
    (ht : s.Recorded policy) (enum : Enumeration τ) :
    Keeps (fun s' => s'.TableSound flood policy ∧ Onward policy s s') (s.commit flood enum) := by
  rw [SwitchScope.commit, commit_eq _ _ _ ((enum.reorder s.tree).wf h.inv.wf)]
  have hremove : ((mapleBackend flood).remove s).TableSound flood policy := by
    refine ⟨h.inv.remove, fun hl e he => h.table hl e ?_⟩
    exact (List.mem_filter.1 he).1
  have hsent : Onward policy s ((mapleBackend flood).remove s) :=
    ⟨rfl, rfl, fun _ _ _ hrec => hrec, fun _ f hf => ⟨f, hf, rfl, rfl⟩⟩
  refine keeps_mono (fun s' hs' => ⟨hs'.1, hsent.trans hs'.2⟩) (hremove.installAll ?_ 1)
  exact fun r hr => ht.stands hprop h.inv enum hr

/-! ## A packet-in -/

/-- The table is faithful, and the tree records runs of the policy. -/
def Sound (flood : Output) (policy : Policy τ Decision) (s : SwitchScope τ) : Prop :=
  s.TableSound flood policy ∧ s.Recorded policy

/-- What a call of `augment` records beside what the tree recorded. -/
theorem recorded_augment (hprop : policy.Propagates) (pi : PacketIn τ) (c : Nat)
    {R S : Nat → Decision → FieldSet τ → Prop}
    (hT : Traced (fun _ => True) R policy ∅ ∅ s.tree) (hR : ∀ c d m, R c d m → S c d m)
    (hnew : ∀ d p, policy.eval ⟨pi.pkt, ∅⟩ = (.ok d, p) → S c d p.mods) :
    Traced (fun _ => True) S policy ∅ ∅
        (augment Decision.disposable policy pi.pkt c s.tree).1 ∧
      (augment Decision.disposable policy pi.pkt c s.tree).2 =
        outcomeOf (policy.eval ⟨pi.pkt, ∅⟩) :=
  augmentFrom_spec Decision.disposable c hprop (p := ⟨⟨pi.pkt, ∅⟩, ∅⟩) (.refl pi.pkt)
    (fun _ _ => trivial) (hT.mono hR) hnew

/-- The relation `R` that the tree records before a flow is decided for a packet-in: what it says of
the flow is what the policy decides here. -/
structure Deciding (policy : Policy τ Decision) (s : SwitchScope τ) (pi : PacketIn τ)
    (f : FlowImpl τ) (R : Nat → Decision → FieldSet τ → Prop) : Prop where
  tree : Traced (fun _ => True) R policy ∅ ∅ s.tree
  records : ∀ c d m, R c d m → s.Records policy c d m
  flow : s.flows f.cookie = some f
  next : f.cookie < s.nextCookie
  same : ∀ d m, R f.cookie d m →
    ∀ d' p, policy.eval ⟨pi.pkt, ∅⟩ = (.ok d', p) → d' = d ∧ p.mods = m
  place : ∀ d p, policy.eval ⟨pi.pkt, ∅⟩ = (.ok d, p) → policy.LoadsOnly →
    d.disposable = false → f.Unplaced ∨ policy.Answers f.matchSet d p.mods

/-- A scope that went on with the new tree and changed the flow only. -/
theorem Deciding.recorded {R : Nat → Decision → FieldSet τ → Prop}
    (h : Deciding policy s pi f R) (hprop : policy.Propagates)
    (htree : s'.tree = (augment Decision.disposable policy pi.pkt f.cookie s.tree).1)
    (hn : s'.nextCookie = s.nextCookie)
    (hother : ∀ c, c ≠ f.cookie → ∀ g, s'.flows c = some g → s.flows c = some g)
    (hself : ∀ d m, (R f.cookie d m ∨ ∃ p, policy.eval ⟨pi.pkt, ∅⟩ = (.ok d, p) ∧ p.mods = m) →
      ∀ g, s'.flows f.cookie = some g → g.Fits policy d m) : s'.Recorded policy := by
  unfold Recorded
  rw [htree]
  refine (recorded_augment hprop pi f.cookie h.tree (fun c d m hr => ?_) fun d p he => ?_).1
  · refine ⟨by rw [hn]; exact (h.records c d m hr).1, fun g hg => ?_⟩
    by_cases hcf : c = f.cookie
    · subst hcf
      exact hself d m (.inl hr) g hg
    · exact (h.records c d m hr).2 g (hother c hcf g hg)
  · exact ⟨by rw [hn]; exact h.next, hself d p.mods (.inr ⟨p, he, rfl⟩)⟩

/-- The policy decides once. -/
theorem Deciding.unique {R : Nat → Decision → FieldSet τ → Prop}
    (h : Deciding policy s pi f R) {d' : Decision} {p' : ModTrackingPacket τ}
    (he : policy.eval ⟨pi.pkt, ∅⟩ = (.ok d', p'))
    (hr : R f.cookie d m ∨ ∃ p, policy.eval ⟨pi.pkt, ∅⟩ = (.ok d, p) ∧ p.mods = m) :
    d = d' ∧ m = p'.mods := by
  rcases hr with hr | ⟨p, hp, rfl⟩
  · obtain ⟨hd, hm⟩ := h.same d m hr d' p' he
    exact ⟨hd.symm, hm.symm⟩
  · rw [he] at hp
    cases hp
    exact ⟨rfl, rfl⟩

/-- The scope in which `augment` has decided the flow. -/
def decided (policy : Policy τ Decision) (s : SwitchScope τ) (pi : PacketIn τ) (f : FlowImpl τ)
    (d : Decision) : SwitchScope τ :=
  { s.setFlow { f with decision := d } with
    tree := (augment Decision.disposable policy pi.pkt f.cookie s.tree).1 }

theorem decideFlow_of_error {e : Exc} {m : FieldSet τ}
    (h : (augment Decision.disposable policy pi.pkt f.cookie s.tree).2 = ⟨none, m, some e⟩) :
    s.decideFlow flood policy pi f = .thrown e (s.decided policy pi f f.decision) := by
  unfold SwitchScope.decideFlow
  simp only [h]
  rfl

theorem decideFlow_of_ok
    (h : (augment Decision.disposable policy pi.pkt f.cookie s.tree).2 = ⟨some d, m, none⟩) :
    s.decideFlow flood policy pi f =
      if d.disposable then
        match (s.decided policy pi f d).installFlow flood
          (({ f with decision := d, mods := m } : FlowImpl τ).placed 1 m) with
        | .ok s => .returned { s with flows := Function.update s.flows f.cookie none }
        | .error (e, s) => .thrown e s
      else .committing ((s.decided policy pi f d).setFlow { f with decision := d, mods := m }) := by
  unfold SwitchScope.decideFlow
  simp only [h]
  rfl

section
variable {R : Nat → Decision → FieldSet τ → Prop} {g : FlowImpl τ} {p : ModTrackingPacket τ}
  (hf : Deciding policy s pi f R) (hprop : policy.Propagates)
  (he : policy.eval ⟨pi.pkt, ∅⟩ = (.ok d, p)) (hs' : s'.TableSound flood policy)
  (htree : s'.tree = (augment Decision.disposable policy pi.pkt f.cookie s.tree).1)
  (hn : s'.nextCookie = s.nextCookie)
  (hother : ∀ c, c ≠ f.cookie → ∀ g, s'.flows c = some g → s.flows c = some g)
  (hc : missCookie < f.cookie) (hg : g.cookie = f.cookie) (hd : g.decision = d)
  (hm : g.mods = p.mods)
include hf hprop he hs' htree hn hother hc hg hd hm

/-- A disposable decision is answered, and the flow forgotten. -/
theorem Deciding.answered (hdis : d.disposable = true) :
    Stage.Keeps (Sound flood policy)
      (match s'.installFlow flood g with
        | .ok s => .returned { s with flows := Function.update s.flows f.cookie none }
        | .error (e, s) => .thrown e s) := by
  have hplaceable : ∀ g' : FlowImpl τ, g'.decision = d → g'.Placeable policy := by
    intro g' hd' _ hno
    rw [FlowImpl.disposable, hd', hdis] at hno
    cases hno
  have hc' : missCookie < g.cookie := by rw [hg]; exact hc
  have hi := hs'.installFlow hc' (hplaceable g hd)
  have hfl := installFlow_flows (s := s') flood hc'
  cases hr : s'.installFlow flood g with
  | ok s1 =>
    rw [hr] at hi hfl
    obtain ⟨ht1, hn1, g1, hkin, hflows⟩ := hfl
    refine ⟨⟨Inv.erase hi.inv f.cookie, hi.table⟩, hf.recorded hprop (ht1.trans htree)
      (hn1.trans hn) (fun c hcf g' hg' => ?_) fun d' m' _ g' hg' => ?_⟩
    · obtain ⟨-, hg'⟩ := flows_of_erase hg'
      rw [hflows, if_neg (by rw [hkin.cookie, hg]; exact hcf)] at hg'
      exact hother c hcf g' hg'
    · exact absurd rfl (flows_of_erase hg').1
  | error e =>
    rw [hr] at hi hfl
    obtain ⟨ht1, hn1, g1, hkin, hflows⟩ := hfl
    refine ⟨hi, hf.recorded hprop (ht1.trans htree) (hn1.trans hn) (fun c hcf g' hg' => ?_)
      fun d' m' hr' g' hg' => ?_⟩
    · rw [hflows, if_neg (by rw [hkin.cookie, hg]; exact hcf)] at hg'
      exact hother c hcf g' hg'
    · rw [hflows, if_pos (by rw [hkin.cookie, hg])] at hg'
      cases hg'
      obtain ⟨rfl, rfl⟩ := hf.unique he hr'
      exact ⟨hkin.decision.trans hd, hkin.mods.trans hm, hplaceable g1 (hkin.decision.trans hd)⟩

/-- Another decision is kept in the flow. -/
theorem Deciding.kept (hdis : d.disposable = false) (hplace : g.matchSet = f.matchSet)
    (hprio : g.priority = f.priority) : Sound flood policy (s'.setFlow g) := by
  have hc' : missCookie < g.cookie := by rw [hg]; exact hc
  refine ⟨hs'.setFlow hc', hf.recorded hprop (setFlow_tree.trans htree) (setFlow_nextCookie.trans hn)
    (fun c hcf g' hg' => ?_) fun d' m' hr' g' hg' => ?_⟩
  · rw [setFlow_flows hc', if_neg (by rw [hg]; exact hcf)] at hg'
    exact hother c hcf g' hg'
  · rw [setFlow_flows hc', if_pos hg.symm] at hg'
    cases hg'
    obtain ⟨rfl, rfl⟩ := hf.unique he hr'
    refine ⟨hd, hm, fun hl _ => ?_⟩
    rw [FlowImpl.Unplaced, hprio, hplace, hd, hm]
    exact hf.place _ p he hl hdis

end

/-- **Deciding a flow**: a new one, or one that the tree records as the policy decides here. -/
theorem decideFlow_sound (hprop : policy.Propagates) (h : s.TableSound flood policy)
    {R : Nat → Decision → FieldSet τ → Prop} (hf : Deciding policy s pi f R) :
    (s.decideFlow flood policy pi f).Keeps (Sound flood policy) := by
  have hc : missCookie < f.cookie := (h.inv.keyed _ f hf.flow).2
  have hout := (recorded_augment (S := fun _ _ _ => True) hprop pi f.cookie hf.tree
    (fun _ _ _ _ => trivial) fun _ _ _ => trivial).2
  have htable : ∀ d, (s.decided policy pi f d).TableSound flood policy := fun d =>
    have hset := h.setFlow (f := { f with decision := d }) hc
    ⟨hset.inv.setTree (wf_augment _ _ _ _ h.inv.wf), hset.table⟩
  have hnext : ∀ d, (s.decided policy pi f d).nextCookie = s.nextCookie :=
    fun d => setFlow_nextCookie
  have hflows : ∀ d c, (s.decided policy pi f d).flows c =
      if c = f.cookie then some { f with decision := d } else s.flows c := fun d c =>
    setFlow_flows (f := { f with decision := d }) hc c
  have hother : ∀ d c, c ≠ f.cookie → ∀ g, (s.decided policy pi f d).flows c = some g →
      s.flows c = some g := fun d c hcf g hg => by rwa [hflows, if_neg hcf] at hg
  cases he : policy.eval ⟨pi.pkt, ∅⟩ with
  | mk result p =>
    rw [he] at hout
    cases result with
    | error e =>
      -- the policy threw: the flow is as it was
      rw [decideFlow_of_error hout]
      refine ⟨htable _, hf.recorded hprop rfl (hnext _) (hother _) fun d m hr g hg => ?_⟩
      rw [hflows, if_pos rfl] at hg
      cases hg
      obtain hr | ⟨p', hp', -⟩ := hr
      · exact (hf.records _ d m hr).2 f hf.flow
      · rw [he] at hp'
        cases hp'
    | ok d =>
      rw [decideFlow_of_ok hout]
      split
      · rename_i hdis
        exact hf.answered hprop he (htable d) rfl (hnext d) (hother d) hc rfl rfl rfl hdis
      · rename_i hdis
        exact hf.kept hprop he (htable d) rfl (hnext d) (hother d) hc rfl rfl rfl
          (eq_false_of_ne_true hdis) rfl rfl

/-- The flow of a packet-in, once it is pending. -/
theorem Sound.deciding (h : s.Sound flood policy) (hprop : policy.Propagates)
    (hf : s.flowFor pi = .ok (f, s')) :
    (s'.setFlow (f.packet_in pi)).TableSound flood policy ∧
      (∃ R, Deciding policy (s'.setFlow (f.packet_in pi)) pi (f.packet_in pi) R) ∧
      (f.state ≠ .egg → Onward policy s (s'.setFlow (f.packet_in pi)) ∧
        s.lookup pi.pkt = .ok (some f.cookie) ∧ s.flows f.cookie = some f) := by
  obtain ⟨hinv, hc⟩ := h.1.inv.flowFor hf
  have hc' : missCookie < (f.packet_in pi).cookie := hc
  obtain ⟨c, hl, hfc, -, rfl⟩ | ⟨rfl, rfl, -⟩ := flowFor_ok hf
  · -- the flow was found
    obtain rfl : f.cookie = c := (h.1.inv.keyed c f hfc).1
    have ho : Onward policy s' (s'.setFlow (f.packet_in pi)) :=
      onward_of_update (f := f.packet_in pi) (g := f) hfc setFlow_tree setFlow_nextCookie
        (setFlow_flows hc') rfl rfl id
    have hrecorded := h.2.onward ho
    have hflow : (s'.setFlow (f.packet_in pi)).flows f.cookie = some (f.packet_in pi) :=
      (setFlow_flows hc' _).trans (if_pos rfl)
    refine ⟨h.1.setFlow hc', ⟨_, hrecorded, fun _ _ _ hr => hr, hflow, ?_, ?_, ?_⟩,
      fun _ => ⟨ho, hl, hfc⟩⟩
    · obtain ⟨d, m, hr⟩ := h.2.of_holds (holds_of_lookup hl)
      exact (ho.fits _ d m hr).1
    · intro d m hr d' p he
      have hfit := hr.2 _ hflow
      have hfit' := (ho.fits _ d' p.mods (eval_of_lookup_ok hprop h.2 hl he)).2 _ hflow
      exact ⟨hfit'.decision.symm.trans hfit.decision, hfit'.mods.symm.trans hfit.mods⟩
    · intro d p he hlo hdis
      have hfit := (eval_of_lookup_ok hprop h.2 hl he).2 f hfc
      rw [← hfit.mods, ← hfit.decision]
      rw [← hfit.decision] at hdis
      exact hfit.placeable hlo hdis
  · -- a new flow, which the tree does not hold
    have htable : ∀ {s₁ : SwitchScope τ}, s₁.Inv → s₁.table = (s.setFlow { cookie :=
        s.nextCookie }).table → s₁.TableSound flood policy := fun hi ht =>
      ⟨hi, fun hl => by rw [ht, setFlow_table]; exact h.1.table hl⟩
    have hflows : ∀ c, c ≠ s.nextCookie → ∀ g, (({ s.setFlow { cookie := s.nextCookie } with
        nextCookie := s.nextCookie + 1 } : SwitchScope τ).setFlow
          (FlowImpl.packet_in { cookie := s.nextCookie } pi)).flows c = some g →
        s.flows c = some g := by
      intro c hcn g hg
      have hg' := (((setFlow_flows hc' c).trans (if_neg hcn)).symm.trans hg)
      exact ((setFlow_flows hc c).trans (if_neg hcn)).symm.trans hg'
    refine ⟨(htable hinv rfl).setFlow hc', ⟨s.Records policy, ?_, fun c d m hr => ?_, ?_, ?_,
      fun d m hr => ?_, fun d p _ _ _ => .inl ⟨rfl, rfl⟩⟩, fun hne => absurd rfl hne⟩
    · rw [setFlow_tree]
      show Traced _ _ _ _ _ (s.setFlow _).tree
      rw [setFlow_tree]
      exact h.2
    · refine ⟨?_, fun g hg => hr.2 g (hflows c (Nat.ne_of_lt hr.1) g hg)⟩
      rw [setFlow_nextCookie]
      exact Nat.lt_succ_of_lt hr.1
    · exact (setFlow_flows hc' _).trans (if_pos rfl)
    · rw [setFlow_nextCookie]
      exact Nat.lt_succ_self _
    · exact absurd hr.1 (Nat.lt_irrefl _)

/-- **Processing a packet-in** keeps the scope sound, up to the commit. -/
theorem Sound.processUntilCommit (h : s.Sound flood policy) (hprop : policy.Propagates)
    (pi : PacketIn τ) : (s.processUntilCommit flood policy pi).Keeps (Sound flood policy) := by
  unfold SwitchScope.processUntilCommit
  split
  · exact h
  · rename_i f s₁ hf
    obtain ⟨htable, ⟨R, hR⟩, hold⟩ := h.deciding hprop hf
    -- a flow that was found is sent as it is recorded
    have hwake : f.state ≠ .egg → Keeps (Sound flood policy)
        ((s₁.setFlow (f.packet_in pi)).installFlow flood (f.packet_in pi)) := by
      intro hne
      obtain ⟨ho, hl, hfc⟩ := hold hne
      obtain ⟨d, m, hr⟩ := h.2.of_holds (holds_of_lookup hl)
      refine keeps_mono (fun s' hs' => ⟨hs'.1, (h.2.onward ho).onward hs'.2⟩)
        (installFlow_sound htable hR.flow rfl rfl id ?_)
      exact ((ho.fits _ d m hr).2 _ hR.flow).placeable
    dsimp only
    split
    · exact decideFlow_sound hprop htable hR
    · exact decideFlow_sound hprop htable hR
    · rename_i hs
      exact Stage.keeps_ofInstall (hwake (by rw [show f.state = _ from hs]; decide))
    · rename_i hs
      obtain ⟨ho, -, -⟩ := hold (by rw [show f.state = _ from hs]; decide)
      exact ⟨htable, h.2.onward ho⟩
    · rename_i hs
      have hne : f.state ≠ .egg := by rw [show f.state = _ from hs]; decide
      obtain ⟨ho, hl, hfc⟩ := hold hne
      split
      · exact Stage.keeps_ofInstall (hwake hne)
      · have hc := (htable.inv.keyed _ _ hR.flow).2
        cases he : policy.eval ⟨pi.pkt, ∅⟩ with
        | mk result p =>
          cases result with
          | error e => exact ⟨htable, h.2.onward ho⟩
          | ok d =>
            -- the policy decides once more what it decided
            have hfit := (eval_of_lookup_ok hprop h.2 hl he).2 f hfc
            refine ⟨htable.setFlow hc, (h.2.onward ho).onward (onward_of_update
              (f := { f.packet_in pi with decision := d }) hR.flow setFlow_tree
              setFlow_nextCookie (setFlow_flows hc) hfit.decision.symm rfl fun hg => ?_)⟩
            intro hlo hdis
            have hd : f.decision = d := hfit.decision
            rw [← hd] at hdis ⊢
            exact hg hlo hdis

theorem Sound.processPacketIn (h : s.Sound flood policy) (hprop : policy.Propagates)
    (pi : PacketIn τ) (enum : Enumeration τ) :
    (s.processPacketIn flood policy pi enum).Sound flood policy := by
  have hstage := h.processUntilCommit hprop pi
  unfold SwitchScope.processPacketIn
  split
  · rename_i hs; rw [hs] at hstage; exact hstage
  · rename_i hs; rw [hs] at hstage; exact hstage
  · rename_i s1 hs
    rw [hs] at hstage
    have hcommit := hstage.1.commit hprop hstage.2 enum
    split
    · rename_i hr
      rw [hr] at hcommit
      exact ⟨hcommit.1, hstage.2.onward hcommit.2⟩
    · rename_i hr
      rw [hr] at hcommit
      exact ⟨hcommit.1, hstage.2.onward hcommit.2⟩

theorem Sound.processFlowRemoved (h : s.Sound flood policy) (c : Nat) (reason : RemovedReason) :
    (s.processFlowRemoved c reason).Sound flood policy := by
  unfold SwitchScope.processFlowRemoved
  split
  · exact h
  · rename_i f hf
    obtain ⟨rfl, hc⟩ := h.1.inv.keyed _ f hf
    have hkin := f.kin_flow_removed reason
    dsimp only
    split
    · refine ⟨⟨h.1.inv.erase f.cookie, h.1.table⟩, h.2.onward ⟨rfl, rfl, fun c d m hr => ?_,
        fun c g hg => ?_⟩⟩
      · exact ⟨hr.1, fun g hg => hr.2 g (flows_of_erase hg).2⟩
      · exact ⟨g, (flows_of_erase hg).2, rfl, rfl⟩
    · have hc' : missCookie < (f.flow_removed reason).cookie := by rw [hkin.cookie]; exact hc
      refine ⟨h.1.setFlow hc', h.2.onward (onward_of_update (g := f) ?_ setFlow_tree
        setFlow_nextCookie (setFlow_flows hc') hkin.decision hkin.mods hkin.placeable)⟩
      rw [hkin.cookie]
      exact hf

/-- An empty tree records runs of every policy. -/
theorem recorded_unexplored (h : s.tree = .unexplored) : s.Recorded policy := by
  unfold Recorded
  rw [h]
  exact traced_unexplored _ _ _

theorem tableSound_of_miss (h : s.Inv) (ht : ∀ e ∈ s.table, e = tableMiss) :
    s.TableSound flood policy := ⟨h, fun _ e he => .inl (ht e he)⟩

end SwitchScope

/-! ## Runs -/

namespace DataPlane

open SwitchScope

variable {s s' : DataPlane τ} {q : Packet τ}

/-- The tree records runs of the policy in force, and on a live connection the table is faithful
to it. -/
structure Sound (flood : Output) (s : DataPlane τ) : Prop where
  inv : s.scope.Inv
  recorded : s.scope.Recorded s.policy
  table : s.connected = true → s.scope.TableSound flood s.policy
  propagates : s.policy.Propagates

theorem Sound.init (flood : Output) (h : policy.Propagates) :
    (DataPlane.init policy : DataPlane τ).Sound flood where
  inv := .init
  recorded := recorded_unexplored rfl
  table _ := tableSound_of_miss .init fun _ he => List.mem_singleton.1 he
  propagates := h

/-- **Every event** keeps the data plane sound. -/
theorem Sound.step (h : s.Sound flood) (e : PlaneEvent τ)
    (he : ∀ p ∈ PlaneEvent.policies e, p.Propagates) : (s.step flood e).Sound flood := by
  cases e with
  | packetIn pi enum =>
    simp only [DataPlane.step]
    split
    · rename_i hc
      have hs : s.scope.Sound flood s.policy := ⟨h.table hc, h.recorded⟩
      have hs' := hs.processPacketIn h.propagates pi enum
      exact ⟨hs'.1.inv, hs'.2, fun _ => hs'.1, h.propagates⟩
    · exact h
  | flowRemoved cookie reason =>
    simp only [DataPlane.step]
    split
    · rename_i hc
      have hs : s.scope.Sound flood s.policy := ⟨h.table hc, h.recorded⟩
      have hs' := hs.processFlowRemoved cookie reason
      exact ⟨hs'.1.inv, hs'.2, fun _ => hs'.1, h.propagates⟩
    · exact h
  | timeout gone =>
    have hinv : ({ s.scope with
        table := s.scope.table.filter fun e => !(e.expires && gone e) } : SwitchScope τ).Inv :=
      ⟨h.inv.wf, h.inv.keyed, h.inv.next, h.inv.missKey, h.inv.missIdle,
        foreign_filter h.inv.base rfl⟩
    refine ⟨hinv, h.recorded, fun hc => ⟨hinv, fun hl e he => ?_⟩, h.propagates⟩
    exact (h.table hc).table hl e (List.mem_filter.1 he).1
  | invalidateTraceTree policy =>
    have hprop := he policy (List.mem_singleton_self _)
    simp only [DataPlane.step]
    cases hc : s.connected with
    | true =>
      refine ⟨h.inv.invalidateTraceTree, recorded_unexplored rfl, fun _ => ?_, hprop⟩
      -- the Maple rules are deleted, and beside them there is the table-miss rule
      refine tableSound_of_miss h.inv.invalidateTraceTree fun e' he' => ?_
      have hmem : e' ∈ foreign s.scope.table := he'
      rw [h.inv.base] at hmem
      exact List.mem_singleton.1 hmem
    | false =>
      exact ⟨h.inv.setTree trivial, recorded_unexplored rfl, fun hc' => absurd hc' (by simp),
        hprop⟩
  | closed policy =>
    exact ⟨h.inv.closed, recorded_unexplored rfl, fun hc => absurd hc (by simp [DataPlane.step]),
      he policy (List.mem_singleton_self _)⟩
  | featuresReply =>
    exact ⟨h.inv.reinit, h.recorded, fun _ =>
      tableSound_of_miss h.inv.reinit fun _ he => List.mem_singleton.1 he, h.propagates⟩

theorem Run.sound {h : List (DataPlane τ × PlaneEvent τ)} (hrun : Run flood policy h s)
    (hprop : policy.Propagates) : s.Sound flood := by
  refine hrun.invariant_state (I := fun s => s.Sound flood) (.init flood hprop) ?_
  intro s e s' hs he hstep
  cases hstep
  exact hs.step e he

theorem loadsOnly_forwardByPort : forwardByPort.LoadsOnly := fun r => by
  cases r <;> trivial

theorem propagates_forwardByPort : forwardByPort.Propagates :=
  ⟨fun _ => rfl, fun _ => trivial⟩

/-- **Explored packets**: right after a commit of any run, the rule that applies to a packet for
which the trace tree has an active flow does what the policy in force decides for the packet. -/
theorem explored_as_decided (flood : Output) (policy : Policy τ Decision)
    (hprop : policy.Propagates) {h : List (DataPlane τ × PlaneEvent τ)}
    (hrun : Run flood policy h s) (hc : s.connected = true) (pi : PacketIn τ) (enum : Enumeration τ)
    {s₁ s₂ : SwitchScope τ}
    (hpi : s.scope.processUntilCommit flood s.policy pi = .committing s₁)
    (hcommit : s₁.commit flood enum = .ok s₂)
    (hcount : ∀ rules, (enum.order s₁.tree).commit recorder s₁.alive missCookie [] = .ok rules →
      rules.length ≤ 65535) (q : Packet τ) {c : Nat} {f : FlowImpl τ}
    (hl : s₂.lookup q = .ok (some c)) (hf : s₂.flows c = some f) (hactive : f.state = .active)
    (hd : f.disposable = false) :
    ∃ e, (∀ e', IsTop Entry.priority (·.matchSet.admits q) s₂.table e' ↔ e' = e) ∧
      ∀ d p, s.policy.eval ⟨q, ∅⟩ = (.ok d, p) → actionsOf flood d p.mods = some e.actions := by
  have hs := hrun.sound hprop
  have hstage := SwitchScope.Sound.processUntilCommit ⟨hs.table hc, hs.recorded⟩ hs.propagates pi
  rw [hpi] at hstage
  obtain ⟨htable, hrec⟩ := hstage
  have hlen : ((enum.order s₁.tree).rules s₁.alive missCookie ∅).length ≤ 65535 := by
    rw [← numbered_length _ 1]
    refine hcount _ ?_
    rw [commit_eq _ _ _ ((enum.reorder s₁.tree).wf htable.inv.wf), installAll_recorder]
    rfl
  obtain ⟨hframe, -, -⟩ := commit_table htable.inv hcommit hlen
  obtain ⟨e, htop, hfall⟩ := commit_top htable.inv hcommit hlen q
  -- the flow that is found has a rule, and the packet falls through to nothing before it
  have hrule : s₁.hasRule c = true := by
    rw [← hframe.hasRule, SwitchScope.hasRule, hf, Option.any_some, hd, FlowImpl.pending, hactive]
    rfl
  rw [hframe.lookup] at hl
  rw [fallThrough_of_lookup hl hrule] at hfall
  obtain ⟨f₁, a, hf₁, ha, hea⟩ := hfall
  refine ⟨e, htop, fun d p he => ?_⟩
  have hfit := (eval_of_lookup_ok hs.propagates hrec hl he).2 f₁ hf₁
  rw [hea, ← ha, FlowImpl.actions_eq, hfit.decision, hfit.mods]

theorem propagates_forwardAll : forwardAll.Propagates :=
  ⟨fun _ => rfl, fun _ => trivial⟩

/-- The first packet of `forwardAll` is explored, and it tests. -/
theorem explored_as_decided_first :
    ∃ s₁ s₂ : SwitchScope OfbType,
      (SwitchScope.init : SwitchScope OfbType).processUntilCommit (.port 0xfffffffb 0) forwardAll
        (firstPacketIn (frame 0x0806 5 3)) = .committing s₁ ∧
      s₁.commit (.port 0xfffffffb 0) inOrder = .ok s₂ ∧
      ∃ e, (∀ e', IsTop Entry.priority (·.matchSet.admits (frame 0x0806 7 4)) s₂.table e' ↔
          e' = e) ∧
        ∀ d p, forwardAll.eval ⟨frame 0x0806 7 4, ∅⟩ = (.ok d, p) →
          actionsOf (.port 0xfffffffb 0) d p.mods = some e.actions := by
  refine ⟨_, _, rfl, rfl, ?_⟩
  refine explored_as_decided (s := .init forwardAll) (.port 0xfffffffb 0) forwardAll
    propagates_forwardAll .nil rfl (firstPacketIn (frame 0x0806 5 3)) inOrder rfl rfl
    (fun rules hr => ?_) (frame 0x0806 7 4) (c := missCookie + 1) rfl rfl rfl rfl
  cases hr
  decide

end DataPlane

end Controller
