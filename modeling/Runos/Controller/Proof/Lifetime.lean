import Runos.Controller.Lifetime
import Runos.Controller.Proof.Unexplored
import Runos.Maple.Proof.Leaves

/-!
# A scope through failures

Every event of a scope's life keeps `SwitchScope.Inv`, and a cookie that has not been given out
names no flow (`Life.registered`). From the flow that `flowFor` yields on, processing a packet-in
registers nothing more (`Registered.processUntilCommit`, `Registered.commit`), and with a flow that
was found it does not change what the tree holds. A packet-in whose processing raises therefore
leaves the scope as it was exactly when no flow was made for it (`failing_unchanged_iff`): the new
flow of a policy that fails stays in the map.
-/

namespace Controller

open Oxm OxmType Maple Runs

variable {τ : Type} [OxmType τ] {flood : Output} {policy : Policy τ Decision}
  {s s' s₁ : SwitchScope τ} {f : FlowImpl τ} {pi : PacketIn τ}
  {enum : SwitchScope.Enumeration τ}

theorem FlowImpl.install_cookie (f : FlowImpl τ) (flood : Output) :
    (f.install flood).1.cookie = f.cookie := by
  cases hp : f.pending with
  | false => rw [install_of_not_pending hp]
  | true =>
    obtain ⟨g, hc, -, -, -, -, -, hi⟩ := install_of_pending flood hp
    rw [hi, ← hc]
    cases g.messages flood <;> rfl

namespace SwitchScope

/-! ## What is registered -/

/-- The same cookies name flows. -/
structure SameKeys (s s' : SwitchScope τ) : Prop where
  next : s'.nextCookie = s.nextCookie
  flows : ∀ c, (s'.flows c).isSome = (s.flows c).isSome

theorem SameKeys.refl (s : SwitchScope τ) : SameKeys s s := ⟨rfl, fun _ => rfl⟩

theorem SameKeys.trans {s s' s'' : SwitchScope τ} (h : SameKeys s s') (h' : SameKeys s' s'') :
    SameKeys s s'' := ⟨h'.next.trans h.next, fun c => (h'.flows c).trans (h.flows c)⟩

theorem SameKeys.lookup (h : SameKeys s s') (ht : s'.tree = s.tree) (q : Packet τ) :
    s'.lookup q = s.lookup q := by
  have ha : s'.alive = s.alive := funext h.flows
  unfold SwitchScope.lookup
  rw [ht, ha]

theorem SameKeys.none (h : SameKeys s s') {c : Nat} (hc : s.flows c = none) :
    s'.flows c = none := by
  have := h.flows c
  rw [hc] at this
  simpa using this

/-- A flow of the scope is changed. -/
theorem sameKeys_setFlow (hf : f.cookie = missCookie ∨ (s.flows f.cookie).isSome) :
    SameKeys s (s.setFlow f) := by
  refine ⟨setFlow_nextCookie, fun c => ?_⟩
  unfold SwitchScope.setFlow
  split
  · rfl
  · rename_i hmiss
    dsimp only
    rw [Function.update_apply]
    split
    · rename_i hc
      rw [hc, hf.resolve_left hmiss]
      rfl
    · rfl

theorem keeps_mono {P Q : SwitchScope τ → Prop}
    {r : Except (Exc × SwitchScope τ) (SwitchScope τ)} (hPQ : ∀ s, P s → Q s) (h : Keeps P r) :
    Keeps Q r := by
  cases r with
  | ok s => exact hPQ s h
  | error e => exact hPQ e.2 h

/-- What installing keeps: the tree, and the cookies that name flows. -/
def Installed (s s' : SwitchScope τ) : Prop := SameKeys s s' ∧ s'.tree = s.tree

theorem Installed.trans {s s' s'' : SwitchScope τ} (h : Installed s s') (h' : Installed s' s'') :
    Installed s s'' := ⟨h.1.trans h'.1, h'.2.trans h.2⟩

theorem installed_setFlow (hf : f.cookie = missCookie ∨ (s.flows f.cookie).isSome) :
    Installed s (s.setFlow f) := ⟨sameKeys_setFlow hf, setFlow_tree⟩

/-! ## Flows and stages -/

/-- What `flowFor` yields: the flow that was found, unless it is expired, or a new one. -/
theorem flowFor_ok (h : s.flowFor pi = .ok (f, s₁)) :
    (∃ c, s.lookup pi.pkt = .ok (some c) ∧ s.flows c = some f ∧ f.state ≠ .expired ∧ s₁ = s) ∨
      f = { cookie := s.nextCookie } ∧
        s₁ = { s.setFlow f with nextCookie := s.nextCookie + 1 } ∧
        ∃ found, s.lookup pi.pkt = .ok found ∧
          ∀ c g, found = some c → s.flows c = some g → g.state = .expired := by
  unfold flowFor at h
  cases hl : s.lookup pi.pkt with
  | error e => rw [hl] at h; cases h
  | ok found =>
    rw [hl] at h
    simp only [bind, Except.bind] at h
    split at h
    · rename_i g hg
      obtain ⟨c, rfl, hc⟩ := Option.bind_eq_some_iff.1 hg
      split at h
      · rename_i hstate
        cases h
        exact .inl ⟨c, rfl, hc, hstate, rfl⟩
      · rename_i hstate
        cases h
        refine .inr ⟨rfl, rfl, _, rfl, fun c' g' hc' hg' => ?_⟩
        cases hc'
        rw [hc] at hg'
        cases hg'
        exact Classical.not_not.1 hstate
    · rename_i hg
      cases h
      refine .inr ⟨rfl, rfl, _, rfl, fun c g hc hgc => ?_⟩
      subst hc
      rw [Option.bind_some, hgc] at hg
      cases hg

theorem flowFor_error {e : Exc} (h : s.flowFor pi = .error e) : s.lookup pi.pkt = .error e := by
  unfold flowFor at h
  cases hl : s.lookup pi.pkt with
  | error e' => rw [hl] at h; cases h; rfl
  | ok found =>
    rw [hl] at h
    simp only [bind, Except.bind] at h
    split at h
    · split at h <;> cases h
    · cases h

/-- How the processing leaves the scope `s`: a flow may be erased when it returns, otherwise the
same cookies name flows; the tree is `tree`. -/
def Stage.Leaves (s : SwitchScope τ) (tree : Node τ Nat) : Stage τ → Prop
  | .returned s' => s'.nextCookie = s.nextCookie ∧ ∀ c, s.flows c = none → s'.flows c = none
  | .thrown _ s' => SameKeys s s' ∧ s'.tree = tree
  | .committing s' => SameKeys s s' ∧ s'.tree = tree

theorem Stage.leaves_ofInstall {r : Except (Exc × SwitchScope τ) (SwitchScope τ)}
    (h : SwitchScope.Keeps (Installed s) r) : (Stage.ofInstall r).Leaves s s.tree := by
  cases r with
  | ok s' => exact ⟨h.1.next, fun _ => h.1.none⟩
  | error e => exact h

theorem Stage.Leaves.of_sameKeys {tree : Node τ Nat} {stage : Stage τ} (hk : SameKeys s s₁)
    (h : stage.Leaves s₁ tree) : stage.Leaves s tree := by
  cases stage with
  | returned s' => exact ⟨h.1.trans hk.next, fun c hc => h.2 c (hk.none hc)⟩
  | thrown e s' => exact ⟨hk.trans h.1, h.2⟩
  | committing s' => exact ⟨hk.trans h.1, h.2⟩

/-! ## Installing -/

variable [DecidableEq τ]

theorem installed_installFlow (flood : Output)
    (hf : f.cookie = missCookie ∨ (s.flows f.cookie).isSome) :
    Keeps (Installed s) (s.installFlow flood f) := by
  have hc := f.install_cookie flood
  unfold SwitchScope.installFlow
  split
  · rename_i f' ms hi
    rw [hi] at hc
    have hset : Installed s (s.setFlow f') := installed_setFlow (by rw [hc]; exact hf)
    exact ⟨⟨hset.1.next, hset.1.flows⟩, hset.2⟩
  · rename_i f' e hi
    rw [hi] at hc
    exact installed_setFlow (by rw [hc]; exact hf)

theorem installed_install (h : s.Inv) (flood : Output) (priority : Nat) (matchSet : FieldSet τ)
    (cookie : Nat) :
    Keeps (Installed s) ((mapleBackend flood).install priority matchSet cookie s) := by
  simp only [mapleBackend]
  split
  · exact installed_installFlow flood (.inl h.missKey)
  · split
    · exact ⟨.refl s, rfl⟩
    · rename_i f hf
      have hk : (f.placed priority matchSet).cookie = cookie := (h.keyed _ f hf).1
      exact installed_installFlow flood (.inr (by rw [hk, hf]; rfl))

theorem installed_installAll (h : s.Inv) (rs : List (FieldSet τ × Nat)) (p : Nat) :
    Keeps (Installed s) (installAll (mapleBackend flood) rs p s) := by
  induction rs generalizing s p with
  | nil => exact ⟨.refl s, rfl⟩
  | cons r rs ih =>
    have hi := installed_install h flood p r.1 r.2
    have hinv := h.install flood p r.1 r.2
    simp only [Maple.installAll]
    cases hr : (mapleBackend flood).install p r.1 r.2 s with
    | error e => rw [hr] at hi; exact hi
    | ok s₁ =>
      rw [hr] at hi hinv
      exact keeps_mono (fun _ hrest => hi.trans hrest) (ih hinv _)

/-- **A commit** registers nothing, whether it returns or raises. -/
theorem installed_commit (h : s.Inv) (flood : Output) (enum : Enumeration τ) :
    Keeps (Installed s) (s.commit flood enum) := by
  rw [SwitchScope.commit, commit_eq _ _ _ ((enum.reorder s.tree).wf h.wf)]
  exact keeps_mono (fun _ hi => ⟨⟨hi.1.next, hi.1.flows⟩, hi.2⟩)
    (installed_installAll h.remove _ _)

/-! ## Processing a packet-in -/

variable (flood policy pi) in
theorem leaves_decideFlow (hs : (s.flows f.cookie).isSome) :
    (s.decideFlow flood policy pi f).Leaves s
      (augment Decision.disposable policy pi.pkt f.cookie s.tree).1 := by
  unfold decideFlow
  generalize augment Decision.disposable policy pi.pkt f.cookie s.tree = r
  have h1 : SameKeys s { s.setFlow { f with decision := r.2.decision.getD f.decision } with
      tree := r.1 } :=
    let h := sameKeys_setFlow (f := { f with decision := r.2.decision.getD f.decision }) (.inr hs)
    ⟨h.next, h.flows⟩
  dsimp only
  split
  · exact ⟨h1, rfl⟩
  · have hs1 := (h1.flows f.cookie).trans hs
    split
    · have h2 := installed_installFlow flood (f := { f with
        decision := r.2.decision.getD f.decision
        mods := r.2.mods
        priority := 1
        matchSet := r.2.mods }) (.inr hs1)
      split
      · rename_i s2 hi
        have h3 : Keeps (Installed _) (Except.ok s2) := hi ▸ h2
        have h4 := h1.trans h3.1
        refine ⟨h4.next, fun c hc => ?_⟩
        dsimp only
        rw [Function.update_apply]
        split
        · rfl
        · exact h4.none hc
      · rename_i e s2 hi
        have h3 : Keeps (Installed _) (Except.error (e, s2)) := hi ▸ h2
        exact ⟨h1.trans h3.1, h3.2⟩
    · have h2 := sameKeys_setFlow (f := { f with
        decision := r.2.decision.getD f.decision, mods := r.2.mods }) (.inr hs1)
      exact ⟨h1.trans h2, setFlow_tree⟩

variable (flood policy) in
/-- **Processing a packet-in** once its flow is known: nothing more is registered, and only a
decision changes the tree. -/
theorem leaves_processUntilCommit (hf : s.flowFor pi = .ok (f, s₁))
    (hs : (s₁.flows f.cookie).isSome) :
    ∃ tree, (tree = s₁.tree ∨
        tree = (augment Decision.disposable policy pi.pkt f.cookie s₁.tree).1) ∧
      (s.processUntilCommit flood policy pi).Leaves s₁ tree := by
  unfold processUntilCommit
  rw [hf]
  have hset : Installed s₁ (s₁.setFlow (f.packet_in pi)) :=
    installed_setFlow (f := f.packet_in pi) (.inr hs)
  have hs2 : ((s₁.setFlow (f.packet_in pi)).flows (f.packet_in pi).cookie).isSome :=
    (hset.1.flows _).trans hs
  have hwake := Stage.leaves_ofInstall (installed_installFlow flood (.inr hs2))
  rw [hset.2] at hwake
  have hdecide := leaves_decideFlow flood policy pi hs2
  rw [hset.2] at hdecide
  dsimp only
  split
  · exact ⟨_, .inr rfl, hdecide.of_sameKeys hset.1⟩
  · exact ⟨_, .inr rfl, hdecide.of_sameKeys hset.1⟩
  · exact ⟨_, .inl rfl, hwake.of_sameKeys hset.1⟩
  · exact ⟨_, .inl rfl, hset.1.next, fun _ => hset.1.none⟩
  · split
    · exact ⟨_, .inl rfl, hwake.of_sameKeys hset.1⟩
    · split
      · rename_i d p' he
        have h2 := hset.1.trans (sameKeys_setFlow (f := { f.packet_in pi with decision := d })
          (.inr hs2))
        exact ⟨_, .inl rfl, h2.next, fun _ => h2.none⟩
      · exact ⟨_, .inl rfl, hset⟩

section
variable (hinv : s.Inv) (hf : s.flowFor pi = .ok (f, s₁)) (hs : (s₁.flows f.cookie).isSome)

variable (flood policy enum) in
include hinv hf hs in
/-- What processing a packet-in registers. -/
theorem processPacketIn_keys :
    (s.processPacketIn flood policy pi enum).nextCookie = s₁.nextCookie ∧
      ∀ c, s₁.flows c = none → (s.processPacketIn flood policy pi enum).flows c = none := by
  obtain ⟨tree, -, hleaves⟩ := leaves_processUntilCommit flood policy hf hs
  have hkeep := hinv.processUntilCommit flood policy pi
  unfold processPacketIn
  cases hstage : s.processUntilCommit flood policy pi with
  | returned s' => rw [hstage] at hleaves; exact hleaves
  | thrown e s' => rw [hstage] at hleaves; exact ⟨hleaves.1.next, fun _ => hleaves.1.none⟩
  | committing s' =>
    rw [hstage] at hleaves hkeep
    have hc := installed_commit hkeep flood enum
    dsimp only
    split
    · rename_i s2 hr
      rw [hr] at hc
      have h := hleaves.1.trans hc.1
      exact ⟨h.next, fun _ => h.none⟩
    · rename_i e s2 hr
      rw [hr] at hc
      have h := hleaves.1.trans hc.1
      exact ⟨h.next, fun _ => h.none⟩

include hinv hf hs in
/-- What processing a packet-in leaves when it raises. -/
theorem processPacketIn_raised (hraise : s.raised flood policy pi enum ≠ none) :
    SameKeys s₁ (s.processPacketIn flood policy pi enum) ∧
      ((s.processPacketIn flood policy pi enum).tree = s₁.tree ∨
        (s.processPacketIn flood policy pi enum).tree =
          (augment Decision.disposable policy pi.pkt f.cookie s₁.tree).1) := by
  obtain ⟨tree, htree, hleaves⟩ := leaves_processUntilCommit flood policy hf hs
  have hkeep := hinv.processUntilCommit flood policy pi
  unfold raised at hraise
  unfold processPacketIn
  cases hstage : s.processUntilCommit flood policy pi with
  | returned s' => rw [hstage] at hraise; exact absurd rfl hraise
  | thrown e s' =>
    rw [hstage] at hleaves
    exact ⟨hleaves.1, by rw [hleaves.2]; exact htree⟩
  | committing s' =>
    rw [hstage] at hleaves hkeep hraise
    have hc := installed_commit hkeep flood enum
    dsimp only at hraise ⊢
    cases hr : s'.commit flood enum with
    | ok s2 => rw [hr] at hraise; exact absurd rfl hraise
    | error r =>
      rw [hr] at hc
      exact ⟨hleaves.1.trans hc.1, by rw [hc.2, hleaves.2]; exact htree⟩

end

/-! ## The life of a scope -/

theorem Inv.invalidateTraceTree (h : s.Inv) : s.invalidateTraceTree.Inv :=
  (h.setTree (show Node.unexplored.WF ∅ from trivial)).send (by simp)

theorem Inv.closed (h : s.Inv) : s.closed.Inv :=
  ⟨trivial, fun c f hf => (by cases hf), h.next, h.missKey, h.missIdle, h.base⟩

theorem Inv.reinit (h : s.Inv) : s.reinit.Inv :=
  ⟨h.wf, h.keyed, h.next, h.missKey, h.missIdle, rfl⟩

/-- The invariant of a life: that of a run, and no flow has a cookie that is not given out yet. -/
structure Registered (s : SwitchScope τ) : Prop where
  inv : s.Inv
  fresh : ∀ c, s.nextCookie ≤ c → s.flows c = none

theorem Registered.init : (init : SwitchScope τ).Registered := ⟨.init, fun _ _ => rfl⟩

theorem Registered.flowFor (h : s.Registered) (hf : s.flowFor pi = .ok (f, s₁)) :
    s₁.Registered ∧ (s₁.flows f.cookie).isSome := by
  obtain ⟨hinv, -⟩ := h.inv.flowFor hf
  rcases flowFor_ok hf with ⟨c, -, hc, -, rfl⟩ | ⟨rfl, rfl, -⟩
  · refine ⟨h, ?_⟩
    rw [(h.inv.keyed c f hc).1, hc]
    rfl
  · have hflows := setFlow_flows (s := s) (f := { cookie := s.nextCookie }) h.inv.next
    refine ⟨⟨hinv, fun c hc => ?_⟩, ?_⟩
    · have hc' : s.nextCookie + 1 ≤ c := hc
      exact (hflows c).trans (by rw [if_neg (by dsimp only; omega), h.fresh c (by omega)])
    · exact (congrArg Option.isSome (hflows _)).trans (by rw [if_pos rfl]; rfl)

theorem Registered.react (h : s.Registered) (flood : Output) (e : ScopeEvent τ) :
    (s.react flood e).Registered := by
  cases e with
  | packetIn policy pi enum =>
    have hinv : (s.step flood policy (.packetIn pi enum)).Inv := h.inv.step _
    refine ⟨hinv, ?_⟩
    cases hf : s.flowFor pi with
    | error e =>
      have hs : s.react flood (.packetIn policy pi enum) = s := by
        simp only [SwitchScope.react, processPacketIn, processUntilCommit, hf]
      rw [hs]
      exact h.fresh
    | ok r =>
      obtain ⟨f, s₁⟩ := r
      obtain ⟨h1, hs⟩ := h.flowFor hf
      obtain ⟨hnext, hnone⟩ := processPacketIn_keys flood policy enum h.inv hf hs
      exact fun c hc => hnone c (h1.fresh c (hnext ▸ hc))
  | flowRemoved cookie reason =>
    have hinv : (s.step flood (.raise .outOfRange) (.flowRemoved cookie reason)).Inv :=
      h.inv.step _
    refine ⟨hinv, ?_⟩
    simp only [SwitchScope.react, processFlowRemoved]
    split
    · exact h.fresh
    · rename_i f hf
      split
      · intro c hc
        dsimp only
        rw [Function.update_apply]
        split
        · rfl
        · exact h.fresh c hc
      · have hc : (f.flow_removed reason).cookie = cookie := by
          rw [FlowImpl.flow_removed_cookie, (h.inv.keyed _ f hf).1]
        have hk := sameKeys_setFlow (s := s) (f := f.flow_removed reason)
          (.inr (by rw [hc, hf]; rfl))
        exact fun c hc' => hk.none (h.fresh c (hk.next ▸ hc'))
  | invalidateTraceTree => exact ⟨h.inv.invalidateTraceTree, h.fresh⟩
  | closed => exact ⟨h.inv.closed, fun _ _ => rfl⟩
  | reinit => exact ⟨h.inv.reinit, h.fresh⟩

theorem Life.registered {h : List (SwitchScope τ × ScopeEvent τ)} (hl : Life flood h s) :
    s.Registered :=
  hl.invariant_state (I := Registered) .init fun s e s' hs _ he => by
    cases he
    exact hs.react flood e

/-! ## A packet-in that fails -/

/-- The flow of the packet-in is known, or not even looked up: `lookup` raises, or it finds a flow
that is not expired. -/
def Recognises (s : SwitchScope τ) (pi : PacketIn τ) : Prop :=
  ∀ found, s.lookup pi.pkt = .ok found →
    ∃ c f, found = some c ∧ s.flows c = some f ∧ f.state ≠ .expired

/-- **Failures**: after a packet-in whose processing raises, the same cookies name flows and every
packet is looked up as before, exactly when no flow was made for the packet-in. -/
theorem failing_unchanged_iff {h : List (SwitchScope τ × ScopeEvent τ)} (hl : Life flood h s)
    (policy : Policy τ Decision) (pi : PacketIn τ) (enum : Enumeration τ)
    (hraise : s.raised flood policy pi enum ≠ none) :
    ((∀ c, ((s.processPacketIn flood policy pi enum).flows c).isSome = (s.flows c).isSome) ∧
      ∀ q, (s.processPacketIn flood policy pi enum).lookup q = s.lookup q) ↔
    s.Recognises pi := by
  have hreg := hl.registered
  cases hf : s.flowFor pi with
  | error e =>
    have hs : s.processPacketIn flood policy pi enum = s := by
      simp only [processPacketIn, processUntilCommit, hf]
    rw [hs]
    refine iff_of_true ⟨fun _ => rfl, fun _ => rfl⟩ fun found hfound => ?_
    rw [flowFor_error hf] at hfound
    cases hfound
  | ok r =>
    obtain ⟨f, s₁⟩ := r
    obtain ⟨-, hs⟩ := hreg.flowFor hf
    obtain ⟨hkeys, htree⟩ := processPacketIn_raised hreg.inv hf hs hraise
    rcases flowFor_ok hf with ⟨c, hlook, hc, hstate, rfl⟩ | ⟨rfl, rfl, found, hlook, hexp⟩
    · -- the flow was found: the tracer keeps to the path of the packet
      rw [(hreg.inv.keyed c f hc).1, augment,
        augmentFrom_found Decision.disposable policy (View.refl pi.pkt) hlook, or_self] at htree
      refine iff_of_true ⟨hkeys.flows, hkeys.lookup htree⟩ fun found hfound => ?_
      rw [hlook] at hfound
      cases hfound
      exact ⟨c, f, rfl, hc, hstate⟩
    · -- the flow is new: its cookie named none
      refine iff_of_false (fun hsame => ?_) fun hrec => ?_
      · have hnew := (hkeys.flows s.nextCookie).trans hs
        rw [hsame.1, hreg.fresh _ (Nat.le_refl _)] at hnew
        cases hnew
      · obtain ⟨c, g, hfound, hg, hne⟩ := hrec found hlook
        exact hne (hexp c g hfound hg)

/-- A policy whose first handler throws. -/
def throwing : Policy OfbType Decision := .raise (.handler 0)

/-- The policy throws on the first packet-in of a scope, for which a flow is made. -/
theorem failing_unchanged_iff_first :
    (init : SwitchScope OfbType).raised (.port 0xfffffffb 0) throwing
        (firstPacketIn (frame 0x0800 5 3)) inOrder = some (.handler 0) ∧
      (((∀ c, (((init : SwitchScope OfbType).processPacketIn (.port 0xfffffffb 0) throwing
            (firstPacketIn (frame 0x0800 5 3)) inOrder).flows c).isSome =
          ((init : SwitchScope OfbType).flows c).isSome) ∧
        ∀ q, ((init : SwitchScope OfbType).processPacketIn (.port 0xfffffffb 0) throwing
          (firstPacketIn (frame 0x0800 5 3)) inOrder).lookup q =
            (init : SwitchScope OfbType).lookup q) ↔
      (init : SwitchScope OfbType).Recognises (firstPacketIn (frame 0x0800 5 3))) :=
  ⟨rfl, failing_unchanged_iff (h := []) .nil throwing _ inOrder (by decide)⟩

/-- The flow made for a packet-in whose policy throws stays in the map. -/
theorem failing_changed : ¬ ∀ (flood : Output) (h : List (SwitchScope OfbType × ScopeEvent OfbType))
    (s : SwitchScope OfbType) (policy : Policy OfbType Decision) (pi : PacketIn OfbType)
    (enum : Enumeration OfbType), Life flood h s → s.raised flood policy pi enum ≠ none →
    (∀ c, ((s.processPacketIn flood policy pi enum).flows c).isSome = (s.flows c).isSome) ∧
      ∀ q, (s.processPacketIn flood policy pi enum).lookup q = s.lookup q := by
  intro hall
  have h := (hall (.port 0xfffffffb 0) [] init throwing (firstPacketIn (frame 0x0800 5 3)) inOrder
    .nil (by decide)).1 (missCookie + 1)
  exact absurd h (by decide)

end SwitchScope

end Controller
