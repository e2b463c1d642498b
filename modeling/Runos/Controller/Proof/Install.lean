import Runos.Controller.SwitchScope
import Runos.Maple.Proof.Compile

/-!
# What a commit does to the flow table

`FlowImpl::install` returns early unless the flow is active or answers a packet-in
(`FlowImpl.pending`), and adds a rule only if the flow is not disposable (`install_ok`).
`SwitchScope.Inv` is the invariant of every run: the tree is well formed, the cookies name the
flows, the barrier flow is never pending, and beside the Maple rules the table holds the table-miss
rule alone. From such a state a commit that returns leaves the table-miss rule and, for each rule
of the compiled tree whose flow is pending and not disposable, its entry (`commit_table`): the
barrier flow gets none.
-/

namespace Controller

open Oxm OxmType Maple Priority

variable {τ : Type} [OxmType τ] {flood : Output} {policy : Policy τ Decision}

/-! ## Flows -/

namespace FlowImpl

variable {f f' : FlowImpl τ} {ms : List (Msg τ)}

@[simp] theorem flow_removed_cookie (f : FlowImpl τ) (reason : RemovedReason) :
    (f.flow_removed reason).cookie = f.cookie := by
  cases reason with
  | delete => simp only [flow_removed]; split <;> rfl
  | _ => rfl

/-- `install` does not return early. -/
def pending (f : FlowImpl τ) : Bool := f.state = .active ∨ f.packetIn = true

/-- Two states of a flow between which nothing was decided. -/
structure Same (f f' : FlowImpl τ) : Prop where
  cookie : f'.cookie = f.cookie
  decision : f'.decision = f.decision
  mods : f'.mods = f.mods
  pending : f'.pending = f.pending

theorem Same.refl (f : FlowImpl τ) : Same f f := ⟨rfl, rfl, rfl, rfl⟩

theorem Same.trans {f g h : FlowImpl τ} (h1 : Same f g) (h2 : Same g h) : Same f h :=
  ⟨h2.cookie.trans h1.cookie, h2.decision.trans h1.decision, h2.mods.trans h1.mods,
    h2.pending.trans h1.pending⟩

theorem Same.actions {f f' : FlowImpl τ} (h : Same f f') : f'.actions flood = f.actions flood := by
  simp only [FlowImpl.actions, outputs, h.decision, h.mods]

theorem install_of_not_pending (h : f.pending = false) : f.install flood = (f, .ok []) := by
  have hs : f.state ≠ .active ∧ f.packetIn = false := by simpa [pending] using h
  unfold install
  rw [if_pos hs, ite_self]

/-- A pending flow: its messages are those of the flow with the deletion it expects counted. -/
theorem install_of_pending (flood : Output) (h : f.pending = true) :
    ∃ g : FlowImpl τ, g.cookie = f.cookie ∧ g.priority = f.priority ∧ g.matchSet = f.matchSet ∧
      g.decision = f.decision ∧ g.mods = f.mods ∧ g.pending = true ∧
      f.install flood = match g.messages flood with
        | none => (g, .error .unhandledPacket)
        | some ms => (g.installed, .ok ms) := by
  have hs : f.state = .active ∨ f.packetIn = true := by simpa [pending] using h
  have hp : f.packetIn = false → f.state = .active := by
    intro hn; rw [hn] at hs; simpa using hs
  unfold install
  rw [if_neg (fun hc => by rw [hp hc.2] at hc; cases hc.1), if_neg (fun hc => hc.1 (hp hc.2))]
  refine ⟨_, ?_, ?_, ?_, ?_, ?_, ?_, rfl⟩
  all_goals split
  all_goals first | rfl | exact h

/-- A rule is added only for a flow that is not disposable. -/
theorem messages_add {g : FlowImpl τ} (h : g.messages flood = some ms) {xid : Nat}
    {bufferId : Option Nat} {e : Entry τ} (he : .add xid bufferId e ∈ ms) :
    g.disposable = false ∧ ∃ a, g.actions flood = some a ∧ e = g.entry a := by
  unfold messages at h
  split at h
  · split at h
    · obtain ⟨a, -, rfl⟩ := Option.map_eq_some_iff.1 h
      simp [packetOutMsg] at he
    · cases h; cases he
  · rename_i hd
    obtain ⟨a, ha, rfl⟩ := Option.map_eq_some_iff.1 h
    refine ⟨eq_false_of_ne_true hd, a, ha, ?_⟩
    rw [List.mem_append] at he
    rcases he with he | he
    · split at he
      · simp [packetOutMsg] at he
      · cases he
    · simp only [List.mem_singleton, Msg.add.injEq] at he
      exact he.2.2

theorem messages_cookie {g : FlowImpl τ} (h : g.messages flood = some ms) {xid : Nat}
    {bufferId : Option Nat} {e : Entry τ} (he : .add xid bufferId e ∈ ms) : e.cookie = g.cookie := by
  obtain ⟨-, a, -, rfl⟩ := messages_add h he
  rfl

variable [DecidableEq τ]

theorem messages_exec {g : FlowImpl τ} (h : g.messages flood = some ms) (table : List (Entry τ)) :
    (g.disposable = true ∧ ms.foldl Msg.exec table = table) ∨
      g.disposable = false ∧ ∃ a, g.actions flood = some a ∧
        ms.foldl Msg.exec table = (Msg.add g.xid g.bufferId (g.entry a)).exec table := by
  unfold messages at h
  split at h
  · rename_i hd
    refine .inl ⟨hd, ?_⟩
    split at h
    · obtain ⟨a, -, rfl⟩ := Option.map_eq_some_iff.1 h; rfl
    · cases h; rfl
  · rename_i hd
    obtain ⟨a, ha, rfl⟩ := Option.map_eq_some_iff.1 h
    refine .inr ⟨by simpa using hd, a, ha, ?_⟩
    split <;> rfl

/-- **What `install` does**: nothing unless the flow is pending, and no rule for a disposable
flow. -/
theorem install_ok (h : f.install flood = (f', .ok ms)) :
    Same f f' ∧ ∀ table : List (Entry τ),
      ((f.pending && !f.disposable) = false ∧ ms.foldl Msg.exec table = table) ∨
        (f.pending && !f.disposable) = true ∧ ∃ a xid bufferId, f.actions flood = some a ∧
          ms.foldl Msg.exec table = (Msg.add xid bufferId (f.entry a)).exec table := by
  cases hp : f.pending with
  | false =>
    rw [install_of_not_pending hp] at h
    cases h
    exact ⟨.refl f, fun table => .inl ⟨rfl, rfl⟩⟩
  | true =>
    obtain ⟨g, hc, hpr, hm, hd, hmods, hpend, hi⟩ := install_of_pending flood hp
    rw [hi] at h
    cases hmsg : g.messages flood with
    | none => rw [hmsg] at h; cases h
    | some ms' =>
      rw [hmsg] at h
      cases h
      refine ⟨⟨hc, hd, hmods, by rw [hp]; rfl⟩, fun table => ?_⟩
      have hdisp : g.disposable = f.disposable := by rw [disposable, hd]; rfl
      have hact : g.actions flood = f.actions flood := by simp only [actions, outputs, hd, hmods]
      obtain ⟨hgd, ht⟩ | ⟨hgd, a, ha, ht⟩ := messages_exec hmsg table
      · exact .inl ⟨by rw [← hdisp, hgd]; rfl, ht⟩
      · refine .inr ⟨by rw [← hdisp, hgd]; rfl, a, g.xid, g.bufferId, by rw [← hact, ha], ?_⟩
        rw [ht]
        simp only [entry, hpr, hm, hc, hd]

end FlowImpl

/-! ## The invariant -/

namespace SwitchScope

variable {s s' : SwitchScope τ} {f : FlowImpl τ}

theorem setFlow_flows (hf : missCookie < f.cookie) (c : Nat) :
    (s.setFlow f).flows c = if c = f.cookie then some f else s.flows c := by
  unfold SwitchScope.setFlow
  rw [if_neg (Nat.ne_of_gt hf)]
  exact Function.update_apply _ _ _ _

theorem setFlow_miss (hf : missCookie < f.cookie) : (s.setFlow f).miss = s.miss := by
  unfold SwitchScope.setFlow
  rw [if_neg (Nat.ne_of_gt hf)]

@[simp] theorem setFlow_tree : (s.setFlow f).tree = s.tree := by
  unfold SwitchScope.setFlow; split <;> rfl

@[simp] theorem setFlow_table : (s.setFlow f).table = s.table := by
  unfold SwitchScope.setFlow; split <;> rfl

@[simp] theorem setFlow_nextCookie : (s.setFlow f).nextCookie = s.nextCookie := by
  unfold SwitchScope.setFlow; split <;> rfl

/-- The rules whose cookie is not of the Maple space. -/
def foreign (table : List (Entry τ)) : List (Entry τ) :=
  table.filter fun e => e.cookie < cookieBase

/-- Dropping other rules leaves the table-miss rule. -/
theorem foreign_filter {table : List (Entry τ)} (h : foreign table = [tableMiss])
    {keep : Entry τ → Bool} (hk : keep tableMiss = true) :
    foreign (table.filter keep) = [tableMiss] := by
  have hcomm : foreign (table.filter keep) = (foreign table).filter keep := List.filter_comm ..
  rw [hcomm, h, List.filter_cons_of_pos hk, List.filter_nil]

section
variable [DecidableEq τ]

/-- The invariant of the module doc. -/
structure Inv (s : SwitchScope τ) : Prop where
  wf : s.tree.WF ∅
  keyed : ∀ c f, s.flows c = some f → f.cookie = c ∧ missCookie < c
  next : missCookie < s.nextCookie
  missKey : s.miss.cookie = missCookie
  missIdle : s.miss.pending = false
  base : foreign s.table = [tableMiss]

theorem Inv.init : Inv (SwitchScope.init : SwitchScope τ) where
  wf := trivial
  keyed c f h := by cases h
  next := Nat.lt_succ_self _
  missKey := rfl
  missIdle := rfl
  base := rfl

/-- The two outcomes of an operation that may throw. -/
def Keeps (P : SwitchScope τ → Prop) : Except (Exc × SwitchScope τ) (SwitchScope τ) → Prop
  | .ok s => P s
  | .error (_, s) => P s

theorem Inv.setFlow (h : s.Inv) (hf : missCookie < f.cookie) : (s.setFlow f).Inv where
  wf := by rw [setFlow_tree]; exact h.wf
  keyed c g hg := by
    rw [setFlow_flows hf] at hg
    split at hg
    · rename_i hc; subst hc; cases hg; exact ⟨rfl, hf⟩
    · exact h.keyed c g hg
  next := by rw [setFlow_nextCookie]; exact h.next
  missKey := by rw [setFlow_miss hf]; exact h.missKey
  missIdle := by rw [setFlow_miss hf]; exact h.missIdle
  base := by rw [setFlow_table]; exact h.base

theorem Inv.setMiss (h : s.Inv) (hf : f.cookie = missCookie) (hp : f.pending = false) :
    (s.setFlow f).Inv := by
  unfold SwitchScope.setFlow
  rw [if_pos hf]
  exact ⟨h.wf, h.keyed, h.next, hf, hp, h.base⟩

theorem foreign_exec {table : List (Entry τ)} {m : Msg τ}
    (h : ∀ xid bufferId e, m = .add xid bufferId e → cookieBase ≤ e.cookie) :
    foreign (m.exec table) = foreign table := by
  cases m with
  | add xid bufferId e =>
    have he := h xid bufferId e rfl
    simp only [Msg.exec]
    split
    · rfl
    · simp [foreign, he]
  | delete => simp [Msg.exec, foreign]
  | packetOut po => rfl

theorem foreign_foldl {ms : List (Msg τ)} (table : List (Entry τ))
    (h : ∀ xid bufferId e, Msg.add xid bufferId e ∈ ms → cookieBase ≤ e.cookie) :
    foreign (ms.foldl Msg.exec table) = foreign table := by
  induction ms generalizing table with
  | nil => rfl
  | cons m ms ih =>
    rw [List.foldl_cons, ih _ fun xid b e he => h xid b e (List.mem_cons_of_mem _ he)]
    exact foreign_exec fun xid b e he => h xid b e (he ▸ List.mem_cons_self)

theorem Inv.send {ms : List (Msg τ)} (h : s.Inv)
    (hm : ∀ xid bufferId e, Msg.add xid bufferId e ∈ ms → cookieBase ≤ e.cookie) :
    (s.send ms).Inv where
  wf := h.wf
  keyed := h.keyed
  next := h.next
  missKey := h.missKey
  missIdle := h.missIdle
  base := (foreign_foldl s.table hm).trans h.base

theorem Inv.installFlow (h : s.Inv) (flood : Output) (hf : missCookie < f.cookie) :
    Keeps Inv (s.installFlow flood f) := by
  unfold SwitchScope.installFlow
  cases hp : f.pending with
  | false =>
    rw [FlowImpl.install_of_not_pending hp]
    exact h.setFlow hf
  | true =>
    obtain ⟨g, hc, -, -, -, -, -, hi⟩ := FlowImpl.install_of_pending flood hp
    rw [hi]
    cases hm : g.messages flood with
    | none => exact h.setFlow (hc ▸ hf)
    | some ms =>
      refine Inv.send (h.setFlow (f := g.installed) (hc ▸ hf)) fun xid b e he => ?_
      rw [FlowImpl.messages_cookie hm he, hc]
      exact Nat.le_of_lt hf

theorem Inv.install (h : s.Inv) (flood : Output) (priority : Nat) (matchSet : FieldSet τ)
    (cookie : Nat) :
    Keeps Inv ((mapleBackend flood).install priority matchSet cookie s) := by
  simp only [mapleBackend]
  split
  · have hp : (s.miss.placed priority matchSet).pending = false := h.missIdle
    unfold SwitchScope.installFlow
    rw [FlowImpl.install_of_not_pending hp]
    exact Inv.send (h.setMiss h.missKey hp) (by simp)
  · split
    · exact h
    · rename_i f hf
      obtain ⟨hk, hlt⟩ := h.keyed _ f hf
      exact h.installFlow flood (f := f.placed priority matchSet) (by rw [← hk] at hlt; exact hlt)

theorem Inv.installAll (h : s.Inv) (rs : List (FieldSet τ × Nat)) (p : Nat) :
    Keeps Inv (installAll (mapleBackend flood) rs p s) := by
  induction rs generalizing s p with
  | nil => exact h
  | cons r rs ih =>
    have hi := h.install flood p r.1 r.2
    simp only [Maple.installAll]
    cases hr : (mapleBackend flood).install p r.1 r.2 s with
    | error e => rw [hr] at hi; exact hi
    | ok s' => rw [hr] at hi; exact ih hi _

theorem Inv.remove (h : s.Inv) : ((mapleBackend flood).remove s).Inv :=
  h.send (by simp)

theorem Inv.commit (h : s.Inv) (flood : Output) (enum : Enumeration τ) :
    Keeps Inv (s.commit flood enum) := by
  rw [SwitchScope.commit, commit_eq _ _ _ ((enum.reorder s.tree).wf h.wf)]
  exact h.remove.installAll _ _

end

/-! ## The table after a commit -/

/-- A flow of the map has a rule after a commit. -/
def hasRule (s : SwitchScope τ) (cookie : Nat) : Bool :=
  (s.flows cookie).any fun f => f.pending && !f.disposable

/-- The entry that the flow of a rule adds. -/
def entryOf (flood : Output) (s : SwitchScope τ) (r : Rule τ Nat) : Option (Entry τ) :=
  (s.flows r.flow).bind fun f =>
    if f.pending && !f.disposable
    then (f.actions flood).map (f.placed r.priority r.matchSet).entry else none

theorem entryOf_eq_some {r : Rule τ Nat} {e : Entry τ} (h : s.entryOf flood r = some e) :
    ∃ f a, s.flows r.flow = some f ∧ f.actions flood = some a ∧
      e = (f.placed r.priority r.matchSet).entry a := by
  obtain ⟨f, hf, he⟩ := Option.bind_eq_some_iff.1 h
  split at he
  · obtain ⟨a, ha, rfl⟩ := Option.map_eq_some_iff.1 he
    exact ⟨f, a, hf, ha, rfl⟩
  · cases he

theorem entryOf_priority {r : Rule τ Nat} {e : Entry τ} (h : s.entryOf flood r = some e) :
    e.priority = r.priority := by
  obtain ⟨f, a, -, -, rfl⟩ := entryOf_eq_some h; rfl

/-- What installing leaves of the scope: the tree, the flows and what they decided. -/
structure Frame (s s' : SwitchScope τ) : Prop where
  tree : s'.tree = s.tree
  none : ∀ c, s.flows c = none → s'.flows c = none
  some : ∀ c f, s.flows c = some f → ∃ f', s'.flows c = some f' ∧ FlowImpl.Same f f'

theorem Frame.refl (s : SwitchScope τ) : Frame s s :=
  ⟨rfl, fun _ h => h, fun _ f h => ⟨f, h, .refl f⟩⟩

theorem Frame.trans {s s' s'' : SwitchScope τ} (h : Frame s s') (h' : Frame s' s'') :
    Frame s s'' where
  tree := h'.tree.trans h.tree
  none c hc := h'.none c (h.none c hc)
  some c f hc := by
    obtain ⟨f', hf', hs⟩ := h.some c f hc
    obtain ⟨f'', hf'', hs'⟩ := h'.some c f' hf'
    exact ⟨f'', hf'', hs.trans hs'⟩

theorem Frame.alive (h : Frame s s') : s'.alive = s.alive := by
  funext c
  unfold SwitchScope.alive
  cases hc : s.flows c with
  | none => rw [h.none c hc]
  | some f =>
    obtain ⟨f', hf', -⟩ := h.some c f hc
    rw [hf']; rfl

theorem Frame.lookup (h : Frame s s') (q : Packet τ) : s'.lookup q = s.lookup q := by
  unfold SwitchScope.lookup
  rw [h.tree, h.alive]

theorem Frame.entryOf (h : Frame s s') (r : Rule τ Nat) :
    s'.entryOf flood r = s.entryOf flood r := by
  unfold SwitchScope.entryOf
  cases hc : s.flows r.flow with
  | none => rw [h.none _ hc]
  | some f =>
    obtain ⟨f', hf', hs⟩ := h.some _ f hc
    have hd : f'.disposable = f.disposable := by rw [FlowImpl.disposable, hs.decision]; rfl
    have he : (f'.placed r.priority r.matchSet).entry = (f.placed r.priority r.matchSet).entry := by
      funext a
      simp only [FlowImpl.entry, FlowImpl.placed, hs.cookie, hs.decision]
    rw [hf', Option.bind_some, Option.bind_some, hs.pending, hd, hs.actions, he]

theorem Frame.hasRule (h : Frame s s') : s'.hasRule = s.hasRule := by
  funext c
  unfold SwitchScope.hasRule
  cases hc : s.flows c with
  | none => rw [h.none _ hc]
  | some f =>
    obtain ⟨f', hf', hs⟩ := h.some _ f hc
    have hd : f'.disposable = f.disposable := by rw [FlowImpl.disposable, hs.decision]; rfl
    rw [hf', Option.any_some, Option.any_some, hs.pending, hd]

variable [DecidableEq τ]

theorem Inv.flows_miss (h : s.Inv) : s.flows missCookie = none := by
  cases hf : s.flows missCookie with
  | none => rfl
  | some f => exact absurd (h.keyed _ f hf).2 (Nat.lt_irrefl _)

/-- A flow of the map is replaced by one that decides the same. -/
theorem frame_setFlow {f' : FlowImpl τ} {c : Nat} (h : s.Inv) (hf : s.flows c = some f)
    (hs : FlowImpl.Same f f') : Frame s (s.setFlow f') := by
  obtain ⟨hk, hlt⟩ := h.keyed c f hf
  have hkey : f'.cookie = c := hs.cookie.trans hk
  have hc : missCookie < f'.cookie := by rw [hkey]; exact hlt
  refine ⟨setFlow_tree, fun c' hn => ?_, fun c' g hg => ?_⟩
  · rw [setFlow_flows hc, if_neg]
    · exact hn
    · intro hcc
      rw [hcc, hkey, hf] at hn; cases hn
  · rw [setFlow_flows hc]
    split
    · rename_i hcc
      rw [hcc, hkey, hf] at hg
      cases hg
      exact ⟨f', rfl, hs⟩
    · exact ⟨g, hg, .refl g⟩

/-- The entry of a rule goes to the end of a table of lower priorities. -/
theorem exec_add {table : List (Entry τ)} {e : Entry τ} (h : ∀ e' ∈ table, e'.priority < e.priority)
    (xid : Nat) (bufferId : Option Nat) : (Msg.add xid bufferId e).exec table = table ++ [e] := by
  simp only [Msg.exec]
  rw [if_neg]
  simp only [List.any_eq_true, not_exists, not_and]
  intro e' he' hc
  have hlt := h e' he'
  simp only [Bool.and_eq_true, beq_iff_eq] at hc
  omega

/-- **One call of `MapleBackend::install`** above the priorities of the table. -/
theorem install_ok (hinv : s.Inv) {r : FieldSet τ × Nat} {p : Nat}
    (htab : ∀ e ∈ s.table, e.priority < p)
    (h : (mapleBackend flood).install p r.1 r.2 s = .ok s') :
    Frame s s' ∧ s'.table = s.table ++ (s.entryOf flood ⟨p, r.1, r.2⟩).toList ∧
      (s.hasRule r.2 = true → (s.entryOf flood ⟨p, r.1, r.2⟩).isSome) := by
  simp only [mapleBackend] at h
  split at h
  · rename_i hmiss
    have hp : (s.miss.placed p r.1).pending = false := hinv.missIdle
    have hk : (s.miss.placed p r.1).cookie = missCookie := hinv.missKey
    simp only [SwitchScope.installFlow, FlowImpl.install_of_not_pending hp, SwitchScope.setFlow,
      if_pos hk] at h
    cases h
    have hn : s.flows r.2 = none := by rw [hmiss]; exact hinv.flows_miss
    refine ⟨⟨rfl, fun _ hc => hc, fun _ f hc => ⟨f, hc, .refl f⟩⟩, ?_, ?_⟩
    · simp [SwitchScope.entryOf, hn, SwitchScope.send]
    · simp [SwitchScope.hasRule, hn]
  · split at h
    · rename_i hn
      cases h
      refine ⟨.refl s, ?_, ?_⟩
      · simp [SwitchScope.entryOf, hn]
      · simp [SwitchScope.hasRule, hn]
    · rename_i f hf
      unfold SwitchScope.installFlow at h
      split at h
      · rename_i f' ms hi
        cases h
        obtain ⟨hsame, hex⟩ := FlowImpl.install_ok hi
        have hsame' : FlowImpl.Same f f' := ⟨hsame.cookie, hsame.decision, hsame.mods, hsame.pending⟩
        have hframe : Frame s (s.setFlow f') := frame_setFlow hinv hf hsame'
        refine ⟨⟨hframe.tree, hframe.none, hframe.some⟩, ?_⟩
        have htable : ((s.setFlow f').send ms).table = ms.foldl Msg.exec s.table := by
          simp [SwitchScope.send]
        have hent : s.entryOf flood ⟨p, r.1, r.2⟩ = if f.pending && !f.disposable
            then (f.actions flood).map (f.placed p r.1).entry else none := by
          simp only [SwitchScope.entryOf, hf, Option.bind_some]
        have hrule : s.hasRule r.2 = (f.pending && !f.disposable) := by
          simp only [SwitchScope.hasRule, hf, Option.any_some]
        rw [htable, hent, hrule]
        obtain ⟨hno, ht⟩ | ⟨hyes, a, xid, b, ha, ht⟩ := hex s.table
        · have hno' : (f.pending && !f.disposable) = false := hno
          rw [ht, hno']; simp
        · have hyes' : (f.pending && !f.disposable) = true := hyes
          have ha' : f.actions flood = some a := ha
          rw [ht, hyes', if_pos rfl, ha']
          refine ⟨?_, fun _ => rfl⟩
          exact exec_add htab xid b
      · cases h

/-- **The rules of a compiled tree on the switch**: those of the pending flows that are not
disposable. -/
theorem installAll_ok (hinv : s.Inv) {rs : List (FieldSet τ × Nat)} {p : Nat}
    (hp : p + rs.length ≤ 2 ^ 16) (htab : rs ≠ [] → ∀ e ∈ s.table, e.priority < p)
    (h : Maple.installAll (mapleBackend flood) rs p s = .ok s') :
    Frame s s' ∧ s'.table = s.table ++ (numbered rs p).filterMap (s.entryOf flood) ∧
      ∀ r ∈ numbered rs p, s.hasRule r.flow = true → (s.entryOf flood r).isSome := by
  induction rs generalizing s p with
  | nil =>
    cases h
    exact ⟨.refl _, by simp [numbered], by simp [numbered]⟩
  | cons r rs ih =>
    simp only [Maple.installAll] at h
    cases hi : (mapleBackend flood).install p r.1 r.2 s with
    | error e => rw [hi] at h; cases h
    | ok s1 =>
      rw [hi] at h
      obtain ⟨hframe, htable, hrule⟩ := install_ok hinv (htab (by simp)) hi
      have hinv1 : s1.Inv := by
        have := hinv.install flood p r.1 r.2
        rw [hi] at this; exact this
      have hnext : rs ≠ [] → (p + 1) % 2 ^ 16 = p + 1 := by
        intro hne
        have := List.length_pos_iff.2 hne
        rw [List.length_cons] at hp
        exact Nat.mod_eq_of_lt (by omega)
      have hlen : (p + 1) % 2 ^ 16 + rs.length ≤ 2 ^ 16 := by
        have := Nat.mod_le (p + 1) (2 ^ 16)
        rw [List.length_cons] at hp
        omega
      have htab1 : rs ≠ [] → ∀ e ∈ s1.table, e.priority < (p + 1) % 2 ^ 16 := by
        intro hne e he
        rw [hnext hne]
        rw [htable, List.mem_append] at he
        rcases he with he | he
        · exact Nat.lt_succ_of_lt (htab (by simp) e he)
        · rw [entryOf_priority (Option.mem_toList.1 he)]
          exact Nat.lt_succ_self p
      obtain ⟨hframe', htable', hrule'⟩ := ih hinv1 hlen htab1 h
      refine ⟨hframe.trans hframe', ?_, fun x hx => ?_⟩
      · have he : s1.entryOf flood = s.entryOf flood := funext hframe.entryOf
        rw [htable', htable, he, List.append_assoc]
        congr 1
        rw [numbered, List.filterMap_cons]
        cases s.entryOf flood ⟨p, r.1, r.2⟩ <;> rfl
      · rcases List.mem_cons.1 hx with rfl | hx
        · exact hrule
        · have := hrule' x hx
          rwa [hframe.hasRule, hframe.entryOf] at this

end SwitchScope

end Controller
