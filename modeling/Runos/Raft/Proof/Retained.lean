import Runos.Raft.Proof.Logs

/-!
# What a follower keeps and what a leader knows

In a run whose steps satisfy `FreshVotes`, `MatchingPrevious` and `KeptTails`, a node keeps what it
has of its leader's log for as long as the term lasts (`Run.retained`). With `MatchingAcks` the
match index of a peer is backed by an acknowledgement: when the peer sent it, it had the leader's
entries up to that index (`Run.matched`). So an index a leader commits has been replicated to a
majority (`Run.commit_majority`, `commit_replicated`).
-/

namespace Raft

open Runs Fallible LeaderLogs Majority

variable {α : Type}

/-! ## Acknowledgements -/

def Message.isAck : Message α → Bool
  | .appendEntriesResponse r => r.success
  | _ => false

/-- In the step `e`, node `q` sends a successful `AppendEntriesResponse` to `p`. -/
def Cluster.acknowledges (ndebug : Bool) (s : Cluster α) (e : Event α) (q p : String) : Bool :=
  match s.delivered e with
  | none => false
  | some x => x.destination == q &&
    match (s.nodes q).receive ndebug x.message with
    | .error _ => false
    | .ok o => (sends o.2).any fun y => y.destination == p && y.message.isAck

/-- The state in which `q` had just sent its latest acknowledgement to `p`. -/
def lastAck (ndebug : Bool) (q p : String) : List (Cluster α × Event α) → Option (Cluster α)
  | [] => none
  | (s, e) :: h =>
    if s.acknowledges ndebug e q p then (s.step ndebug e).toOption else lastAck ndebug q p h

section
variable {ndebug : Bool} {ids : List String} {good : Cluster α → Event α → Prop}
  {h : List (Cluster α × Event α)} {s s' : Cluster α} {e : Event α} {p q : String}

theorem delivered_eq_some {x : Envelope α} (h : s.delivered e = some x) :
    ∃ k, e = .deliver k ∧ s.network[k]? = some x := by
  cases e with
  | deliver k => exact ⟨k, rfl, h⟩
  | _ => cases h

/-- A delivery runs the handler of the destination. -/
theorem step_delivered {x : Envelope α} (hd : s.delivered e = some x) (hx : x.destination ∈ s.ids)
    (hs : s.step ndebug e = .ok s') :
    ∃ o, (s.nodes x.destination).receive ndebug x.message = .ok o ∧
      s'.nodes x.destination = o.1 ∧ ∀ y ∈ s'.network, y ∈ s.network ∨ y ∈ sends o.2 := by
  obtain ⟨k, rfl, hk⟩ := delivered_eq_some hd
  simp only [Cluster.step, hk, Cluster.act, if_pos hx] at hs
  obtain ⟨o, ho, hs⟩ := bind_ok hs
  cases hs
  refine ⟨o, ho, Function.update_self _ _ _, fun y hy => ?_⟩
  rcases List.mem_append.1 hy with hy | hy
  · exact .inl (List.mem_of_mem_eraseIdx hy)
  · exact .inr hy

/-- An acknowledgement answers a request the node has accepted. -/
theorem Run.accepts_of_acknowledges (hr : Run ndebug ids good h s)
    (ha : s.acknowledges ndebug e q p = true) (hs : s.step ndebug e = .ok s') (hq : q ∈ ids) :
    ∃ r, s.delivered e = some ⟨q, .appendEntriesRequest r⟩ ∧ Accepts (s.nodes q) r ∧
      r.header.peerId = p ∧ s'.term q = r.header.term := by
  unfold Cluster.acknowledges at ha
  split at ha
  · cases ha
  rename_i x hd
  simp only [Bool.and_eq_true, beq_iff_eq] at ha
  obtain ⟨rfl, ha⟩ := ha
  split at ha
  · cases ha
  rename_i o ho
  obtain ⟨y, hy, ha⟩ := List.any_eq_true.1 ha
  simp only [Bool.and_eq_true, beq_iff_eq] at ha
  obtain ⟨rfl, hack⟩ := ha
  have hok := hr.recorded.ok
  have hmsg := hok.messages x (delivered_mem hd)
  have hmem : x.destination ∈ s.ids := by rw [hr.ids_eq]; exact hq
  have hnode := hok.nodes x.destination hmem
  obtain ⟨o₁, ho₁, hnode', -⟩ := step_delivered hd hmem hs
  rw [ho] at ho₁
  cases ho₁
  rcases receive_handled ndebug hnode hmsg with ⟨o', ho', hh⟩ | hfault
  · rw [ho] at ho'
    cases ho'
    obtain ⟨hsent, hans⟩ := hh.sent y hy
    obtain ⟨dst, msg⟩ := y
    cases msg with
    | appendEntriesResponse r =>
      obtain ⟨req, hm, hacc, hid, ht⟩ := hans hack
      obtain ⟨-, -, -, -, hst⟩ := hsent
      simp only [Option.some.injEq] at hm
      refine ⟨req, by rw [hd, ← hm], hacc, hid, ?_⟩
      rw [Cluster.term, hnode', ht, (hst hack).1]
    | _ => cases hack
  · rw [ho] at hfault; cases hfault

/-- An acknowledgement of the past, with the state it left. -/
def Acked (ndebug : Bool) (h : List (Cluster α × Event α)) (q p : String) (y : Cluster α) : Prop :=
  ∃ y₀ e₀, (y₀, e₀) ∈ h ∧ y₀.acknowledges ndebug e₀ q p = true ∧ y₀.step ndebug e₀ = .ok y

/-- The acknowledgement `r` was sent to `p` in a state of the run, and reports it. -/
structure Reported (ndebug : Bool) (ids : List String) (h : List (Cluster α × Event α))
    (s : Cluster α) (r : AppendEntriesResponse) (p : String) (y : Cluster α) : Prop where
  mem : r.header.peerId ∈ ids
  ne : r.header.peerId ≠ p
  state : y ∈ states h s
  acked : Acked ndebug h r.header.peerId p y
  term : r.header.term = y.term r.header.peerId
  logState : r.header.logState = (y.nodes r.header.peerId).storage.logState

theorem Reported.snoc {r : AppendEntriesResponse} {y : Cluster α}
    (hy : Reported ndebug ids h s r p y) : Reported ndebug ids ((s, e) :: h) s' r p y := by
  obtain ⟨y₀, e₀, hm, ha⟩ := hy.acked
  exact ⟨hy.mem, hy.ne, mem_states_of_mem hy.state, ⟨y₀, e₀, List.mem_cons_of_mem _ hm, ha⟩,
    hy.term, hy.logState⟩

theorem Run.reported (hr : Run ndebug ids good h s) {r : AppendEntriesResponse}
    (hx : (⟨p, .appendEntriesResponse r⟩ : Envelope α) ∈ s.network) (hsucc : r.success = true) :
    ∃ y, Reported ndebug ids h s r p y := by
  induction hr with
  | nil => cases hx
  | @snoc h s s' e hr hok hs ih =>
    have past : (⟨p, .appendEntriesResponse r⟩ : Envelope α) ∈ s.network →
        ∃ y, Reported ndebug ids ((s, e) :: h) s' r p y := fun hx =>
      let ⟨y, hy⟩ := ih hx
      ⟨y, hy.snoc⟩
    rcases Run.step_cases hr hs with hi | ⟨q, m, hn⟩
    · exact past (hi.network _ hx)
    rcases hn.network _ hx with hx₀ | ⟨⟨-, hid, -, hne, hst⟩, hans⟩
    · exact past hx₀
    · rw [hn.ok.id] at hid hne
      subst hid
      obtain ⟨req, rfl, -⟩ := hans hsucc
      have hd := hn.delivered (by simp)
      obtain ⟨o, ho, -, hnew⟩ := step_delivered hd hn.mem hs
      rcases hnew _ hx with hx₀ | hsent
      · exact past hx₀
      refine ⟨s', by rw [← Run.ids_eq hr]; exact hn.mem, hne.symm, mem_states_self _ _, ?_,
        (hst hsucc).1, (hst hsucc).2⟩
      refine ⟨s, e, List.mem_cons_self, ?_, hs⟩
      simp only [Cluster.acknowledges, hd, beq_self_eq_true, Bool.true_and, ho]
      exact List.any_eq_true.2 ⟨_, hsent, by simpa [Message.isAck] using hsucc⟩

/-- The latest acknowledgement is no earlier than any other. -/
theorem Run.lastAck_of_acked (hr : Run ndebug ids good h s) {y : Cluster α}
    (ha : Acked ndebug h q p y) :
    ∃ x h', lastAck ndebug q p h = some x ∧ Run ndebug ids good h' x ∧ y ∈ states h' x ∧
      Acked ndebug h q p x ∧ ∀ z ∈ states h' x, z ∈ states h s := by
  induction hr with
  | nil => obtain ⟨y₀, e₀, hm, -⟩ := ha; cases hm
  | @snoc h s s' e hr hok hs ih =>
    have now := Trace.snoc hr hok hs
    obtain ⟨y₀, e₀, hm, hack, hy⟩ := ha
    by_cases hlast : s.acknowledges ndebug e q p = true
    · refine ⟨s', _, ?_, now, ?_, ⟨s, e, List.mem_cons_self, hlast, hs⟩, fun _ hz => hz⟩
      · simp only [lastAck, hlast, if_true, hs]; rfl
      · obtain ⟨_, y', -, -, hy', -, hmem, -⟩ := Trace.of_mem now hm
        rw [hy] at hy'
        cases hy'
        exact hmem
    · rcases List.mem_cons.1 hm with heq | hm
      · cases heq; exact absurd hack hlast
      · obtain ⟨x, h', hx, hr', hmem, ⟨y₁, e₁, hm₁, ha₁⟩, hsub⟩ := ih ⟨y₀, e₀, hm, hack, hy⟩
        refine ⟨x, h', ?_, hr', hmem, ⟨y₁, e₁, List.mem_cons_of_mem _ hm₁, ha₁⟩,
          fun z hz => mem_states_of_mem (hsub z hz)⟩
        simp only [lastAck, hlast]
        exact hx

/-! ## Retained entries -/

/-- `P` is in line with the logs of the leader of term `t`. -/
def Fits (ids : List String) (H : List (Cluster α)) (t : Nat) (P : List (Entry α)) : Prop :=
  ∀ l, Led ids H t l → P <+: l ∨
    l <+: P ∧ ∀ k x, l.length ≤ k → P[k]? = some x → x.term = t

theorem Fits.anti {H H' : List (Cluster α)} {t : Nat} {P : List (Entry α)}
    (hP : Fits ids H' t P) (hsub : ∀ x ∈ H, x ∈ H') : Fits ids H t P :=
  fun l hl => hP l (hl.mono hsub)

/-- The term of the last entry. -/
theorem infoAt_length_term (l : List (Entry α)) :
    (infoAt l l.length).term = lastTerm Entry.term l := by
  cases h : l.length with
  | zero => rw [List.length_eq_zero_iff.1 h]; rfl
  | succ k =>
    rw [infoAt, lastTerm, List.getLast?_eq_getElem?, h, Nat.add_sub_cancel]
    cases l[k]? <;> rfl

section
variable (hnd : ids.Nodup) (hf : ∀ s e, good s e → FreshVotes s e)
  (hm : ∀ s e, good s e → MatchingPrevious s e)
include hnd hf

theorem Run.fits (hr : Run ndebug ids good h s) {t : Nat} {P l : List (Entry α)}
    (hl : Led ids (states h s) t l) (hP : P <+: l) : Fits ids (states h s) t P := by
  intro l' hl'
  rcases hr.led_extends hnd hf hl hl' with hx | hx
  · exact .inl (hP.trans hx.isInitial)
  · rcases List.prefix_or_prefix_of_prefix hP hx.isInitial with hp | hp
    · exact .inl hp
    · refine .inr ⟨hp, fun k x hk hx' => hx.term_of_ge hk ?_⟩
      obtain ⟨es, rfl⟩ := hP
      have hlt := (List.getElem?_eq_some_iff.1 hx').1
      rwa [List.getElem?_append_left hlt]

include hm

/-- A log with an entry of the node's term ends in one. -/
theorem Run.lastTerm_eq (hr : Run ndebug ids good h s) (hp : p ∈ ids) {k : Nat} {x : Entry α}
    (hx : (s.log p)[k]? = some x) (hxt : x.term = s.term p) :
    lastTerm Entry.term (s.log p) = s.term p := by
  have hself := mem_states_self h s
  have hlt := (List.getElem?_eq_some_iff.1 hx).1
  have hne : s.log p ≠ [] := by
    rintro hnil; rw [hnil] at hlt; simp at hlt
  obtain ⟨x', hx', hxt'⟩ := getElem?_of_prefix Entry.term hne (List.prefix_refl _)
  rw [← hxt']
  apply le_antisymm
  · exact Run.log_terms hr s hself p hp x' (List.mem_of_getElem? hx')
  · rw [← hxt]
    exact (Run.sourced hnd hf hm hr s hself p hp).2.le hx hx' (by omega)

/-- Where the log has an entry of the request's term, the request reaches the end of the log. -/
theorem Run.request_reaches (hk : ∀ s e, good s e → KeptTails s e) (hr : Run ndebug ids good h s)
    (hok : good s e) (hp : p ∈ ids) {r : AppendEntriesRequest α}
    (hd : s.delivered e = some ⟨p, .appendEntriesRequest r⟩) (ha : Accepts (s.nodes p) r)
    (hne : r.entries ≠ []) (ht : s.term p = r.header.term) {k : Nat} {x : Entry α}
    (hx : (s.log p)[k]? = some x) (hxt : x.term = s.term p) :
    (s.log p).length ≤ r.previousEntry.index + r.entries.length := by
  have hrep := (Run.node_ok hr (mem_states_self h s) hp).rep
  have htail := hk s e hok _ hd ha hne
  rw [hrep.uncommit, infoAt_length_term, infoAt_index hrep.index (le_refl _)] at htail
  exact htail ((Run.lastTerm_eq hnd hf hm hr hp hx hxt).trans ht)

/-- A node keeps what it has of its leader's log for the rest of the term. -/
theorem Run.retained (hk : ∀ s e, good s e → KeptTails s e) (hr : Run ndebug ids good h s) :
    ∀ p ∈ ids, ∀ y ∈ states h s, y.term p = s.term p → ∀ P, Fits ids (states h s) (s.term p) P →
      P <+: y.log p → P <+: s.log p := by
  induction hr with
  | nil =>
    intro p _ y hy _ P _ hP
    obtain rfl : y = _ := by simpa [states] using hy
    exact hP
  | @snoc h s s' e hr hok hs ih =>
    intro p hp y hy ht P hfit hP
    rcases mem_states_cons.1 hy with rfl | hy
    · exact hP
    have hterm : s.term p = s'.term p := by
      have h1 := Run.term_le hr hy p
      have h2 := Run.term_step hr hs p
      simp only [Cluster.term] at ht ⊢
      omega
    have hfit₀ : Fits ids (states h s) (s.term p) P := by
      rw [hterm]; exact hfit.anti fun _ => mem_states_of_mem
    have hPs := ih p hp y hy (ht.trans hterm.symm) P hfit₀ hP
    rcases Run.node_cases hr hs p with heq | ⟨m, hn⟩
    · rw [Cluster.log, heq]; exact hPs
    rcases Run.log_cases hnd hf hm hr hok hn with hlog | ⟨r, z, hz, rfl, ha, hfl, hne, hrt, hlog,
      hlen⟩ | ⟨-, -, x, -, hlog⟩
    · rw [hlog]; exact hPs
    · have hled : Led ids (states h s) (s.term p) (z.log r.header.peerId) :=
        ⟨z, hz, _, hfl.mem, hfl.role, by rw [hterm, hrt, hfl.term], rfl⟩
      rw [hlog]
      rcases hfit₀ _ hled with hpre | ⟨hpre, hbeyond⟩
      · exact hpre
      rcases Nat.lt_or_ge (z.log r.header.peerId).length P.length with hlt | hge
      · -- a shorter log of the same leader would cut off entries of its term
        exfalso
        have hx : P[(z.log r.header.peerId).length]? = some P[(z.log r.header.peerId).length] :=
          List.getElem?_eq_getElem hlt
        have hxs : (s.log p)[(z.log r.header.peerId).length]? =
            some P[(z.log r.header.peerId).length] := by
          rw [hPs.getElem hlt]
          exact List.getElem?_eq_getElem _
        have hd := hn.delivered (by simp)
        have hend := Run.request_reaches hnd hf hm hk hr hok hp hd ha hne (hterm.trans hrt) hxs
          (hbeyond _ _ (le_refl _) hx)
        rw [← hlen, hlog] at hend
        have hle := hPs.length_le
        omega
      · rw [← hpre.eq_of_length_le hge]
    · rw [hlog]
      exact hPs.trans (List.prefix_append _ _)

/-! ## Match indexes -/

omit hnd hf hm in
theorem mem_of_tally {β : Type} {ps : List Peer} {l : List β} {g : β → String × Bool × Nat}
    (ht : ps.map Peer.tally = l.map g) {peer : Peer} (hp : peer ∈ ps) :
    ∃ x ∈ l, (g x).1 = peer.id ∧ (g x).2.2 = peer.matchEntry.index := by
  have hmem := List.mem_map_of_mem (f := Peer.tally) hp
  rw [ht] at hmem
  obtain ⟨x, hx, heq⟩ := List.mem_map.1 hmem
  exact ⟨x, hx, congrArg Prod.fst heq, congrArg (·.2.2) heq⟩

/-- The leader `p` counts peer `q` as having its log up to index `k`. -/
structure Matched (ndebug : Bool) (h : List (Cluster α × Event α)) (s : Cluster α) (p q : String)
    (k : Nat) : Prop where
  le : k ≤ (s.log p).length
  self : q = p → k = (s.log p).length
  acked : q ≠ p → k ≠ 0 → ∃ y ∈ states h s, Acked ndebug h q p y ∧ y.term q = s.term p ∧
    (s.log p).take k <+: y.log q

omit hnd hf hm in
/-- The leader's log grows by `es`. -/
theorem Matched.snoc {k : Nat} {es : List (Entry α)} (hk : Matched ndebug h s p q k)
    (hlog : s'.log p = s.log p ++ es) (ht : s'.term p = s.term p) (hes : q = p → es = []) :
    Matched ndebug ((s, e) :: h) s' p q k where
  le := by
    have := hk.le
    rw [hlog, List.length_append]; omega
  self hq := by rw [hlog, hes hq, List.append_nil]; exact hk.self hq
  acked hq hne := by
    obtain ⟨y, hy, ⟨y₀, e₀, hm, ha⟩, hyt, hpre⟩ := hk.acked hq hne
    refine ⟨y, mem_states_of_mem hy, ⟨y₀, e₀, List.mem_cons_of_mem _ hm, ha⟩, hyt.trans ht.symm, ?_⟩
    rw [hlog, List.take_append_of_le_length hk.le]
    exact hpre

/-- The acknowledgement just counted. -/
theorem Run.matched_ack (hr : Run ndebug ids good h s) (hack : ∀ s e, good s e → MatchingAcks s e)
    (hok : good s e) (hp : p ∈ ids) {r : AppendEntriesResponse} {peer : Peer}
    (hd : s.delivered e = some ⟨p, .appendEntriesResponse r⟩) (hc : Counts (s.nodes p) r peer) :
    Matched ndebug h s p r.header.peerId r.header.logState.uncommit.index := by
  have hself := mem_states_self h s
  obtain ⟨y, hy⟩ := hr.reported (delivered_mem hd) hc.success
  have hrep := (hr.node_ok hself hp).rep
  have hrep' := (hr.node_ok hy.state hy.mem).rep
  have hinfo : infoAt (s.log p) r.header.logState.uncommit.index = r.header.logState.uncommit :=
    hack s e hok _ hd peer hc.found hc
  have hun : r.header.logState.uncommit =
      infoAt (y.log r.header.peerId) (y.log r.header.peerId).length := by
    rw [hy.logState]; exact hrep'.uncommit
  have hlen : r.header.logState.uncommit.index = (y.log r.header.peerId).length := by
    rw [hun]; exact infoAt_index hrep'.index (le_refl _)
  have hle : r.header.logState.uncommit.index ≤ (s.log p).length := by
    by_contra hgt
    obtain ⟨k, hk⟩ : ∃ k, r.header.logState.uncommit.index = k + 1 :=
      ⟨r.header.logState.uncommit.index - 1, by omega⟩
    have hnone : (s.log p)[k]? = none := List.getElem?_eq_none (by omega)
    have := congrArg EntryInfo.index hinfo
    rw [hk, infoAt, hnone] at this
    exact absurd this (Nat.succ_ne_zero k).symm
  refine ⟨hle, fun hq => absurd hq hy.ne, fun _ _ => ⟨y, hy.state, hy.acked, ?_, ?_⟩⟩
  · exact hy.term.symm.trans hc.term
  · have htake : (s.log p).take r.header.logState.uncommit.index =
        (y.log r.header.peerId).take r.header.logState.uncommit.index := by
      refine matching_infoAt (hr.led_chain hnd hf) (hr.sourced hnd hf hm s hself p hp).1
        (hr.sourced hnd hf hm y hy.state _ hy.mem).1 hle (le_of_eq hlen) fun _ => ?_
      rw [hinfo, hlen, ← hun]
    rw [htake]
    exact List.take_prefix _ _

/-- The leader `p` counts no peer as having more of its log than the peer has acknowledged. -/
def AllMatched (ndebug : Bool) (h : List (Cluster α × Event α)) (s : Cluster α) (p : String) :
    Prop :=
  ∀ peer ∈ (s.nodes p).state.knownPeers, Matched ndebug h s p peer.id peer.matchEntry.index

omit hnd hf hm in
theorem AllMatched.same (hall : AllMatched ndebug h s p)
    (hst : (s'.nodes p).storage = (s.nodes p).storage)
    (ht : SameTally (s.nodes p) (s'.nodes p)) : AllMatched ndebug ((s, e) :: h) s' p := by
  intro peer hpeer
  obtain ⟨p₀, hp₀, hid, hmi⟩ := mem_of_tally ht hpeer
  have hlog : s'.log p = s.log p ++ [] := by simp [Cluster.log, hst]
  have hterm : s'.term p = s.term p := by rw [Cluster.term, hst]
  rw [← hid, ← hmi]
  exact (hall p₀ hp₀).snoc hlog hterm fun _ => rfl

omit hnd hf hm in
/-- The node is elected: it counts its own log and nothing of the others'. -/
theorem AllMatched.elected (hrep : (s.nodes p).storage.Rep)
    (hst : (s'.nodes p).storage = (s.nodes p).storage)
    (hmatch : ∀ peer ∈ (s'.nodes p).state.knownPeers, peer.matchEntry.index =
      if peer.id = p then (s.nodes p).storage.uncommit.index else 0) :
    AllMatched ndebug ((s, e) :: h) s' p := by
  intro peer hpeer
  have hlen : (s.nodes p).storage.uncommit.index = (s'.log p).length := by
    rw [hrep.uncommit_index, Cluster.log, hst]
  rw [hmatch peer hpeer]
  by_cases hid : peer.id = p
  · rw [if_pos hid, hlen]
    exact ⟨le_refl _, fun _ => rfl, fun hne => absurd hid hne⟩
  · rw [if_neg hid]
    exact ⟨Nat.zero_le _, fun h => absurd h hid, fun _ h0 => absurd rfl h0⟩

omit hnd hf hm in
/-- An acknowledgement is counted. -/
theorem AllMatched.ack (hall : AllMatched ndebug h s p) {q : String} {k : Nat}
    (hq : Matched ndebug h s p q k) (hlog : s'.log p = s.log p) (hterm : s'.term p = s.term p)
    (ht : (s'.nodes p).state.knownPeers.map Peer.tally =
      (modifyPeer q (Peer.acked k) (s.nodes p).state.knownPeers).map Peer.tally) :
    AllMatched ndebug ((s, e) :: h) s' p := by
  intro peer hpeer
  obtain ⟨p₁, hp₁, hid, hmi⟩ := mem_of_tally ht hpeer
  have hlog : s'.log p = s.log p ++ [] := by rw [hlog, List.append_nil]
  rw [← hid, ← hmi]
  rcases mem_modifyPeer hp₁ with hp₁ | ⟨p₀, -, rfl, rfl⟩
  · exact (hall p₁ hp₁).snoc hlog hterm fun _ => rfl
  · exact hq.snoc hlog hterm fun _ => rfl

omit hnd hf hm in
/-- The leader appends an entry, which it alone has. -/
theorem AllMatched.append (hall : AllMatched ndebug h s p) {data : α}
    (hst : (s'.nodes p).storage = (s.nodes p).storage.appended data)
    (ht : (s'.nodes p).state.knownPeers.map Peer.tally =
      (s.nodes p).state.knownPeers.map fun p' => (p'.id, p'.votedForMe,
        if p'.id = p then (s.nodes p).storage.entries.length + 1 else p'.matchEntry.index)) :
    AllMatched ndebug ((s, e) :: h) s' p := by
  intro peer hpeer
  have hlog : s'.log p = s.log p ++ [⟨⟨(s.log p).length + 1, s.term p⟩, data⟩] := by
    rw [Cluster.log, hst]
    simp only [MemStorage.appended, MemStorage.spliced, splice, List.cons_ne_nil, if_false,
      List.take_length]
  have hterm : s'.term p = s.term p := by rw [Cluster.term, hst]; rfl
  obtain ⟨p₀, hp₀, hid, hmi⟩ := mem_of_tally ht hpeer
  have hmi : (if p₀.id = p then (s.log p).length + 1 else p₀.matchEntry.index) =
      peer.matchEntry.index := hmi
  have hid : p₀.id = peer.id := hid
  rw [← hid, ← hmi]
  by_cases hself : p₀.id = p
  · rw [if_pos hself, hself]
    have hlen : (s.log p).length + 1 = (s'.log p).length := by simp [hlog]
    exact ⟨le_of_eq hlen, fun _ => hlen, fun hne => absurd rfl hne⟩
  · rw [if_neg hself]
    exact (hall p₀ hp₀).snoc hlog hterm fun h => absurd h hself

theorem Run.matched (hack : ∀ s e, good s e → MatchingAcks s e) (hr : Run ndebug ids good h s) :
    ∀ p ∈ ids, s.role p = .leader → AllMatched ndebug h s p := by
  induction hr with
  | nil => intro p _ hl; cases hl
  | @snoc h s s' e hr hok hs ih =>
    intro p hp hl
    have hself := mem_states_self h s
    have now := Trace.snoc hr hok hs
    rcases Run.node_cases hr hs p with heq | ⟨m, hn⟩
    · rw [Cluster.role, heq] at hl
      exact (ih p hp hl).same (by rw [heq]) (by rw [heq]; rfl)
    have hmoves := hn.moves
    generalize hn' : s'.nodes p = n' at hmoves
    rw [Cluster.role, hn'] at hl
    cases hmoves with
    | quiet hst hrole ht =>
      subst hn'
      exact (ih p hp (hrole.symm.trans hl)).same hst ht
    | stepDown _ hrole => rw [hrole] at hl; cases hl
    | candidacy _ hrole => rw [hrole] at hl; cases hl
    | grant _ hrole => rw [hrole] at hl; cases hl
    | vote _ hst _ hrole =>
      subst hn'
      rcases hrole with hcand | ⟨-, -, hmatch⟩
      · rw [hl] at hcand; cases hcand
      exact .elected (Run.node_ok hr hself hp).rep hst hmatch
    | @accept _ r ha hrole hst =>
      -- a request of the leader's own term would be from another leader of it
      exfalso
      subst hn'
      obtain ⟨y, hy, hfl⟩ := Run.request_fromLeader hr hn
      have hterm : s'.term p = r.header.term := by
        rw [Cluster.term, hst, ha.term_accepted]
      exact hfl.ne (Run.leader_unique hnd hf now (mem_states_of_mem hy) (mem_states_self _ _)
        hfl.mem hp hfl.role hl (hfl.term.symm.trans hterm.symm))
    | @ack _ r peer' index hc hrole htally _ hst =>
      subst hn'
      have hd := hn.delivered (by simp)
      refine (ih p hp hc.role).ack (Run.matched_ack hnd hf hm hr hack hok hp hd hc) ?_ ?_ htally
      · rw [Cluster.log, hst]
        split <;> rfl
      · rw [Cluster.term, hst]
        split <;> rfl
    | @append _ r hlead hrole hst htally =>
      subst hn'
      exact (ih p hp hlead).append hst htally

/-! ## The commit rule -/

omit hnd hf hm in
theorem newCommit_spec {ps : List Peer} {index : Nat} (h : Server.newCommit ps = .ok index) :
    ps.length / 2 + 1 ≤ ps.countP (index ≤ ·.matchEntry.index) ∧
      ∀ w, index < w → ps.countP (w ≤ ·.matchEntry.index) ≤ ps.length / 2 := by
  unfold Server.newCommit at h
  split at h
  · rename_i v hv
    cases h
    have hlen : ps.length = (ps.map (·.matchEntry.index)).length := (List.length_map _).symm
    rw [hlen] at hv ⊢
    have := sorted_index_majority hv
    simpa only [List.countP_map, Function.comp_def, List.length_map] using this
  · cases h

omit hnd hf hm in
theorem countP_of_tally {ps ps' : List Peer} (h : ps'.map Peer.tally = ps.map Peer.tally)
    (w : Nat) : ps'.countP (w ≤ ·.matchEntry.index) = ps.countP (w ≤ ·.matchEntry.index) := by
  have := congrArg (List.countP fun t : String × Bool × Nat => decide (w ≤ t.2.2)) h
  rw [List.countP_map, List.countP_map] at this
  exact this

/-- The leader `p` commits up to `k` on the response `r`. -/
structure LeaderCommit (s s' : Cluster α) (p : String) (r : AppendEntriesResponse) (k : Nat) :
    Prop where
  counts : ∃ peer, Counts (s.nodes p) r peer
  role : s'.role p = .leader
  log : s'.log p = s.log p
  term : s'.term p = s.term p
  lt : (s.nodes p).storage.commit.index < k
  le : k ≤ (s.log p).length
  majority : (s'.nodes p).state.knownPeers.length / 2 + 1 ≤
    (s'.nodes p).state.knownPeers.countP (k ≤ ·.matchEntry.index)
  reaches : ∀ w, Reaches (s.nodes p) r w ↔ w ≤ k

/-- The commit index of a leader moves only by the commit rule, to an index it has. -/
theorem Run.leaderCommit (hack : ∀ s e, good s e → MatchingAcks s e)
    (hr : Run ndebug ids good h s) (hok : good s e) (hs : s.step ndebug e = .ok s') (hp : p ∈ ids)
    {r : AppendEntriesResponse} (hd : s.delivered e = some ⟨p, .appendEntriesResponse r⟩)
    (hne : (s'.nodes p).storage.commit.index ≠ (s.nodes p).storage.commit.index) :
    LeaderCommit s s' p r (s'.nodes p).storage.commit.index := by
  have now := Trace.snoc hr hok hs
  rcases hr.node_cases hs p with heq | ⟨m, hn⟩
  · exact absurd (by rw [heq]) hne
  obtain ⟨-, rfl⟩ := hn.target _ hd
  have hmoves := hn.moves
  generalize hn' : s'.nodes p = n' at hmoves hne ⊢
  cases hmoves with
  | quiet hst => exact absurd (by rw [hst]) hne
  | stepDown _ _ hst => exact absurd (by rw [hst]; rfl) hne
  | @ack _ _ peer index hc hrole htally hnew hst =>
    have hlt : (s.nodes p).storage.commit.index < index := by
      by_contra hge
      rw [if_neg hge] at hst
      exact hne (by rw [hst])
    rw [if_pos hlt] at hst
    have hlen : (s.nodes p).state.knownPeers.length = n'.state.knownPeers.length := by
      have h1 := congrArg List.length (hr.node_ok (mem_states_self h s) hp).peers
      have h2 := congrArg List.length (Run.node_ok now (mem_states_self _ s') hp).peers
      rw [hn'] at h2
      simp only [List.length_map] at h1 h2
      omega
    obtain ⟨hmaj, hmax⟩ := newCommit_spec hnew
    have hreach : ∀ w, Reaches (s.nodes p) r w ↔
        n'.state.knownPeers.length / 2 + 1 ≤
          n'.state.knownPeers.countP (w ≤ ·.matchEntry.index) := by
      intro w
      unfold Reaches
      rw [hlen, countP_of_tally htally]
    have hlog : s'.log p = s.log p := by rw [Cluster.log, hn', hst]
    have hrole' : s'.role p = .leader := by rw [Cluster.role, hn', hrole]; exact hc.role
    -- some match index is at least the new one, so the leader has the entry
    have hle : index ≤ (s.log p).length := by
      obtain ⟨peer', hpeer', hge⟩ := List.countP_pos_iff.1 (Nat.lt_of_lt_of_le (Nat.succ_pos _) hmaj)
      have hmat := (Run.matched hnd hf hm hack now p hp hrole' peer' (by rw [hn']; exact hpeer')).le
      rw [hlog] at hmat
      exact (of_decide_eq_true hge).trans hmat
    have hk : n'.storage.commit.index = index := by
      rw [hst]
      show (infoAt _ (min _ index)).index = index
      rw [min_eq_right hle]
      exact infoAt_index (hr.node_ok (mem_states_self h s) hp).rep.index hle
    rw [hk]
    refine ⟨⟨peer, hc⟩, hrole', hlog, by rw [Cluster.term, hn', hst], hlt, hle,
      by rw [hn']; exact hmaj, fun w => ⟨fun hw => ?_, fun hw => (hreach w).2 ?_⟩⟩
    · by_contra hgt
      have := hmax w (by omega)
      have := (hreach w).1 hw
      omega
    · refine hmaj.trans (List.countP_mono_left fun x _ hx => ?_)
      exact decide_eq_true (hw.trans (of_decide_eq_true hx))

/-- A majority, the leader included, has acknowledged what the leader commits. -/
theorem Run.commit_majority (hack : ∀ s e, good s e → MatchingAcks s e)
    (hr : Run ndebug ids good h s) (hp : p ∈ ids) (hl : s.role p = .leader) {k : Nat}
    (hk : k ≠ 0) (hle : k ≤ (s.log p).length)
    (hmaj : (s.nodes p).state.knownPeers.length / 2 + 1 ≤
      (s.nodes p).state.knownPeers.countP (k ≤ ·.matchEntry.index)) :
    ∃ Q, IsMajority ids Q ∧ p ∈ Q ∧ ∀ q ∈ Q, q ≠ p → ∃ y ∈ states h s, Acked ndebug h q p y ∧
      y.term q = s.term p ∧ (s.log p).take k <+: y.log q := by
  have hok := hr.node_ok (mem_states_self h s) hp
  have hmat := hr.matched hnd hf hm hack p hp hl
  refine ⟨_, hok.peers_majority hnd hmaj, ?_, fun q hq hne => ?_⟩
  · obtain ⟨peer, hpeer⟩ := hok.findPeer_of_mem hp
    obtain ⟨hmem, hid⟩ := findPeer_some hpeer
    refine List.mem_toFinset.2 (List.mem_map.2 ⟨peer, List.mem_filter.2 ⟨hmem, ?_⟩, hid⟩)
    rw [(hmat peer hmem).self hid]
    exact decide_eq_true hle
  · obtain ⟨peer, hpeer, rfl⟩ := List.mem_map.1 (List.mem_toFinset.1 hq)
    obtain ⟨hmem, hge⟩ := List.mem_filter.1 hpeer
    have hge : k ≤ peer.matchEntry.index := of_decide_eq_true hge
    obtain ⟨y, hy, hack, hyt, hpre⟩ := (hmat peer hmem).acked hne (by omega)
    exact ⟨y, hy, hack, hyt, (List.take_prefix_take_left hge).trans hpre⟩

end

/-- **What a leader commits is replicated on a majority**, for a run whose steps satisfy
`FreshVotes`, `MatchingPrevious`, `KeptTails` and `MatchingAcks`: when the commit index of a leader
becomes `k` on a response, a majority of the nodes, the leader included, had the leader's entries
up to `k` when they sent it their latest acknowledgement. -/
theorem commit_replicated (hnd : ids.Nodup) (hr : Run ndebug ids (fun s e => FreshVotes s e ∧
      MatchingPrevious s e ∧ KeptTails s e ∧ MatchingAcks s e) h s)
    (hok : FreshVotes s e ∧ MatchingPrevious s e ∧ KeptTails s e ∧ MatchingAcks s e)
    (hs : s.step ndebug e = .ok s') (hp : p ∈ ids) {r : AppendEntriesResponse}
    (hd : s.delivered e = some ⟨p, .appendEntriesResponse r⟩)
    (hne : (s'.nodes p).storage.commit.index ≠ (s.nodes p).storage.commit.index) :
    s.role p = .leader ∧ ∃ Q, IsMajority ids Q ∧ p ∈ Q ∧ ∀ q ∈ Q, q ≠ p →
      ∃ x, lastAck ndebug q p ((s, e) :: h) = some x ∧
        (x.log q).take (s'.nodes p).storage.commit.index =
          (s'.log p).take (s'.nodes p).storage.commit.index := by
  have now := hr.snoc hok hs
  have hself := mem_states_self ((s, e) :: h) s'
  have hf : ∀ (s : Cluster α) e, FreshVotes s e ∧ MatchingPrevious s e ∧ KeptTails s e ∧
    MatchingAcks s e → FreshVotes s e := fun _ _ h => h.1
  have hm : ∀ (s : Cluster α) e, FreshVotes s e ∧ MatchingPrevious s e ∧ KeptTails s e ∧
    MatchingAcks s e → MatchingPrevious s e := fun _ _ h => h.2.1
  have hk : ∀ (s : Cluster α) e, FreshVotes s e ∧ MatchingPrevious s e ∧ KeptTails s e ∧
    MatchingAcks s e → KeptTails s e := fun _ _ h => h.2.2.1
  have hack : ∀ (s : Cluster α) e, FreshVotes s e ∧ MatchingPrevious s e ∧ KeptTails s e ∧
    MatchingAcks s e → MatchingAcks s e := fun _ _ h => h.2.2.2
  have hc := hr.leaderCommit hnd hf hm hack hok hs hp hd hne
  generalize (s'.nodes p).storage.commit.index = k at hc ⊢
  have hle : k ≤ (s'.log p).length := by rw [hc.log]; exact hc.le
  obtain ⟨peer, hcounts⟩ := hc.counts
  obtain ⟨Q, hQ, hpQ, hacked⟩ := Run.commit_majority hnd hf hm hack now hp hc.role
    (Nat.ne_of_gt (Nat.zero_lt_of_lt hc.lt)) hle hc.majority
  refine ⟨hcounts.role, Q, hQ, hpQ, fun q hq hqp => ?_⟩
  have hq' := hQ.subset q hq
  obtain ⟨y, -, ha, hyt, hpre⟩ := hacked q hq hqp
  obtain ⟨x, h', hx, hrx, hyx, ⟨y₁, e₁, hm₁, ha₁, hs₁⟩, hsub⟩ := Run.lastAck_of_acked now ha
  -- the latest acknowledgement is of the leader's term
  have hxt : x.term q = s'.term p := by
    obtain ⟨h₁, y₂, hr₁, -, hs₂, hsub₁, -, -⟩ := Trace.of_mem now hm₁
    obtain ⟨r₁, hd₁, -, hid₁, ht₁⟩ := Run.accepts_of_acknowledges hr₁ ha₁ hs₁ hq'
    obtain ⟨z, hz, hfl⟩ := Run.fromLeader hr₁ (delivered_mem hd₁)
    have h1 := Run.term_le hrx hyx q
    have h2 := Run.term_le now (hsub₁ z hz) p
    have h3 := hfl.term
    rw [hid₁] at h3
    simp only [Cluster.term] at hyt ht₁ h3 ⊢
    omega
  have hfits : Fits ids (states h' x) (x.term q) ((s'.log p).take k) := by
    rw [hxt]
    exact (Run.fits hnd hf now ⟨s', hself, p, hp, hc.role, rfl, rfl⟩ (List.take_prefix _ _)).anti
      hsub
  have hkeep := Run.retained hnd hf hm hk hrx q hq' y hyx (hyt.trans hxt.symm) _ hfits hpre
  refine ⟨x, hx, ?_⟩
  rw [List.prefix_iff_eq_take.1 hkeep, List.length_take, min_eq_left hle]

end

theorem ok_of_toOption {β : Type} {x : Except Fault β} {b : β} (h : b ∈ x.toOption) :
    x = .ok b := by
  cases x with
  | error f => cases h
  | ok a => cases h; rfl

/-- `b` acknowledges the entry of `a`, and `a` commits it. -/
theorem commit_replicated_once : ∃ h, ∃ s s' : Cluster String, Run false ["a", "b", "c"]
    (fun s e => FreshVotes s e ∧ MatchingPrevious s e ∧ KeptTails s e ∧ MatchingAcks s e) h s ∧
    s.step false (.deliver 2) = .ok s' ∧ (s'.nodes "a").storage.commit.index = 1 ∧
    ∃ Q, IsMajority ["a", "b", "c"] Q ∧ "a" ∈ Q ∧ ∀ q ∈ Q, q ≠ "a" →
      ∃ x, lastAck false q "a" ((s, .deliver 2) :: h) = some x ∧
        (x.log q).take 1 = (s'.log "a").take 1 := by
  obtain ⟨h, s, hr, s', hs', hok, ⟨x, hx, hdst, hmsg⟩, h0, h1⟩ := exists_trace
    (Cluster.step (α := String) false)
    (fun s e => FreshVotes s e ∧ MatchingPrevious s e ∧ KeptTails s e ∧ MatchingAcks s e)
    (Cluster.init ["a", "b", "c"])
    [.timeout "a", .deliver 0, .deliver 1, .deliver 1, .deliver 2,
      .clientRequest "a" ⟨"client", "1", "x"⟩, .deliver 2]
    (P := fun _ s => ∃ s' ∈ (s.step false (.deliver 2)).toOption,
      (FreshVotes s (.deliver 2) ∧ MatchingPrevious s (.deliver 2) ∧ KeptTails s (.deliver 2) ∧
        MatchingAcks s (.deliver 2)) ∧
      (∃ x ∈ s.delivered (.deliver 2), x.destination = "a" ∧ x.message.isAck = true) ∧
      (s.nodes "a").storage.commit.index = 0 ∧ (s'.nodes "a").storage.commit.index = 1)
    (by decide +kernel)
  have hs := ok_of_toOption hs'
  obtain ⟨dst, msg⟩ := x
  subst hdst
  cases msg with
  | appendEntriesResponse r =>
    have := commit_replicated (by decide) hr hok hs (by decide) hx (by rw [h0, h1]; decide)
    rw [h1] at this
    exact ⟨h, s, s', hr, hs, h1, this.2⟩
  | _ => cases hmsg

/-- `a` acknowledges with an entry of term 1 below the entry of `c`, and `c` commits both of its
own. -/
theorem commit_replicated_violated : ∃ h, ∃ s s' : Cluster String,
    Run false ["a", "b", "c"] (fun _ e => e.isDuplicate = false) h s ∧
    s.step false (.deliver 7) = .ok s' ∧
    (∃ r, s.delivered (.deliver 7) = some ⟨"c", .appendEntriesResponse r⟩) ∧
    (s.nodes "c").storage.commit.index = 0 ∧ (s'.nodes "c").storage.commit.index = 2 ∧
    ¬ ∃ Q, IsMajority ["a", "b", "c"] Q ∧ ∀ q ∈ Q, q ≠ "c" →
      ∃ x, lastAck false q "c" ((s, .deliver 7) :: h) = some x ∧
        (x.log q).take 2 = (s'.log "c").take 2 := by
  obtain ⟨h, s, hr, s', hs', ⟨x, hx, hdst, hmsg⟩, h0, h2, hno⟩ := exists_trace
    (Cluster.step (α := String) false) (fun _ e => e.isDuplicate = false)
    (Cluster.init ["a", "b", "c"])
    [.timeout "a", .deliver 0, .deliver 1, .clientRequest "a" ⟨"client", "1", "x"⟩, .timeout "c",
      .timeout "c", .deliver 6, .deliver 6, .deliver 6, .deliver 7,
      .clientRequest "c" ⟨"client", "1", "y"⟩, .clientRequest "c" ⟨"client", "2", "z"⟩,
      .deliver 7]
    (P := fun h s => ∃ s' ∈ (s.step false (.deliver 7)).toOption,
      (∃ x ∈ s.delivered (.deliver 7), x.destination = "c" ∧ x.message.isAck = true) ∧
      (s.nodes "c").storage.commit.index = 0 ∧ (s'.nodes "c").storage.commit.index = 2 ∧
      ∀ q ∈ ["a", "b"], ∀ x ∈ lastAck false q "c" ((s, .deliver 7) :: h),
        (x.log q).take 2 ≠ (s'.log "c").take 2)
    (by decide +kernel)
  have hs := ok_of_toOption hs'
  obtain ⟨dst, msg⟩ := x
  subst hdst
  cases msg with
  | appendEntriesResponse r =>
    refine ⟨h, s, s', hr, hs, ⟨r, hx⟩, h0, h2, fun ⟨Q, hQ, hall⟩ => ?_⟩
    -- a majority has a node other than `c`
    obtain ⟨q, hq, hqc⟩ : ∃ q ∈ Q, q ≠ "c" := by
      by_contra hnone
      have hsub : Q ⊆ {"c"} := fun q hq => by
        by_contra hqc
        exact hnone ⟨q, hq, by simpa using hqc⟩
      have := Finset.card_le_card hsub
      have := hQ.card
      simp at *
      omega
    have hmem : q ∈ ["a", "b"] := by
      have := hQ.subset q hq
      simp_all
    obtain ⟨x, hx, htake⟩ := hall q hq hqc
    exact hno q hmem x hx htake
  | _ => cases hmsg

end Raft
