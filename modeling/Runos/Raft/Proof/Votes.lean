import Runos.Lib.Trace
import Runos.Raft.Proof.Election

/-!
# The votes of one node

A single node under arbitrary inputs: timers, client requests and messages that any known peer
could send, the node's own id included, whether or not a cluster ever sends them. The handler of a
vote request does not read `voted_for`. A vote is given only in a step that raises the term
(`Server.handle_votes`), and terms never decrease, so a term has one vote
(`one_vote_per_term`).
-/

namespace Raft

open Runs

variable {α : Type}

/-- A message comes from a known peer, and the entries of an append request continue at
`previous_entry`; everything else in it is arbitrary. -/
def FromPeer (ids : List String) : Message α → Prop
  | .voteRequest r => r.header.peerId ∈ ids
  | .voteResponse r => r.header.peerId ∈ ids
  | .appendEntriesRequest r =>
    r.header.peerId ∈ ids ∧ Consecutive r.previousEntry.index r.entries
  | .appendEntriesResponse r => r.header.peerId ∈ ids
  | .clientRequest _ => True

def Input.FromPeers (ids : List String) (input : Input α) : Prop :=
  ∀ m, input = .message m → FromPeer ids m

/-- A run of the node `id` with the known peers `ids`. -/
abbrev NodeRun (ndebug : Bool) (id : String) (ids : List String)
    (h : List (Server α × Input α)) (n : Server α) : Prop :=
  Trace (Server.step ndebug) (fun _ input => input.FromPeers ids) (Server.init id ids) h n

/-- The step sends `c` a granted vote of term `t`, or makes the node, which is `c`, a candidate of
term `t`. -/
def GivesVote (ndebug : Bool) (n : Server α) (input : Input α) (t : Nat) (c : String) : Prop :=
  ∃ n' cbs, n.handle ndebug input = .ok (n', cbs) ∧
    ((∃ r, .send c (.voteResponse r) ∈ cbs ∧ r.voteGranted = true ∧ r.header.term = t) ∨
      n'.state.role = .candidate ∧
        (n.state.role ≠ .candidate ∨ n.storage.currentTerm ≠ n'.storage.currentTerm) ∧
        n'.storage.currentTerm = t ∧ c = n.state.id)

/-! ## One step -/

section
variable {ids : List String} {id : String} {n : Server α} {ndebug : Bool} {input : Input α}

/-- What a handler that returned has done, whatever it took. -/
structure Acted (ids : List String) (id : String) (n : Server α) (o : Outcome α) : Prop where
  ok : o.1.Ok ids id
  moves : ∃ m, Moves id n m o.1
  votes : ∀ x ∈ sends o.2, ∀ r, x.message = .voteResponse r → r.voteGranted = true →
    n.storage.currentTerm < r.header.term ∧ o.1.storage.currentTerm = r.header.term ∧
      o.1.storage.votedFor = x.destination

theorem Handled.acted {m : Option (Message α)} {o : Outcome α} (h : Handled ids id n m o) :
    Acted ids id n o := by
  refine ⟨h.ok, ⟨m, h.moves⟩, ?_⟩
  rintro ⟨q, msg⟩ hx r rfl hg
  obtain ⟨⟨-, -, -, hv⟩, ha⟩ := h.sent _ hx
  obtain ⟨ht, hvote⟩ := hv hg
  obtain ⟨req, -, hgr, -, hreq⟩ := ha hg
  refine ⟨?_, ht.symm, hvote⟩
  rw [← hreq]
  exact hgr.term

theorem Replied.acted {m : Message α} {header : MessageHeader} {o : Outcome α}
    (h : Replied ids id n m header o) : Acted ids id n o := by
  refine ⟨h.ok, ⟨_, h.moves⟩, ?_⟩
  rintro ⟨q, msg⟩ hx r rfl -
  exact (h.sent _ hx).2.2.1.elim

/-- An input is handled, or the assertion on the commit terms fails. -/
theorem handle_acted (ndebug : Bool) (hn : n.Ok ids id) (hi : input.FromPeers ids) :
    (∃ o, n.handle ndebug input = .ok o ∧ Acted ids id n o) ∨
      n.handle ndebug input = .error .assertion := by
  cases input with
  | timeout => exact .inl ⟨_, rfl, (timeout_handled hn).acted⟩
  | minimumTimeout => exact .inl ⟨_, rfl, (onMinimumTimeoutRequest_handled hn).acted⟩
  | clientRequest r =>
    obtain ⟨o, ho, hd⟩ := onClientRequest_handled hn r
    exact .inl ⟨o, ho, hd.acted⟩
  | message m =>
    have hm := hi m rfl
    cases m with
    | voteRequest r => exact .inl ⟨_, rfl, (onVoteRequest_handled hn r).acted⟩
    | voteResponse r =>
      obtain ⟨o, ho, hd⟩ := onVoteResponse_handled hn hm
      exact .inl ⟨o, ho, hd.acted⟩
    | appendEntriesRequest r =>
      change (∃ o, n.onAppendEntriesRequest ndebug r = .ok o ∧ _) ∨
        n.onAppendEntriesRequest ndebug r = _
      cases h : n.onAppendEntriesRequest ndebug r with
      | ok o => exact .inl ⟨o, rfl, (onAppendEntriesRequest_replied hn hm.2 h).acted⟩
      | error f => exact .inr (by rw [onAppendEntriesRequest_fault hn hm.2 h])
    | appendEntriesResponse r =>
      obtain ⟨o, ho, hd⟩ := onAppendEntriesResponse_replied hn r
      exact .inl ⟨o, ho, hd.acted⟩
    | clientRequest r =>
      obtain ⟨o, ho, hd⟩ := onClientRequest_handled hn r
      exact .inl ⟨o, ho, hd.acted⟩

theorem step_acted {n' : Server α} (hn : n.Ok ids id) (hi : input.FromPeers ids)
    (hs : n.step ndebug input = .ok n') :
    ∃ cbs, n.handle ndebug input = .ok (n', cbs) ∧ Acted ids id n (n', cbs) := by
  rw [Server.step] at hs
  rcases handle_acted ndebug hn hi with ⟨⟨n₁, cbs⟩, ho, ha⟩ | hf
  · rw [ho] at hs
    cases hs
    exact ⟨cbs, ho, ha⟩
  · rw [hf] at hs
    cases hs

/-- A node becomes a candidate by raising its term and voting for itself. -/
theorem Moves.candidate {n' : Server α} {m : Option (Message α)} (h : Moves id n m n')
    (hc : n'.state.role = .candidate)
    (hnew : n.state.role ≠ .candidate ∨ n.storage.currentTerm ≠ n'.storage.currentTerm) :
    n.storage.currentTerm < n'.storage.currentTerm ∧ n'.storage.votedFor = id := by
  have stays : n'.state.role = n.state.role →
      n'.storage.currentTerm = n.storage.currentTerm → False := by
    intro hrole hterm
    rw [← hrole, hterm] at hnew
    exact hnew.elim (fun h => h hc) fun h => h rfl
  cases h with
  | quiet hst hrole => exact (stays hrole (by rw [hst])).elim
  | stepDown _ hrole => rw [hrole] at hc; cases hc
  | candidacy _ _ hst => rw [hst]; exact ⟨Nat.lt_succ_self _, rfl⟩
  | grant _ hrole => rw [hrole] at hc; cases hc
  | vote hv hst => exact (stays (hc.trans hv.role.symm) (by rw [hst])).elim
  | accept ha hrole hst =>
    have hlt : ¬ n.storage.currentTerm < _ := fun hlt => by
      rw [hrole, if_pos hlt] at hc
      cases hc
    rw [if_neg hlt] at hrole
    exact (stays hrole (by rw [hst, accepted_currentTerm, if_neg hlt])).elim
  | ack _ hrole _ _ hst => exact (stays hrole (by rw [hst]; split <;> rfl)).elim
  | append _ hrole => rw [hrole] at hc; cases hc

/-- **A vote raises the term** to the term of the vote, and is what `voted_for` holds then. -/
theorem Server.handle_votes (hn : n.Ok ids id) (hi : input.FromPeers ids) {t : Nat} {c : String}
    (hv : GivesVote ndebug n input t c) :
    ∃ n', n.step ndebug input = .ok n' ∧ n.storage.currentTerm < t ∧
      n'.storage.currentTerm = t ∧ n'.storage.votedFor = c := by
  obtain ⟨n', cbs, ho, hv⟩ := hv
  have hs : n.step ndebug input = .ok n' := by rw [Server.step, ho]; rfl
  obtain ⟨cbs', ho', ha⟩ := step_acted hn hi hs
  cases ho.symm.trans ho'
  refine ⟨n', hs, ?_⟩
  rcases hv with ⟨r, hr, hg, rfl⟩ | ⟨hc, hnew, rfl, rfl⟩
  · refine ha.votes ⟨c, .voteResponse r⟩ ?_ r rfl hg
    exact List.mem_filterMap.2 ⟨_, hr, rfl⟩
  · obtain ⟨m, hm⟩ := ha.moves
    obtain ⟨hlt, hvote⟩ := hm.candidate hc hnew
    exact ⟨hlt, rfl, hvote.trans hn.id.symm⟩

end

/-! ## Runs -/

section
variable {ids : List String} {id : String} {n : Server α} {ndebug : Bool}
  {h : List (Server α × Input α)}

theorem NodeRun.ok (hr : NodeRun ndebug id ids h n) : n.Ok ids id := by
  refine hr.invariant_state (init_ok ids id) fun n input n' hn hi hs => ?_
  obtain ⟨cbs, -, ha⟩ := step_acted hn hi hs
  exact ha.ok

theorem NodeRun.term_le (hr : NodeRun ndebug id ids h n) :
    ∀ x ∈ states h n, x.storage.currentTerm ≤ n.storage.currentTerm := by
  induction hr with
  | nil =>
    intro x hx
    obtain rfl : x = _ := by simpa [states] using hx
    exact le_refl _
  | @snoc h n n' input hr hi hs ih =>
    intro x hx
    rcases mem_states_cons.1 hx with rfl | hx
    · exact le_refl _
    · obtain ⟨cbs, -, ha⟩ := step_acted (NodeRun.ok hr) hi hs
      obtain ⟨m, hm⟩ := ha.moves
      exact (ih x hx).trans hm.term_le

/-- A vote of the past: the term it raised the node to is not above the present one. -/
theorem NodeRun.vote (hr : NodeRun ndebug id ids h n) {y : Server α} {input : Input α}
    (hm : (y, input) ∈ h) {t : Nat} {c : String} (hv : GivesVote ndebug y input t c) :
    t ≤ n.storage.currentTerm ∧ ∃ y', y.step ndebug input = .ok y' ∧
      y'.storage.currentTerm = t ∧ y'.storage.votedFor = c := by
  obtain ⟨h₀, y', hr₀, hi, hs, -, hy', -⟩ := Trace.of_mem hr hm
  obtain ⟨y'', hs', -, ht, hvote⟩ := Server.handle_votes (NodeRun.ok hr₀) hi hv
  cases hs.symm.trans hs'
  exact ⟨ht ▸ hr.term_le y' hy', y', hs, ht, hvote⟩

theorem NodeRun.vote_unique (hr : NodeRun ndebug id ids h n) {t : Nat} {c c' : String} :
    (∃ y i, (y, i) ∈ h ∧ GivesVote ndebug y i t c) →
    (∃ y i, (y, i) ∈ h ∧ GivesVote ndebug y i t c') → c = c' := by
  induction hr with
  | nil => rintro ⟨_, _, hm, -⟩; cases hm
  | @snoc h n n' input hr hi hs ih =>
    -- a vote of the last step is of a term no earlier step has reached
    have fresh : ∀ {c c' : String}, GivesVote ndebug n input t c →
        (∃ y i, (y, i) ∈ h ∧ GivesVote ndebug y i t c') → False := by
      rintro c c' hv ⟨y, i, hm, hv'⟩
      obtain ⟨-, -, hlt, -⟩ := Server.handle_votes (NodeRun.ok hr) hi hv
      exact absurd (NodeRun.vote hr hm hv').1 (Nat.not_le.2 hlt)
    rintro ⟨y, i, hm, hv⟩ ⟨y', i', hm', hv'⟩
    rcases List.mem_cons.1 hm with heq | hm <;> rcases List.mem_cons.1 hm' with heq' | hm'
    · cases heq
      cases heq'
      obtain ⟨n₁, hs₁, -, -, hc⟩ := Server.handle_votes (NodeRun.ok hr) hi hv
      obtain ⟨n₂, hs₂, -, -, hc'⟩ := Server.handle_votes (NodeRun.ok hr) hi hv'
      cases hs₁.symm.trans hs₂
      rw [← hc, ← hc']
    · cases heq
      exact (fresh hv ⟨y', i', hm', hv'⟩).elim
    · cases heq'
      exact (fresh hv' ⟨y, i, hm, hv⟩).elim
    · exact ih ⟨y, i, hm, hv⟩ ⟨y', i', hm', hv'⟩

/-- **One vote per term**, for a node under arbitrary inputs. Only a failed assertion ends a
run. -/
theorem one_vote_per_term (hr : NodeRun ndebug id ids h n) :
    (∀ x ∈ states h n, x.storage.currentTerm ≤ n.storage.currentTerm) ∧
    (∀ t c c', (∃ y i, (y, i) ∈ h ∧ GivesVote ndebug y i t c) →
      (∃ y i, (y, i) ∈ h ∧ GivesVote ndebug y i t c') → c = c') ∧
    (∀ y i, (y, i) ∈ h → ∀ t c, GivesVote ndebug y i t c →
      ∃ y', y.step ndebug i = .ok y' ∧ y'.storage.currentTerm = t ∧ y'.storage.votedFor = c) ∧
    ∀ i, i.FromPeers ids → ∀ f, n.step ndebug i = .error f → f = .assertion := by
  refine ⟨hr.term_le, fun t c c' => hr.vote_unique, fun y i hm t c hv => (hr.vote hm hv).2, ?_⟩
  intro i hi f hf
  rcases handle_acted ndebug hr.ok hi with ⟨o, ho, -⟩ | ha
  · rw [Server.step, ho] at hf; cases hf
  · rw [Server.step, ha] at hf; cases hf; rfl

end

/-- `a` stands for term 1, then gives `b` its vote of term 2, which `c` cannot get. -/
theorem one_vote_per_term_candidate_and_voter :
    ∃ (h : List (Server String × Input String)) (n : Server String),
      NodeRun false "a" ["a", "b", "c"] h n ∧
      (∃ y i, (y, i) ∈ h ∧ GivesVote false y i 1 "a") ∧
      (∃ y i, (y, i) ∈ h ∧ GivesVote false y i 2 "b") ∧
      ∀ c, (∃ y i, (y, i) ∈ h ∧ GivesVote false y i 2 c) → c = "b" := by
  let request : Message String := .voteRequest ⟨⟨"b", "a", 1, 2, ⟨⟨0, 0⟩, ⟨0, 0⟩⟩⟩⟩
  let n₀ : Server String := .init "a" ["a", "b", "c"]
  let n₁ : Server String := n₀.onTimeoutRequest.1
  have hr₁ : NodeRun false "a" ["a", "b", "c"] [(n₀, .timeout)] n₁ :=
    Trace.nil.snoc (fun _ hm => nomatch hm) rfl
  have hr : NodeRun false "a" ["a", "b", "c"] [(n₁, .message request), (n₀, .timeout)]
      (n₁.onVoteRequest ⟨⟨"b", "a", 1, 2, ⟨⟨0, 0⟩, ⟨0, 0⟩⟩⟩⟩).1 := by
    refine hr₁.snoc ?_ rfl
    rintro m ⟨⟩
    show "b" ∈ ["a", "b", "c"]
    simp
  have hvote : ∃ y i, (y, i) ∈ [(n₁, .message request), (n₀, .timeout)] ∧
      GivesVote false y i 2 "b" := by
    refine ⟨n₁, .message request, by simp, _, _, rfl,
      .inl ⟨⟨n₁.header "b" 1 2, true⟩, ?_, rfl, rfl⟩⟩
    exact List.mem_cons_of_mem _ List.mem_cons_self
  refine ⟨_, _, hr, ⟨n₀, .timeout, by simp, _, _, rfl, .inr ⟨rfl, ?_, rfl, rfl⟩⟩, hvote,
    fun c hc => ?_⟩
  · exact .inl (by decide)
  · exact (one_vote_per_term hr).2.1 2 c "b" hc hvote

end Raft
