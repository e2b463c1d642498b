import Runos.Raft.Cluster
import Runos.Raft.Proof.Storage

/-!
# What a handler does

`Moves id n m n'` lists everything a handler can do to a node: `n'` is the node after `n` took the
message `m` (or a timer event, `none`). `Sent ids n x` says what the node `n` that has just sent
`x` is like. `Handled` collects both with the invariant of a node, `Server.Ok`; each handler has
one theorem that gives it, and everything the later modules prove about a step is derived from
these.
-/

namespace Raft

variable {α : Type}

/-- The node `id` of a cluster `ids`: its own id, one peer record per id, and a storage in the
representation of `MemStorage.Rep`. -/
structure Server.Ok (ids : List String) (id : String) (n : Server α) : Prop where
  id : n.state.id = id
  peers : n.state.knownPeers.map (·.id) = ids
  rep : n.storage.Rep

/-- The part of a peer record the votes and the commit rule read. -/
def Peer.tally (p : Peer) : String × Bool × Nat := (p.id, p.votedForMe, p.matchEntry.index)

/-- The tallies of the peers are unchanged. -/
def SameTally (n n' : Server α) : Prop :=
  n'.state.knownPeers.map Peer.tally = n.state.knownPeers.map Peer.tally

/-- A node that has sent `x` in a cluster `ids`. -/
def Sent (ids : List String) (n : Server α) (x : Envelope α) : Prop :=
  x.destination ∈ ids ∧ match x.message with
  | .voteRequest r =>
    r.header.peerId = n.state.id ∧ r.header.destinationId = x.destination ∧
      n.state.role = .candidate ∧ r.header.term = n.storage.currentTerm ∧
      r.header.logState = n.storage.logState
  | .voteResponse r =>
    r.header.peerId = n.state.id ∧ r.header.destinationId = x.destination ∧
      (r.voteGranted = true →
        r.header.term = n.storage.currentTerm ∧ n.storage.votedFor = x.destination)
  | .appendEntriesRequest r =>
    r.header.peerId = n.state.id ∧ r.header.destinationId = x.destination ∧
      x.destination ≠ n.state.id ∧ n.state.role = .leader ∧
      r.header.term = n.storage.currentTerm ∧ r.header.logState = n.storage.logState ∧
      (r.entries ≠ [] → r.previousEntry.index ≤ n.storage.entries.length ∧
        r.previousEntry = infoAt n.storage.entries r.previousEntry.index ∧
        r.entries = n.storage.entries.drop r.previousEntry.index)
  | .appendEntriesResponse r =>
    r.header.peerId = n.state.id ∧ r.header.destinationId = x.destination ∧
      x.destination ≠ n.state.id ∧ (r.success = true →
        r.header.term = n.storage.currentTerm ∧ r.header.logState = n.storage.logState)
  | .clientRequest _ => True

/-! ## The moves -/

/-- The storage after `step_down`. -/
def MemStorage.steppedDown (st : MemStorage α) (t : Nat) : MemStorage α :=
  { st with currentTerm := t, votedFor := "" }

/-- The node takes the append request `r`: the sender passes for the leader of a term that is not
over, and `previous_entry` lies between the commit index and the end of the log. -/
structure Accepts (n : Server α) (r : AppendEntriesRequest α) : Prop where
  destination : r.header.destinationId = n.state.id
  term : n.storage.currentTerm ≤ r.header.term
  leader : n.storage.currentTerm = r.header.term →
    n.state.leaderId = r.header.peerId ∨ n.state.leaderId = ""
  commit : n.storage.commit.index ≤ r.previousEntry.index
  uncommit : r.previousEntry.index ≤ n.storage.uncommit.index

/-- The storage after an accepted append request. -/
def MemStorage.accepted (st : MemStorage α) (r : AppendEntriesRequest α) : MemStorage α :=
  let st := if st.currentTerm < r.header.term then st.steppedDown r.header.term else st
  let st := st.spliced r.previousEntry.index r.entries
  if st.commit.index < r.header.logState.commit.index then
    { st with commit := infoAt st.entries (min st.entries.length r.header.logState.commit.index) }
  else
    st

/-- The storage of a leader after a client request. -/
def MemStorage.appended (st : MemStorage α) (data : α) : MemStorage α :=
  st.spliced st.entries.length [⟨⟨st.entries.length + 1, st.currentTerm⟩, data⟩]

/-- The leader takes the successful response `r` into account. -/
structure Counts (n : Server α) (r : AppendEntriesResponse) (peer : Peer) : Prop where
  found : n.state.findPeer r.header.peerId = some peer
  waiting : peer.waitingForResponse = true
  messageId : peer.lastMessageId = r.header.messageId
  term : r.header.term = n.storage.currentTerm
  role : n.state.role = .leader
  success : r.success = true
  raises : peer.matchEntry.index < r.header.logState.uncommit.index

/-- The candidate counts the vote `r`. -/
structure CountsVote (n : Server α) (r : VoteResponse) (peer : Peer) : Prop where
  found : n.state.findPeer r.header.peerId = some peer
  waiting : peer.waitingForResponse = true
  role : n.state.role = .candidate
  granted : r.voteGranted = true
  term : r.header.term ≤ n.storage.currentTerm

/-- The voter grants the request `r`. -/
structure Grants (n : Server α) (r : VoteRequest) : Prop where
  timeout : n.state.minimumTimeoutReached = true
  term : n.storage.currentTerm < r.header.term
  uncommit : n.storage.uncommit.index ≤ r.header.logState.uncommit.index

/-- A positive answer `x` answers a request `m` the node `n` takes. -/
def Answers (n : Server α) (m : Option (Message α)) (x : Envelope α) : Prop :=
  match x.message with
  | .voteResponse r => r.voteGranted = true → ∃ q, m = some (.voteRequest q) ∧ Grants n q ∧
      q.header.peerId = x.destination ∧ q.header.term = r.header.term
  | .appendEntriesResponse r => r.success = true → ∃ q, m = some (.appendEntriesRequest q) ∧
      Accepts n q ∧ q.header.peerId = x.destination ∧ q.header.term = r.header.term
  | _ => True

/-- The peer record once `index` is acknowledged. -/
def Peer.acked (index : Nat) (p : Peer) : Peer :=
  { p with
    nextEntry := { p.nextEntry with index := max p.nextEntry.index (index + 1) }
    matchEntry := { p.matchEntry with index } }

/-- Everything a handler of node `id` can do (module doc). -/
inductive Moves (id : String) (n : Server α) : Option (Message α) → Server α → Prop
  /-- Nothing but timers and bookkeeping. -/
  | quiet {m : Option (Message α)} {n' : Server α} :
      n'.storage = n.storage → n'.state.role = n.state.role → SameTally n n' → Moves id n m n'
  | stepDown {m : Option (Message α)} {n' : Server α} {t : Nat} :
      n.storage.currentTerm < t → n'.state.role = .follower →
      n'.storage = n.storage.steppedDown t → Moves id n m n'
  | candidacy {n' : Server α} :
      n.state.role ≠ .leader → n'.state.role = .candidate →
      n'.storage = { n.storage with currentTerm := n.storage.currentTerm + 1, votedFor := id } →
      (∀ p ∈ n'.state.knownPeers, p.votedForMe = true → p.id = id) → Moves id n none n'
  | grant {n' : Server α} {r : VoteRequest} :
      Grants n r → n'.state.role = .follower →
      n'.storage =
        { n.storage with currentTerm := r.header.term, votedFor := r.header.peerId } →
      Moves id n (some (.voteRequest r)) n'
  | vote {n' : Server α} {r : VoteResponse} {peer : Peer} :
      CountsVote n r peer → n'.storage = n.storage →
      (∀ p ∈ n'.state.knownPeers, p.votedForMe = true → p.id = r.header.peerId ∨
        ∃ p₀ ∈ n.state.knownPeers, p₀.id = p.id ∧ p₀.votedForMe = true) →
      (n'.state.role = .candidate ∨ n'.state.role = .leader ∧ n'.hasMajority ∧
        ∀ p ∈ n'.state.knownPeers,
          p.matchEntry.index = if p.id = id then n.storage.uncommit.index else 0) →
      Moves id n (some (.voteResponse r)) n'
  | accept {n' : Server α} {r : AppendEntriesRequest α} :
      Accepts n r →
      n'.state.role = (if n.storage.currentTerm < r.header.term then .follower
        else n.state.role) →
      n'.storage = n.storage.accepted r →
      (¬ n.storage.currentTerm < r.header.term → SameTally n n') →
      Moves id n (some (.appendEntriesRequest r)) n'
  | ack {n' : Server α} {r : AppendEntriesResponse} {peer : Peer} {index : Nat} :
      Counts n r peer → n'.state.role = n.state.role →
      n'.state.knownPeers.map Peer.tally =
        (modifyPeer r.header.peerId (Peer.acked r.header.logState.uncommit.index)
          n.state.knownPeers).map Peer.tally →
      Server.newCommit n'.state.knownPeers = .ok index →
      n'.storage = (if n.storage.commit.index < index then
        { n.storage with
          commit := infoAt n.storage.entries (min n.storage.entries.length index) }
        else n.storage) →
      Moves id n (some (.appendEntriesResponse r)) n'
  | append {n' : Server α} {r : ClientRequest α} :
      n.state.role = .leader → n'.state.role = .leader →
      n'.storage = n.storage.appended r.data →
      n'.state.knownPeers.map Peer.tally = n.state.knownPeers.map (fun p =>
        (p.id, p.votedForMe,
          if p.id = id then n.storage.entries.length + 1 else p.matchEntry.index)) →
      Moves id n (some (.clientRequest r)) n'

/-- A handler of node `id` that took `m` and returned. -/
structure Handled (ids : List String) (id : String) (n : Server α) (m : Option (Message α))
    (o : Outcome α) : Prop where
  ok : o.1.Ok ids id
  moves : Moves id n m o.1
  sent : ∀ x ∈ sends o.2, Sent ids o.1 x ∧ Answers n m x

/-- A message a handler does not fault on. -/
def MessageOk (ids : List String) : Message α → Prop
  | .voteResponse r => r.header.peerId ∈ ids
  | .appendEntriesRequest r =>
    r.header.peerId ≠ r.header.destinationId ∧ Consecutive r.previousEntry.index r.entries
  | .appendEntriesResponse r => r.header.peerId ≠ r.header.destinationId
  | _ => True

/-! ## Peers and sends -/

theorem map_modifyPeer {β : Type} {g : Peer → β} {f : Peer → Peer} (hf : ∀ p, g (f p) = g p)
    (id : String) : ∀ ps : List Peer, (modifyPeer id f ps).map g = ps.map g
  | [] => rfl
  | p :: ps => by
    simp only [modifyPeer]
    split
    · simp [hf]
    · simp [map_modifyPeer hf id ps]

theorem mem_modifyPeer {f : Peer → Peer} {id : String} {p : Peer} :
    ∀ {ps : List Peer}, p ∈ modifyPeer id f ps → p ∈ ps ∨ ∃ p₀ ∈ ps, p₀.id = id ∧ p = f p₀
  | [], h => by simp [modifyPeer] at h
  | q :: ps, h => by
    simp only [modifyPeer] at h
    split at h
    · rename_i hq
      rcases List.mem_cons.1 h with rfl | h
      · exact .inr ⟨q, by simp, by simpa using hq, rfl⟩
      · exact .inl (by simp [h])
    · rcases List.mem_cons.1 h with rfl | h
      · exact .inl (by simp)
      · rcases mem_modifyPeer h with h | ⟨p₀, h₀, hid, rfl⟩
        · exact .inl (by simp [h])
        · exact .inr ⟨p₀, by simp [h₀], hid, rfl⟩

section
variable {ids : List String} {id q : String} {n : Server α}

theorem findPeer_some {peer : Peer} (h : n.state.findPeer q = some peer) :
    peer ∈ n.state.knownPeers ∧ peer.id = q :=
  ⟨List.mem_of_find?_eq_some h, by simpa using List.find?_some h⟩

theorem Server.Ok.mem_ids (hn : n.Ok ids id) {peer : Peer} (h : peer ∈ n.state.knownPeers) :
    peer.id ∈ ids := by
  rw [← hn.peers]
  exact List.mem_map_of_mem h

theorem Server.Ok.mem_of_findPeer (hn : n.Ok ids id) (h : n.state.findPeer q ≠ none) :
    q ∈ ids := by
  obtain ⟨peer, hp⟩ := Option.ne_none_iff_exists'.1 h
  obtain ⟨hm, rfl⟩ := findPeer_some hp
  exact hn.mem_ids hm

theorem Server.Ok.findPeer_of_mem (hn : n.Ok ids id) (h : q ∈ ids) :
    ∃ peer, n.state.findPeer q = some peer := by
  rw [← hn.peers] at h
  obtain ⟨peer, hm, rfl⟩ := List.mem_map.1 h
  cases hf : n.state.findPeer peer.id with
  | some p => exact ⟨p, rfl⟩
  | none =>
    have := List.find?_eq_none.1 hf peer hm
    simp at this

end

@[simp] theorem sends_nil : sends ([] : List (Callback α)) = [] := rfl

@[simp] theorem sends_append (cs cs' : List (Callback α)) :
    sends (cs ++ cs') = sends cs ++ sends cs' := by simp [sends]

@[simp] theorem sends_send (q : String) (m : Message α) (cs : List (Callback α)) :
    sends (.send q m :: cs) = ⟨q, m⟩ :: sends cs := rfl

@[simp] theorem sends_drop (q : String) (cs : List (Callback α)) :
    sends (.drop q :: cs) = sends cs := rfl

@[simp] theorem sends_setHeartbeatTimeout (cs : List (Callback α)) :
    sends (.setHeartbeatTimeout :: cs) = sends cs := rfl

@[simp] theorem sends_setFollowerTimeout (cs : List (Callback α)) :
    sends (.setFollowerTimeout :: cs) = sends cs := rfl

@[simp] theorem sends_setCandidateTimeout (cs : List (Callback α)) :
    sends (.setCandidateTimeout :: cs) = sends cs := rfl

@[simp] theorem sends_setMinimumTimeout (cs : List (Callback α)) :
    sends (.setMinimumTimeout :: cs) = sends cs := rfl

@[simp] theorem sends_newLeaderElected (q : String) (cs : List (Callback α)) :
    sends (.newLeaderElected q :: cs) = sends cs := rfl

@[simp] theorem sends_commitAdvanced (k : Nat) (cs : List (Callback α)) :
    sends (.commitAdvanced k :: cs) = sends cs := rfl

theorem mem_sends_broadcast {id : String} {peers : List Peer} {message : Peer → Message α}
    {x : Envelope α} (h : x ∈ sends (Server.broadcast id peers message)) :
    ∃ p ∈ peers, p.id ≠ id ∧ x = ⟨p.id, message p⟩ := by
  simp only [sends, Server.broadcast, List.mem_filterMap, List.mem_map, List.mem_filter,
    bne_iff_ne, ne_eq] at h
  obtain ⟨_, ⟨p, ⟨hp, hne⟩, rfl⟩, hx⟩ := h
  simp only [Option.some.injEq] at hx
  exact ⟨p, hp, hne, hx.symm⟩

/-! ## Timers -/

section
variable {ids : List String} {id : String} {n : Server α}

theorem onTimeoutRequest_handled (hn : n.Ok ids id) (hr : n.state.role ≠ .leader) :
    Handled ids id n none n.onTimeoutRequest where
  ok := by
    refine ⟨hn.id, ?_, (hn.rep.setCurrentTerm _).setVotedFor _⟩
    rw [← hn.peers]
    simp only [Server.onTimeoutRequest, List.map_map]
    refine List.map_congr_left fun p _ => ?_
    simp only [Function.comp]
    split <;> rfl
  moves := by
    refine .candidacy hr rfl (by rw [← hn.id]; rfl) fun p hp hv => ?_
    simp only [Server.onTimeoutRequest, List.mem_map] at hp
    obtain ⟨_, ⟨p₀, hp₀, rfl⟩, rfl⟩ := hp
    by_cases h : p₀.id = n.state.id
    · simp [h, hn.id]
    · simp [h] at hv
      exact absurd hv.symm h
  sent := by
    intro x hx
    simp only [Server.onTimeoutRequest, sends_append, sends_setCandidateTimeout, sends_nil,
      List.append_nil] at hx
    obtain ⟨p, hp, hne, rfl⟩ := mem_sends_broadcast hx
    refine ⟨⟨?_, rfl, rfl, rfl, rfl, rfl⟩, trivial⟩
    simp only [List.mem_map] at hp
    obtain ⟨_, ⟨p₀, hp₀, rfl⟩, rfl⟩ := hp
    split <;> exact hn.mem_ids hp₀

theorem onHeartbeatRequest_handled (hn : n.Ok ids id) (hr : n.state.role = .leader) :
    Handled ids id n none n.onHeartbeatRequest where
  ok := by
    refine ⟨hn.id, ?_, hn.rep⟩
    rw [← hn.peers]
    simp only [Server.onHeartbeatRequest, List.map_map]
    refine List.map_congr_left fun p _ => ?_
    simp only [Function.comp]
    split <;> rfl
  moves := by
    refine .quiet rfl rfl ?_
    simp only [SameTally, Server.onHeartbeatRequest, List.map_map]
    refine List.map_congr_left fun p _ => ?_
    simp only [Function.comp]
    split <;> rfl
  sent := by
    intro x hx
    simp only [Server.onHeartbeatRequest, sends_append, sends_setHeartbeatTimeout, sends_nil,
      List.append_nil] at hx
    obtain ⟨p, hp, hne, rfl⟩ := mem_sends_broadcast hx
    refine ⟨⟨?_, rfl, rfl, hne, hr, rfl, rfl, fun h => absurd rfl h⟩, trivial⟩
    simp only [List.mem_map] at hp
    obtain ⟨p₀, hp₀, rfl⟩ := hp
    split <;> exact hn.mem_ids hp₀

theorem timeout_handled (hn : n.Ok ids id) : Handled ids id n none n.timeout := by
  unfold Server.timeout
  split
  · rename_i hr; exact onHeartbeatRequest_handled hn hr
  · rename_i hr; exact onTimeoutRequest_handled hn hr

theorem onMinimumTimeoutRequest_handled (hn : n.Ok ids id) :
    Handled ids id n none (n.onMinimumTimeoutRequest, []) where
  ok := ⟨hn.id, hn.peers, hn.rep⟩
  moves := .quiet rfl rfl rfl
  sent := by simp

end

end Raft
