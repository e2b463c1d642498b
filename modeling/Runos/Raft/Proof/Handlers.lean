import Runos.Lib.Trace
import Runos.Raft.Proof.Node

/-!
# The message handlers

`Handled` for every handler of a message: the node keeps `Server.Ok`, it makes one of the
`Moves`, and every message it sends is `Sent` by the node it has become. The only fault left is
the assertion of `on(AppendEntriesRequest)` (`receive_handled`).

`Replied` is the form of `Handled` for append messages that may come from the node itself.
-/

namespace Raft

open Runs

variable {α : Type} {ids : List String} {id : String} {n : Server α}

/-! ## Stepping down and marking a peer -/

theorem stepDown_role (n : Server α) (t : Nat) : (n.stepDown t).state.role = .follower := by
  unfold Server.stepDown
  dsimp only
  split
  · rfl
  · rename_i h; exact Classical.not_not.1 h

theorem stepDown_id (n : Server α) (t : Nat) : (n.stepDown t).state.id = n.state.id := by
  unfold Server.stepDown
  dsimp only
  split <;> rfl

theorem stepDown_ok (hn : n.Ok ids id) (t : Nat) : (n.stepDown t).Ok ids id where
  id := by rw [stepDown_id]; exact hn.id
  peers := by
    rw [← hn.peers]
    unfold Server.stepDown
    dsimp only
    split
    · rw [List.map_map]; rfl
    · rfl
  rep := (hn.rep.setCurrentTerm t).setVotedFor ""

theorem modifyPeer_ok (hn : n.Ok ids id) {q : String} {f : Peer → Peer}
    (hf : ∀ p, (f p).id = p.id) : (n.modifyPeer q f).Ok ids id :=
  ⟨hn.id, by rw [← hn.peers]; exact map_modifyPeer hf q _, hn.rep⟩

theorem modifyPeer_tally (n : Server α) {q : String} {f : Peer → Peer}
    (hf : ∀ p, (f p).tally = p.tally) : SameTally n (n.modifyPeer q f) := map_modifyPeer hf q _

/-! ## Replies to append messages -/

def Message.IsAppend : Message α → Prop
  | .appendEntriesRequest _ | .appendEntriesResponse _ => True
  | _ => False

/-- A handler that took the append message `m` with this header, from a peer that may be the node
itself, and returned: it answers that peer, when the message was for the node. -/
structure Replied (ids : List String) (id : String) (n : Server α) (m : Message α)
    (header : MessageHeader) (o : Outcome α) : Prop where
  ok : o.1.Ok ids id
  moves : Moves id n (some m) o.1
  sent : ∀ x ∈ sends o.2, header.destinationId = id ∧ x.destination = header.peerId ∧
    x.message.IsAppend ∧ (header.peerId ≠ id → Sent ids o.1 x) ∧ Answers n (some m) x

theorem Replied.handled {m : Message α} {header : MessageHeader} {o : Outcome α}
    (h : Replied ids id n m header o) (hne : header.peerId ≠ header.destinationId) :
    Handled ids id n (some m) o := by
  refine ⟨h.ok, h.moves, fun x hx => ?_⟩
  obtain ⟨hd, -, -, hsent, hans⟩ := h.sent x hx
  exact ⟨hsent (hd ▸ hne), hans⟩

theorem Replied.silent {m : Message α} {header : MessageHeader} {o : Outcome α}
    (hok : o.1.Ok ids id) (hmoves : Moves id n (some m) o.1) (hs : sends o.2 = []) :
    Replied ids id n m header o := ⟨hok, hmoves, by simp [hs]⟩

/-! ## `on(VoteRequest)` -/

/-- The request is answered by `n₁`, the node with the candidate's record marked. -/
theorem answerVote_handled {n₁ : Server α} (hn₁ : n₁.Ok ids id) (r : VoteRequest)
    (hst : n₁.storage = n.storage) (hrole : n₁.state.role = n.state.role) (ht : SameTally n n₁)
    (hmin : n₁.state.minimumTimeoutReached = n.state.minimumTimeoutReached)
    (hc : r.header.peerId ∈ ids) :
    Handled ids id n (some (.voteRequest r)) (n₁.answerVote r) := by
  have hquiet : Moves id n (some (.voteRequest r)) n₁ := .quiet hst hrole ht
  have hsd := stepDown_ok hn₁ r.header.term
  unfold Server.answerVote
  dsimp only
  split
  · exact ⟨hn₁, hquiet, by simp⟩
  rename_i hto
  split
  · refine ⟨hn₁, hquiet, fun x hx => ?_⟩
    simp only [sends_send, sends_nil, List.mem_singleton] at hx
    subst hx
    exact ⟨⟨hc, rfl, rfl, fun h => by cases h⟩, fun h => by cases h⟩
  rename_i hterm
  rw [hst] at hterm
  split
  · rename_i hidx
    have hg : Grants n r :=
      ⟨by rw [← hmin]; simpa using hto, by omega, by rw [← hst]; exact hidx⟩
    have hmax : max n₁.storage.currentTerm r.header.term = r.header.term := by rw [hst]; omega
    refine ⟨⟨hsd.id, hsd.peers, hsd.rep.setVotedFor _⟩, ?_, fun x hx => ?_⟩
    · refine .grant hg (stepDown_role _ _) ?_
      rw [← hst]; rfl
    · simp only [sends_setFollowerTimeout, sends_send, sends_nil, List.mem_singleton] at hx
      subst hx
      exact ⟨⟨hc, (stepDown_id n₁ _).symm, rfl, fun _ => ⟨hmax, rfl⟩⟩,
        fun _ => ⟨r, rfl, hg, rfl, hmax.symm⟩⟩
  · refine ⟨⟨hsd.id, hsd.peers, hsd.rep⟩, ?_, fun x hx => ?_⟩
    · refine .stepDown (t := r.header.term) (by omega) (stepDown_role _ _) ?_
      rw [← hst]; rfl
    · simp only [sends_send, sends_nil, List.mem_singleton] at hx
      subst hx
      exact ⟨⟨hc, (stepDown_id n₁ _).symm, rfl, fun h => by cases h⟩, fun h => by cases h⟩

theorem onVoteRequest_handled (hn : n.Ok ids id) (r : VoteRequest) :
    Handled ids id n (some (.voteRequest r)) (n.onVoteRequest r) := by
  unfold Server.onVoteRequest
  dsimp only
  split
  · exact ⟨hn, .quiet rfl rfl rfl, by simp⟩
  · rename_i h
    have hc : r.header.peerId ∈ ids := hn.mem_of_findPeer fun he => h (.inr he)
    split
    · refine answerVote_handled (n := n) ?_ r rfl rfl ?_ rfl hc
      · exact modifyPeer_ok hn fun _ => rfl
      · exact modifyPeer_tally n fun _ => rfl
    · exact answerVote_handled hn r rfl rfl rfl rfl hc

/-! ## `on(AppendEntriesRequest)` -/

/-- The storage once the entries and the commit index of `r` are taken, in the term of `r`. -/
def MemStorage.taken (st : MemStorage α) (r : AppendEntriesRequest α) : MemStorage α :=
  let st := st.spliced r.previousEntry.index r.entries
  if st.commit.index < r.header.logState.commit.index then
    { st with commit := infoAt st.entries (min st.entries.length r.header.logState.commit.index) }
  else
    st

theorem MemStorage.Rep.taken {st : MemStorage α} {r : AppendEntriesRequest α} (h : st.Rep)
    (hprev : r.previousEntry.index ≤ st.entries.length)
    (hes : Consecutive r.previousEntry.index r.entries)
    (hc : st.commit.index ≤ r.previousEntry.index) : (st.taken r).Rep := by
  have hrep := h.spliced hprev hes hc
  unfold MemStorage.taken
  dsimp only
  split
  · exact hrep.commit_of (Nat.min_le_left _ _)
  · exact hrep

theorem taken_currentTerm (st : MemStorage α) (r : AppendEntriesRequest α) :
    (st.taken r).currentTerm = st.currentTerm := by
  unfold MemStorage.taken
  dsimp only
  split <;> rfl

/-- **What `acceptEntries` returns**: the sender is dropped or declined and nothing changes, or
`previous_entry` is in range and the request is taken, unless the assertion on the commit terms
fails. -/
theorem acceptEntries_cases {ndebug : Bool} {r : AppendEntriesRequest α}
    {response : AppendEntriesResponse} {x : Except Fault (Outcome α)} (hn : n.storage.Rep)
    (hes : Consecutive r.previousEntry.index r.entries)
    (h : n.acceptEntries ndebug r response = x) :
    x = .ok (n, [.drop r.header.peerId]) ∨
    x = .ok (n, [.send r.header.peerId (.appendEntriesResponse response)]) ∨
    (n.storage.commit.index ≤ r.previousEntry.index ∧
        r.previousEntry.index ≤ n.storage.uncommit.index) ∧
      (x = .error .assertion ∨
        ∃ cbs, x = .ok ({ state := { n.state with minimumTimeoutReached := false },
                          storage := n.storage.taken r }, cbs) ∧
          sends cbs = [⟨r.header.peerId, .appendEntriesResponse
            { header := { response.header with logState := (n.storage.taken r).logState }
              success := true }⟩]) := by
  unfold Server.acceptEntries at h
  simp only [EntryInfo.ne_eq_true, true_and] at h
  split at h
  · exact .inl h.symm
  rename_i hlow
  split at h
  · exact .inr (.inl h.symm)
  rename_i hhigh
  have hlow' : n.storage.commit.index ≤ r.previousEntry.index := Nat.le_of_not_lt hlow
  have hhigh' : r.previousEntry.index ≤ n.storage.uncommit.index := Nat.le_of_not_lt hhigh
  refine .inr (.inr ⟨⟨hlow', hhigh'⟩, ?_⟩)
  have hprev : r.previousEntry.index ≤ n.storage.entries.length := by
    rw [← hn.uncommit_index]; exact hhigh'
  have hrep := hn.spliced hprev hes hlow'
  simp only [hn.append hprev hes, bind, Except.bind] at h
  split at h
  · rename_i hadv
    split at h
    · exact .inl h.symm
    · simp only [hrep.commitUntil] at h
      have htaken : n.storage.taken r = _ := if_pos hadv
      rw [htaken]
      exact .inr ⟨_, h.symm, rfl⟩
  · rename_i hadv
    have htaken : n.storage.taken r = _ := if_neg hadv
    rw [htaken]
    exact .inr ⟨_, h.symm, rfl⟩

/-- `n₁` is the node `n` once it takes the sender of `r` for its leader. -/
structure Follows (ids : List String) (id : String) (n : Server α) (r : AppendEntriesRequest α)
    (n₁ : Server α) : Prop where
  ok : n₁.Ok ids id
  term : n.storage.currentTerm ≤ r.header.term
  leader : n.storage.currentTerm = r.header.term →
    n.state.leaderId = r.header.peerId ∨ n.state.leaderId = ""
  storage : n₁.storage = if n.storage.currentTerm < r.header.term then
    n.storage.steppedDown r.header.term else n.storage
  role : n₁.state.role = if n.storage.currentTerm < r.header.term then .follower
    else n.state.role
  tally : ¬ n.storage.currentTerm < r.header.term → SameTally n n₁

section
variable {r : AppendEntriesRequest α} {n₁ : Server α}

theorem Follows.of_lt (hn : n.Ok ids id) (hlt : n.storage.currentTerm < r.header.term)
    (leaderId : String) : Follows ids id n r
      { n.stepDown r.header.term with
        state := { (n.stepDown r.header.term).state with leaderId } } where
  ok :=
    let hsd := stepDown_ok hn r.header.term
    ⟨hsd.id, hsd.peers, hsd.rep⟩
  term := Nat.le_of_lt hlt
  leader he := absurd he (Nat.ne_of_lt hlt)
  storage := by rw [if_pos hlt]; rfl
  role := by rw [if_pos hlt]; exact stepDown_role _ _
  tally h := absurd hlt h

theorem Follows.of_eq (hn : n.Ok ids id) (heq : n.storage.currentTerm = r.header.term)
    (hl : n.state.leaderId = r.header.peerId ∨ n.state.leaderId = "") (leaderId : String) :
    Follows ids id n r { n with state := { n.state with leaderId } } where
  ok := ⟨hn.id, hn.peers, hn.rep⟩
  term := Nat.le_of_eq heq
  leader _ := hl
  storage := by rw [if_neg (by omega)]
  role := by rw [if_neg (by omega)]
  tally _ := rfl

theorem Follows.commit (h : Follows ids id n r n₁) : n₁.storage.commit = n.storage.commit := by
  rw [h.storage]; split <;> rfl

theorem Follows.uncommit (h : Follows ids id n r n₁) :
    n₁.storage.uncommit = n.storage.uncommit := by
  rw [h.storage]; split <;> rfl

theorem Follows.currentTerm (h : Follows ids id n r n₁) :
    n₁.storage.currentTerm = r.header.term := by
  have hle := h.term
  rw [h.storage]
  split
  · rfl
  · omega

/-- A request that is not taken changes nothing but the term. -/
theorem Follows.moves (h : Follows ids id n r n₁) :
    Moves id n (some (.appendEntriesRequest r)) n₁ := by
  have hst := h.storage
  have hrole := h.role
  by_cases hlt : n.storage.currentTerm < r.header.term
  · rw [if_pos hlt] at hst hrole
    exact .stepDown hlt hrole hst
  · rw [if_neg hlt] at hst hrole
    exact .quiet hst hrole (h.tally hlt)

end

/-- **The start of the handler**: the request is not for this node or comes from no peer, its term
is over, its sender is not the leader of the term, or the node follows the sender (`n₁`) and goes
on with `acceptEntries`. -/
theorem onAppendEntriesRequest_cases (ndebug : Bool) (hn : n.Ok ids id)
    (r : AppendEntriesRequest α) :
    (¬ (r.header.destinationId = n.state.id ∧ n.state.findPeer r.header.peerId ≠ none) ∧
      n.onAppendEntriesRequest ndebug r = .ok (n, [.drop r.header.peerId])) ∨
    (r.header.destinationId = n.state.id ∧ n.state.findPeer r.header.peerId ≠ none) ∧
      (r.header.term < n.storage.currentTerm ∧
        n.onAppendEntriesRequest ndebug r = .ok (n, [.send r.header.peerId
          (.appendEntriesResponse
            ⟨n.header r.header.peerId r.header.messageId n.storage.currentTerm, false⟩)]) ∨
      (n.storage.currentTerm = r.header.term ∧ n.state.leaderId ≠ r.header.peerId ∧
          n.state.leaderId ≠ "") ∧
        n.onAppendEntriesRequest ndebug r = .ok (n, [.drop r.header.peerId]) ∨
      ∃ n₁ cbs, Follows ids id n r n₁ ∧ n₁.state.leaderId = r.header.peerId ∧ sends cbs = [] ∧
        n.onAppendEntriesRequest ndebug r =
          (n₁.acceptEntries ndebug r
            ⟨n.header r.header.peerId r.header.messageId r.header.term, false⟩).map
              fun o => (o.1, cbs ++ o.2)) := by
  have hnil : ∀ x : Except Fault (Outcome α), x = x.map fun o => (o.1, [] ++ o.2) := by
    rintro (f | o) <;> rfl
  have hcons : ∀ (x : Except Fault (Outcome α)) (cb : Callback α),
      (x >>= fun o => Except.ok (o.1, cb :: o.2)) = x.map fun o => (o.1, [cb] ++ o.2) := by
    rintro (f | o) cb <;> rfl
  unfold Server.onAppendEntriesRequest
  dsimp only
  split
  · rename_i hdest
    refine .inl ⟨fun ⟨hd, hf⟩ => ?_, rfl⟩
    exact hdest.elim (fun h => h hd) hf
  rename_i hdest
  refine .inr ⟨⟨?_, fun h => hdest (.inr h)⟩, ?_⟩
  · by_contra hne
    exact hdest (.inl hne)
  split
  · rename_i hlt
    rw [Nat.max_eq_left hlt.le]
    exact .inl ⟨hlt, rfl⟩
  rename_i hge
  rw [Nat.max_eq_right (Nat.le_of_not_lt hge)]
  refine .inr ?_
  split
  · rename_i hlt
    split
    · exact .inr ⟨_, [.newLeaderElected r.header.peerId], .of_lt hn hlt r.header.peerId, rfl, rfl,
        hcons _ _⟩
    · rename_i hsame
      exact .inr ⟨_, [], .of_lt hn hlt _, Classical.not_not.1 hsame, rfl, hnil _⟩
  rename_i hnlt
  have heq : n.storage.currentTerm = r.header.term := by omega
  split
  · rename_i hother
    split
    · rename_i hempty
      exact .inr ⟨_, [.newLeaderElected r.header.peerId],
        .of_eq hn heq (.inr hempty) r.header.peerId, rfl, rfl, hcons _ _⟩
    · rename_i hleader
      exact .inl ⟨⟨heq, hother, hleader⟩, rfl⟩
  · rename_i hsame
    have hsame := Classical.not_not.1 hsame
    exact .inr ⟨_, [], .of_eq hn heq (.inl hsame) _, hsame, rfl, hnil _⟩

/-- A node that follows the sender takes, declines or drops the request. -/
theorem acceptEntries_replied {ndebug : Bool} {r : AppendEntriesRequest α} {n₁ : Server α}
    {o : Outcome α}
    (h : n₁.acceptEntries ndebug r
      ⟨n.header r.header.peerId r.header.messageId r.header.term, false⟩ = .ok o)
    (hf : Follows ids id n r n₁) (hid : n.state.id = id)
    (hes : Consecutive r.previousEntry.index r.entries) (hl : r.header.peerId ∈ ids)
    (hd : r.header.destinationId = n.state.id) :
    Replied ids id n (.appendEntriesRequest r) r.header o := by
  have hpeer : n.state.id = n₁.state.id := hid.trans hf.ok.id.symm
  have hd' : r.header.destinationId = id := hd.trans hid
  obtain hx | hx | ⟨⟨hlow, hhigh⟩, hx | ⟨cbs, hx, hs⟩⟩ := acceptEntries_cases hf.ok.rep hes h
  · cases hx
    exact .silent hf.ok hf.moves rfl
  · cases hx
    refine ⟨hf.ok, hf.moves, fun x hx => ?_⟩
    simp only [sends_send, sends_nil, List.mem_singleton] at hx
    subst hx
    refine ⟨hd', rfl, trivial, fun hne => ?_, fun h => by cases h⟩
    exact ⟨hl, hpeer, rfl, by rw [hf.ok.id]; exact hne, fun h => by cases h⟩
  · cases hx
  · cases hx
    have hacc : Accepts n r :=
      ⟨hd, hf.term, hf.leader, by rwa [← hf.commit], by rwa [← hf.uncommit]⟩
    have hprev : r.previousEntry.index ≤ n₁.storage.entries.length := by
      rwa [← hf.ok.rep.uncommit_index]
    have hst : n₁.storage.taken r = n.storage.accepted r := by rw [hf.storage]; rfl
    refine ⟨⟨hf.ok.id, hf.ok.peers, hf.ok.rep.taken hprev hes hlow⟩,
      .accept hacc hf.role hst hf.tally, fun x hx => ?_⟩
    rw [hs, List.mem_singleton] at hx
    subst hx
    refine ⟨hd', rfl, trivial, fun hne => ?_, fun _ => ⟨r, rfl, hacc, rfl, rfl⟩⟩
    refine ⟨hl, hpeer, rfl, by rw [show _ = id from hf.ok.id]; exact hne, fun _ => ⟨?_, rfl⟩⟩
    show r.header.term = (n₁.storage.taken r).currentTerm
    rw [taken_currentTerm, hf.currentTerm]

theorem onAppendEntriesRequest_replied {ndebug : Bool} {r : AppendEntriesRequest α}
    {o : Outcome α} (hn : n.Ok ids id) (hes : Consecutive r.previousEntry.index r.entries)
    (h : n.onAppendEntriesRequest ndebug r = .ok o) :
    Replied ids id n (.appendEntriesRequest r) r.header o := by
  have hdrop : Replied ids id n (.appendEntriesRequest r) r.header
      (n, [.drop r.header.peerId]) := .silent hn (.quiet rfl rfl rfl) rfl
  rcases onAppendEntriesRequest_cases ndebug hn r with ⟨-, hx⟩ | ⟨⟨hd, hf⟩, ⟨-, hx⟩ | ⟨-, hx⟩ |
    ⟨n₁, cbs, hfol, -, hcbs, hx⟩⟩
  · cases h.symm.trans hx
    exact hdrop
  · cases h.symm.trans hx
    have hd' : r.header.destinationId = id := hd.trans hn.id
    refine ⟨hn, .quiet rfl rfl rfl, fun x hx => ?_⟩
    simp only [sends_send, sends_nil, List.mem_singleton] at hx
    subst hx
    refine ⟨hd', rfl, trivial, fun hne => ?_, fun h => by cases h⟩
    exact ⟨hn.mem_of_findPeer hf, rfl, rfl, by rw [hn.id]; exact hne, fun h => by cases h⟩
  · cases h.symm.trans hx
    exact hdrop
  · rw [h] at hx
    cases ha : n₁.acceptEntries ndebug r
        ⟨n.header r.header.peerId r.header.messageId r.header.term, false⟩ with
    | error f => rw [ha] at hx; cases hx
    | ok o₁ =>
      rw [ha] at hx
      cases hx
      have := acceptEntries_replied ha hfol hn.id hes (hn.mem_of_findPeer hf) hd
      exact ⟨this.ok, this.moves, by simpa [hcbs] using this.sent⟩

theorem onAppendEntriesRequest_fault {ndebug : Bool} {r : AppendEntriesRequest α} {f : Fault}
    (hn : n.Ok ids id) (hes : Consecutive r.previousEntry.index r.entries)
    (h : n.onAppendEntriesRequest ndebug r = .error f) : f = .assertion := by
  rcases onAppendEntriesRequest_cases ndebug hn r with ⟨-, hx⟩ | ⟨-, ⟨-, hx⟩ | ⟨-, hx⟩ |
    ⟨n₁, cbs, hfol, -, -, hx⟩⟩
  · cases h.symm.trans hx
  · cases h.symm.trans hx
  · cases h.symm.trans hx
  · rw [h] at hx
    obtain ha | ha | ⟨-, ha | ⟨cbs, ha, -⟩⟩ := acceptEntries_cases hfol.ok.rep hes
      (rfl : n₁.acceptEntries ndebug r _ = _)
    · rw [ha] at hx; cases hx
    · rw [ha] at hx; cases hx
    · rw [ha] at hx; cases hx; rfl
    · rw [ha] at hx; cases hx

/-! ## `on(VoteResponse)` -/

theorem becomeLeader_peers (n : Server α) :
    n.becomeLeader.1.state.knownPeers = n.state.knownPeers.map fun p =>
      let p := { p with
        waitingForResponse := true
        nextEntry := { p.nextEntry with index := n.storage.uncommit.index + 1 }
        matchEntry := { p.matchEntry with index := 0 } }
      if p.id == n.state.id then { p with matchEntry := n.storage.uncommit }
      else { p with lastMessageId := p.lastMessageId + 1 } := rfl

/-- Becoming leader keeps the ids and the votes and resets the match indexes. -/
theorem becomeLeader_tally (hid : n.state.id = id) {p : Peer}
    (hp : p ∈ n.becomeLeader.1.state.knownPeers) :
    ∃ p₀ ∈ n.state.knownPeers, p.id = p₀.id ∧ p.votedForMe = p₀.votedForMe ∧
      p.matchEntry.index = if p.id = id then n.storage.uncommit.index else 0 := by
  rw [becomeLeader_peers, List.mem_map] at hp
  obtain ⟨p₀, hp₀, rfl⟩ := hp
  refine ⟨p₀, hp₀, ?_⟩
  by_cases h : p₀.id = n.state.id
  · simp [h, hid]
  · have h' : ¬ p₀.id = id := by rwa [← hid]
    simp [h, h']

theorem becomeLeader_ok (hn : n.Ok ids id) : n.becomeLeader.1.Ok ids id where
  id := hn.id
  peers := by
    rw [← hn.peers, becomeLeader_peers, List.map_map]
    refine List.map_congr_left fun p _ => ?_
    simp only [Function.comp]
    split <;> rfl
  rep := hn.rep

theorem becomeLeader_majority (h : n.hasMajority) : n.becomeLeader.1.hasMajority := by
  unfold Server.hasMajority at h ⊢
  rw [becomeLeader_peers, List.length_map, List.countP_map]
  refine h.trans (List.countP_mono_left fun p _ hv => ?_)
  simp only [Function.comp]
  split <;> exact hv

theorem becomeLeader_sent (hn : n.Ok ids id) {n₀ : Server α} {m : Option (Message α)}
    {x : Envelope α} (hx : x ∈ sends n.becomeLeader.2) :
    Sent ids n.becomeLeader.1 x ∧ Answers n₀ m x := by
  have hmem : ∃ p ∈ n.becomeLeader.1.state.knownPeers, p.id ≠ n.state.id ∧
      x = ⟨p.id, .appendEntriesRequest
        { header := n.header p.id p.lastMessageId n.storage.currentTerm
          previousEntry := n.storage.uncommit
          entries := [] }⟩ := by
    apply mem_sends_broadcast
    simp only [Server.becomeLeader, sends_append, sends_setMinimumTimeout,
      sends_setHeartbeatTimeout, sends_nil, List.append_nil, List.mem_append] at hx
    rcases hx with hx | hx
    · split at hx <;> simp at hx
    · exact hx
  obtain ⟨p, hp, hne, rfl⟩ := hmem
  exact ⟨⟨(becomeLeader_ok hn).mem_ids hp, rfl, rfl, hne, rfl, rfl, rfl, fun h => absurd rfl h⟩,
    trivial⟩

theorem onVoteResponse_handled (hn : n.Ok ids id) {r : VoteResponse} (hv : r.header.peerId ∈ ids) :
    ∃ o, n.onVoteResponse r = .ok o ∧ Handled ids id n (some (.voteResponse r)) o := by
  obtain ⟨peer, hp⟩ := hn.findPeer_of_mem hv
  have hidle : ∀ cbs : List (Callback α), sends cbs = [] →
      Handled ids id n (some (.voteResponse r)) (n, cbs) := fun cbs h =>
    ⟨hn, .quiet rfl rfl rfl, by simp [h]⟩
  unfold Server.onVoteResponse
  simp only [hp]
  split
  · split
    · exact ⟨_, rfl, hidle _ rfl⟩
    · exact ⟨_, rfl, hidle _ rfl⟩
  rename_i hguard
  simp only [ne_eq, not_or, Bool.not_eq_false] at hguard
  split
  · rename_i hlt
    exact ⟨_, rfl, stepDown_ok hn _, .stepDown hlt (stepDown_role _ _) rfl, by simp⟩
  rename_i hterm
  split
  · exact ⟨_, rfl, hidle _ rfl⟩
  rename_i hcount
  simp only [ne_eq, not_or, not_not, Bool.not_eq_false] at hcount
  have hcv : CountsVote n r peer := ⟨hp, hguard.2, hcount.1, hcount.2, Nat.le_of_not_lt hterm⟩
  have hn₁ : (n.modifyPeer r.header.peerId
      ({ · with waitingForResponse := false, votedForMe := true })).Ok ids id :=
    modifyPeer_ok hn fun _ => rfl
  have hvotes : ∀ p ∈ (n.modifyPeer r.header.peerId
      ({ · with waitingForResponse := false, votedForMe := true })).state.knownPeers,
      p.votedForMe = true → p.id = r.header.peerId ∨
        ∃ p₀ ∈ n.state.knownPeers, p₀.id = p.id ∧ p₀.votedForMe = true := by
    intro p hp hv
    rcases mem_modifyPeer hp with hp | ⟨p₀, hp₀, hid, rfl⟩
    · exact .inr ⟨p, hp, rfl, hv⟩
    · exact .inl hid
  split
  · rename_i hmaj
    refine ⟨_, rfl, becomeLeader_ok hn₁, ?_, fun x hx => becomeLeader_sent hn₁ hx⟩
    refine .vote hcv rfl (fun p hp hv => ?_)
      (.inr ⟨rfl, becomeLeader_majority hmaj, fun p hp => ?_⟩)
    · obtain ⟨p₀, hp₀, hid, hv₀, -⟩ := becomeLeader_tally hn₁.id hp
      rw [hid]
      exact hvotes p₀ hp₀ (by rw [← hv₀]; exact hv)
    · obtain ⟨p₀, -, -, -, hm⟩ := becomeLeader_tally hn₁.id hp
      exact hm
  · exact ⟨_, rfl, hn₁, .vote hcv rfl hvotes (.inl hcount.1), by simp⟩

/-! ## `on(AppendEntriesResponse)` -/

/-- What a node has sent depends on its id, its role and its storage only. -/
theorem Sent.congr {n n' : Server α} {x : Envelope α} (h : Sent ids n x)
    (hid : n'.state.id = n.state.id) (hrole : n'.state.role = n.state.role)
    (hst : n'.storage = n.storage) : Sent ids n' x := by
  unfold Sent
  rw [hid, hrole, hst]
  exact h

/-- Marking a peer before changing it is a change of one peer. -/
theorem modifyPeer_modifyPeer {f g : Peer → Peer} (hg : ∀ p, (g p).id = p.id) (q : String) :
    ∀ ps : List Peer, modifyPeer q f (modifyPeer q g ps) = modifyPeer q (f ∘ g) ps
  | [] => rfl
  | p :: ps => by
    simp only [modifyPeer]
    split
    · rename_i h; simp [modifyPeer, hg, h]
    · rename_i h; simp [modifyPeer, h, modifyPeer_modifyPeer hg q ps]

theorem map_modifyPeer_congr {β : Type} {t : Peer → β} {f g : Peer → Peer}
    (h : ∀ p, t (f p) = t (g p)) (q : String) :
    ∀ ps : List Peer, (modifyPeer q f ps).map t = (modifyPeer q g ps).map t
  | [] => rfl
  | p :: ps => by
    simp only [modifyPeer]
    split
    · simp [h]
    · simp [map_modifyPeer_congr h q ps]

theorem newCommit_ok {ps : List Peer} (h : ps ≠ []) : ∃ index, Server.newCommit ps = .ok index := by
  have hpos := List.length_pos_iff.2 h
  have hlt : ps.length / 2 <
      ((ps.map (·.matchEntry.index)).insertionSort (· ≥ ·)).length := by
    rw [List.length_insertionSort, List.length_map]; omega
  exact ⟨_, by rw [Server.newCommit, List.getElem?_eq_getElem hlt]⟩

/-- The leader's entries from `index` on, with the info of the entry before them. -/
theorem sent_entries (hn : n.storage.Rep) {index : Nat} {prev : EntryInfo}
    (hp : n.storage.entries.drop index ≠ [] → prev = infoAt n.storage.entries index) :
    n.storage.entries.drop index ≠ [] → prev.index ≤ n.storage.entries.length ∧
      prev = infoAt n.storage.entries prev.index ∧
      n.storage.entries.drop index = n.storage.entries.drop prev.index := by
  intro hne
  have hle : index < n.storage.entries.length := by
    by_contra hge
    exact hne (List.drop_eq_nil_of_le (by omega))
  have hidx : prev.index = index := by rw [hp hne, infoAt_index hn.index (by omega)]
  rw [hidx]
  exact ⟨by omega, hp hne, rfl⟩

theorem resend_replied {r : AppendEntriesResponse} {n₁ : Server α} (hn₁ : n₁.Ok ids id)
    (hst : n₁.storage = n.storage) (hrole : n₁.state.role = n.state.role) (ht : SameTally n n₁)
    (hl : n.state.role = .leader) {peer : Peer} (hp : peer.id ∈ ids)
    (hpid : peer.id = r.header.peerId) (hd : r.header.destinationId = id) :
    ∃ o, n₁.resend peer = .ok o ∧
      Replied ids id n (.appendEntriesResponse r) r.header o := by
  refine ⟨_, by rw [Server.resend, hn₁.rep.getEntryInfo, hn₁.rep.entriesSince]; rfl, ?_⟩
  refine ⟨modifyPeer_ok hn₁ fun _ => rfl, .quiet hst hrole ?_, fun x hx => ?_⟩
  · refine Eq.trans ?_ ht
    exact modifyPeer_tally n₁ fun _ => rfl
  · simp only [sends_send, sends_nil, List.mem_singleton] at hx
    subst hx
    refine ⟨hd, hpid, trivial, fun hne => ?_, trivial⟩
    refine ⟨hp, rfl, rfl, ?_, hrole.trans hl, rfl, rfl, ?_⟩
    · exact fun he => hne (hpid.symm.trans (he.trans hn₁.id))
    · exact sent_entries hn₁.rep fun _ => rfl

theorem acknowledge_replied (hn : n.Ok ids id) {r : AppendEntriesResponse} {peer : Peer}
    (hc : Counts n r peer) :
    ∃ o, (n.modifyPeer r.header.peerId ({ · with waitingForResponse := false })).acknowledge peer
        r.header.logState.uncommit.index = .ok o ∧
      Replied ids id n (.appendEntriesResponse r) r.header o := by
  obtain ⟨hmem, hpid⟩ := findPeer_some hc.found
  generalize hn₁ : n.modifyPeer r.header.peerId ({ · with waitingForResponse := false }) = n₁
  have hok₁ : n₁.Ok ids id := hn₁ ▸ modifyPeer_ok hn fun _ => rfl
  have hst : n₁.storage = n.storage := hn₁ ▸ rfl
  have hrole : n₁.state.role = n.state.role := hn₁ ▸ rfl
  generalize hn₂ : n₁.modifyPeer peer.id (Peer.acked r.header.logState.uncommit.index) = n₂
  have hok : n₂.Ok ids id := hn₂ ▸ modifyPeer_ok hok₁ fun _ => rfl
  have hst₂ : n₂.storage = n.storage := hn₂ ▸ hst
  have hrole₂ : n₂.state.role = n.state.role := hn₂ ▸ hrole
  have hpeers : n₂.state.knownPeers.map Peer.tally =
      (modifyPeer r.header.peerId (Peer.acked r.header.logState.uncommit.index)
        n.state.knownPeers).map Peer.tally := by
    subst hn₂ hn₁
    change (modifyPeer peer.id _ (modifyPeer _ _ n.state.knownPeers)).map Peer.tally = _
    rw [hpid, modifyPeer_modifyPeer (by exact fun _ => rfl)]
    refine map_modifyPeer_congr ?_ _ _
    exact fun _ => rfl
  have hne : n₂.state.knownPeers ≠ [] := by
    intro he
    have hnil := hok.peers
    rw [he, List.map_nil] at hnil
    exact List.ne_nil_of_mem (hn.mem_ids hmem) hnil.symm
  obtain ⟨index, hix⟩ := newCommit_ok hne
  have hcall : n₁.acknowledge peer r.header.logState.uncommit.index =
      if n₂.storage.commit.index < index then do
        let storage ← n₂.storage.commitUntil index
        .ok ({ n₂ with storage }, [.commitAdvanced index])
      else .ok (n₂, []) := by
    subst hn₂
    change (Server.newCommit
      (n₁.modifyPeer peer.id (Peer.acked r.header.logState.uncommit.index)).state.knownPeers >>=
        _) = _
    rw [hix]
    rfl
  rw [hcall]
  split
  · rename_i hlt
    refine ⟨_, by rw [hok.rep.commitUntil]; rfl, .silent ⟨hok.id, hok.peers, ?_⟩ ?_ rfl⟩
    · exact hok.rep.commit_of (Nat.min_le_left _ _)
    · refine .ack hc hrole₂ hpeers hix ?_
      rw [if_pos (by rwa [← hst₂]), ← hst₂]
  · rename_i hge
    refine ⟨_, rfl, .silent hok (.ack hc hrole₂ hpeers hix ?_) rfl⟩
    rw [if_neg (by rwa [← hst₂]), hst₂]

/-- A response the leader waits for. -/
theorem onAppendEntriesResponse_of_awaits {response : AppendEntriesResponse} {peer : Peer}
    (hf : n.state.findPeer response.header.peerId = some peer) (h : n.Awaits response peer) :
    n.onAppendEntriesResponse response =
      let s := n.modifyPeer response.header.peerId ({ · with waitingForResponse := false })
      if response.success = false then s.resend peer
      else if peer.matchEntry.index < response.header.logState.uncommit.index then
        s.acknowledge peer response.header.logState.uncommit.index
      else .ok (s, []) := by
  obtain ⟨hd, hw, hm, ht, hrole⟩ := h
  have hguard : ¬ (peer.waitingForResponse = false ∨
      peer.lastMessageId ≠ response.header.messageId ∨
      response.header.term < n.storage.currentTerm) := by
    rw [hw, hm, ht]
    simp
  unfold Server.onAppendEntriesResponse
  simp only [hf]
  rw [if_neg (by simp [hd]), if_neg hguard, if_neg (by rw [ht]; exact Nat.lt_irrefl _)]
  exact if_neg (by simpa [Server.modifyPeer] using hrole)

theorem onAppendEntriesResponse_replied (hn : n.Ok ids id) (r : AppendEntriesResponse) :
    ∃ o, n.onAppendEntriesResponse r = .ok o ∧
      Replied ids id n (.appendEntriesResponse r) r.header o := by
  unfold Server.onAppendEntriesResponse
  dsimp only
  split
  · exact ⟨_, rfl, .silent hn (.quiet rfl rfl rfl) rfl⟩
  rename_i peer hp
  obtain ⟨hmem, hpid⟩ := findPeer_some hp
  split
  · exact ⟨_, rfl, .silent hn (.quiet rfl rfl rfl) rfl⟩
  rename_i hdest
  split
  · exact ⟨_, rfl, .silent hn (.quiet rfl rfl rfl) rfl⟩
  rename_i hguard
  simp only [ne_eq, not_or, not_not, Bool.not_eq_false, Nat.not_lt] at hguard
  obtain ⟨hwait, hmid, hterm⟩ := hguard
  have hok : (n.modifyPeer r.header.peerId ({ · with waitingForResponse := false })).Ok ids id :=
    modifyPeer_ok hn fun _ => rfl
  have hquiet : Moves id n (some (.appendEntriesResponse r))
      (n.modifyPeer r.header.peerId ({ · with waitingForResponse := false })) :=
    .quiet rfl rfl (modifyPeer_tally n fun _ => rfl)
  split
  · rename_i hlt
    exact ⟨_, rfl, .silent (stepDown_ok hok _) (.stepDown hlt (stepDown_role _ _) rfl) rfl⟩
  rename_i hle
  split
  · exact ⟨_, rfl, .silent hok hquiet rfl⟩
  rename_i hrole
  have hrole' : n.state.role = .leader := Classical.not_not.1 hrole
  split
  · refine resend_replied (n := n) hok rfl rfl ?_ hrole' (hn.mem_ids hmem) hpid ?_
    · exact modifyPeer_tally n fun _ => rfl
    · exact (Classical.not_not.1 hdest).trans hn.id
  rename_i hsucc
  split
  · rename_i hraise
    refine acknowledge_replied hn ⟨hp, hwait, hmid, ?_, hrole', by simpa using hsucc, hraise⟩
    exact le_antisymm (Nat.le_of_not_lt hle) hterm
  · exact ⟨_, rfl, .silent hok hquiet rfl⟩

/-! ## `on(ClientRequest)` -/

/-- The request the passes of the `for_each` share. -/
structure SharedRequest (n : Server α) (req : AppendEntriesRequest α) : Prop where
  peerId : req.header.peerId = n.state.id
  term : req.header.term = n.storage.currentTerm
  logState : req.header.logState = n.storage.logState
  entries : req.entries ≠ [] → req.previousEntry.index ≤ n.storage.entries.length ∧
    req.previousEntry = infoAt n.storage.entries req.previousEntry.index ∧
    req.entries = n.storage.entries.drop req.previousEntry.index

theorem SharedRequest.sent {req : AppendEntriesRequest α} (h : SharedRequest n req)
    (hl : n.state.role = .leader) {q : String} (hq : q ∈ ids) (hne : q ≠ n.state.id)
    (hd : req.header.destinationId = q) {n₀ : Server α} {m : Option (Message α)} :
    Sent ids n ⟨q, .appendEntriesRequest req⟩ ∧ Answers n₀ m ⟨q, .appendEntriesRequest req⟩ :=
  ⟨⟨hq, h.peerId, hd, hne, hl, h.term, h.logState, h.entries⟩, trivial⟩

theorem replicateTo_spec {n₀ : Server α} {m : Option (Message α)} (hn : n.storage.Rep)
    (hl : n.state.role = .leader)
    {req : AppendEntriesRequest α} (hreq : SharedRequest n req) (newIndex : Nat) {peer : Peer}
    (hp : peer.id ∈ ids) :
    ∃ req' peer' cbs, n.replicateTo newIndex req peer = .ok (req', peer', cbs) ∧
      SharedRequest n req' ∧ peer'.tally = (peer.id, peer.votedForMe,
        if peer.id = n.state.id then newIndex else peer.matchEntry.index) ∧
      ∀ x ∈ sends cbs, Sent ids n x ∧ Answers n₀ m x := by
  unfold Server.replicateTo
  split
  · rename_i hself
    have hself : peer.id = n.state.id := by simpa using hself
    exact ⟨_, _, _, rfl, hreq, by rw [if_pos hself]; rfl, by simp⟩
  rename_i hself
  have hself : ¬ peer.id = n.state.id := by simpa using hself
  split
  · exact ⟨_, _, _, rfl, hreq, rfl, by simp⟩
  dsimp only
  -- a pass that sends `req'`, whose header names the peer
  have pass : ∀ {req' : AppendEntriesRequest α} {peer' : Peer}, SharedRequest n req' →
      req'.header.destinationId = peer.id → peer'.tally = peer.tally →
      SharedRequest n req' ∧ peer'.tally = peer.tally ∧
      ∀ x ∈ sends [.send peer'.id (.appendEntriesRequest req')],
        Sent ids n x ∧ Answers n₀ m x := by
    intro req' peer' h hd ht
    have hid : peer'.id = peer.id := congrArg Prod.fst ht
    refine ⟨h, ht, fun x hx => ?_⟩
    simp only [sends_send, sends_nil, List.mem_singleton] at hx
    subst hx
    rw [hid]
    exact h.sent hl hp hself hd
  split
  · rw [hn.getEntryInfo, hn.entriesSince]
    refine ⟨_, _, _, rfl, pass ?_ rfl ?_⟩
    · refine ⟨hreq.peerId, hreq.term, hreq.logState, sent_entries hn fun hne => ?_⟩
      have hlt : peer.nextEntry.index - 1 < n.storage.entries.length := by
        by_contra hge
        exact hne (List.drop_eq_nil_of_le (by omega))
      have hidx := infoAt_index hn.index (Nat.le_of_lt hlt)
      exact congrArg (EntryInfo.mk · _) hidx.symm
    · split <;> rfl
  · refine ⟨_, _, _, rfl, pass ?_ rfl ?_⟩
    · exact ⟨hreq.peerId, hreq.term, hreq.logState, hreq.entries⟩
    · split <;> rfl

theorem replicate_spec {n₀ : Server α} {m : Option (Message α)} (hn : n.storage.Rep)
    (hl : n.state.role = .leader) (newIndex : Nat) :
    ∀ (peers : List Peer) (req : AppendEntriesRequest α), SharedRequest n req →
      (∀ p ∈ peers, p.id ∈ ids) →
      ∃ peers' cbs, n.replicate newIndex req peers = .ok (peers', cbs) ∧
        peers'.map Peer.tally = peers.map (fun p => (p.id, p.votedForMe,
          if p.id = n.state.id then newIndex else p.matchEntry.index)) ∧
        ∀ x ∈ sends cbs, Sent ids n x ∧ Answers n₀ m x
  | [], _, _, _ => ⟨_, _, rfl, rfl, by simp⟩
  | peer :: peers, req, hreq, hp => by
    obtain ⟨req', peer', cbs, h1, hreq', ht, hs⟩ :=
      replicateTo_spec hn hl hreq newIndex (hp peer (by simp))
    obtain ⟨peers', cbs', h2, ht', hs'⟩ :=
      replicate_spec hn hl newIndex peers req' hreq' fun p h => hp p (by simp [h])
    refine ⟨_, _, by rw [Server.replicate, h1]; simp only [bind, Except.bind, h2]; rfl, ?_, ?_⟩
    · simp [ht, ht']
    · intro x hx
      rw [sends_append, List.mem_append] at hx
      exact hx.elim (hs x) (hs' x)

theorem onClientRequest_handled (hn : n.Ok ids id) (r : ClientRequest α) :
    ∃ o, n.onClientRequest r = .ok o ∧ Handled ids id n (some (.clientRequest r)) o := by
  unfold Server.onClientRequest
  split
  · split
    · exact ⟨_, rfl, hn, .quiet rfl rfl rfl, by simp⟩
    · rename_i leader hf
      refine ⟨_, rfl, hn, .quiet rfl rfl rfl, fun x hx => ?_⟩
      simp only [sends_send, sends_nil, List.mem_singleton] at hx
      subst hx
      exact ⟨⟨hn.mem_ids (findPeer_some hf).1, trivial⟩, trivial⟩
  · exact ⟨_, rfl, hn, .quiet rfl rfl rfl, by simp⟩
  rename_i hl
  have hes : Consecutive n.storage.entries.length
      [(⟨⟨n.storage.entries.length + 1, n.storage.currentTerm⟩, r.data⟩ : Entry α)] := by
    intro k e he
    cases k with
    | zero => cases he; rfl
    | succ k => simp at he
  have hrep : (n.storage.appended r.data).Rep :=
    hn.rep.spliced (Nat.le_refl _) hes hn.rep.commit_le
  have happ : n.storage.append
      [⟨⟨n.storage.entries.length + 1, n.storage.currentTerm⟩, r.data⟩] =
      .ok (n.storage.appended r.data, (n.storage.appended r.data).uncommit) :=
    hn.rep.append (Nat.le_refl _) hes
  have hlast : (n.storage.appended r.data).uncommit.index = n.storage.entries.length + 1 := by
    rw [hrep.uncommit_index]
    exact length_splice n.storage.entries (Nat.le_refl _) (List.cons_ne_nil _ _)
  generalize hn₁ : ({ n with storage := n.storage.appended r.data } : Server α) = n₁
  have hst₁ : n₁.storage = n.storage.appended r.data := hn₁ ▸ rfl
  have hs₁ : n₁.state = n.state := hn₁ ▸ rfl
  obtain ⟨peers, cbs, h1, ht, hs⟩ := replicate_spec (n := n₁) (hst₁ ▸ hrep)
    (by rw [hs₁]; exact hl) (n.storage.entries.length + 1) n.state.knownPeers
    ⟨n₁.header "" 0 n₁.storage.currentTerm, ⟨Server.uint64Max, Server.uint64Max⟩, []⟩
    ⟨rfl, rfl, rfl, fun h => absurd rfl h⟩ fun p hp => hn.mem_ids hp
  refine ⟨({ n₁ with state := { n₁.state with knownPeers := peers } },
    cbs ++ [.setHeartbeatTimeout]), ?_, ⟨by rw [← hn.id, ← hs₁], ?_, hst₁ ▸ hrep⟩, ?_,
    fun x hx => ?_⟩
  · simp only [hn.rep.uncommit_index, happ, bind, Except.bind]
    rw [if_neg (by rw [hlast]; simp), hn₁, hs₁, ← hst₁, h1]
  · rw [← hn.peers]
    have := congrArg (List.map Prod.fst) ht
    simpa [Function.comp_def, Peer.tally] using this
  · refine .append hl (by rw [← hl, ← hs₁]) hst₁ ?_
    simpa only [hs₁, hn.id] using ht
  · simp only [sends_append, sends_setHeartbeatTimeout, sends_nil, List.append_nil] at hx
    exact ⟨(hs x hx).1.congr rfl rfl rfl, (hs x hx).2⟩

/-! ## All messages -/

/-- A message is handled, or the assertion on the commit terms fails. -/
theorem receive_handled (ndebug : Bool) {m : Message α} (hn : n.Ok ids id)
    (hm : MessageOk ids m) :
    (∃ o, n.receive ndebug m = .ok o ∧ Handled ids id n (some m) o) ∨
      n.receive ndebug m = .error .assertion := by
  cases m with
  | voteRequest r => exact .inl ⟨_, rfl, onVoteRequest_handled hn r⟩
  | voteResponse r => exact .inl (onVoteResponse_handled hn hm)
  | appendEntriesRequest r =>
    change (∃ o, n.onAppendEntriesRequest ndebug r = .ok o ∧ _) ∨
      n.onAppendEntriesRequest ndebug r = _
    cases h : n.onAppendEntriesRequest ndebug r with
    | ok o => exact .inl ⟨o, rfl, (onAppendEntriesRequest_replied hn hm.2 h).handled hm.1⟩
    | error f => exact .inr (by rw [onAppendEntriesRequest_fault hn hm.2 h])
  | appendEntriesResponse r =>
    obtain ⟨o, ho, hrep⟩ := onAppendEntriesResponse_replied hn r
    exact .inl ⟨o, ho, hrep.handled hm⟩
  | clientRequest r => exact .inl (onClientRequest_handled hn r)

end Raft
