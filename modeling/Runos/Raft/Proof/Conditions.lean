import Runos.Raft.Proof.Invariant

/-!
# What the handlers do not check

The handlers leave out checks that the safety of the protocol rests on. Each condition here is the
check one of them leaves out, as a condition on the cluster before a step and on the message the
step delivers; it constrains only the steps in which the branch without the check is taken.

* `FreshVotes`: a vote is counted in the term it was given in. (`on(AppendEntriesResponse)` drops
  the responses of earlier terms, `on(VoteResponse)` does not.)
* `UpToDateVotes`: a vote is not granted to a log that ends in an earlier term. (Only the lengths
  of the logs are compared.)
* `MatchingPrevious`: entries are appended after an entry of the term the leader reports. (The
  comparison of `previous_entry` is vacuous, see `EntryInfo.ne_eq_true`.)
* `KeptTails`: a late request does not cut off entries the same leader has added since.
* `SharedCommits`: a heartbeat does not commit entries the leader does not have.
* `MatchingAcks`: an acknowledged index is the index of an entry the leader has.
* `OwnTermCommits`: a leader does not commit entries of earlier terms alone.
-/

namespace Raft

variable {α : Type}

instance (n : Server α) (r : AppendEntriesRequest α) : Decidable (Accepts n r) :=
  decidable_of_iff (r.header.destinationId = n.state.id ∧
      n.storage.currentTerm ≤ r.header.term ∧
      (n.storage.currentTerm = r.header.term →
        n.state.leaderId = r.header.peerId ∨ n.state.leaderId = "") ∧
      n.storage.commit.index ≤ r.previousEntry.index ∧
      r.previousEntry.index ≤ n.storage.uncommit.index)
    ⟨fun ⟨h1, h2, h3, h4, h5⟩ => ⟨h1, h2, h3, h4, h5⟩,
      fun h => ⟨h.destination, h.term, h.leader, h.commit, h.uncommit⟩⟩

instance (n : Server α) (r : AppendEntriesResponse) (peer : Peer) : Decidable (Counts n r peer) :=
  decidable_of_iff (n.state.findPeer r.header.peerId = some peer ∧
      peer.waitingForResponse = true ∧ peer.lastMessageId = r.header.messageId ∧
      r.header.term = n.storage.currentTerm ∧ n.state.role = .leader ∧ r.success = true ∧
      peer.matchEntry.index < r.header.logState.uncommit.index)
    ⟨fun ⟨h1, h2, h3, h4, h5, h6, h7⟩ => ⟨h1, h2, h3, h4, h5, h6, h7⟩,
      fun h => ⟨h.found, h.waiting, h.messageId, h.term, h.role, h.success, h.raises⟩⟩

instance (n : Server α) (r : VoteResponse) (peer : Peer) : Decidable (CountsVote n r peer) :=
  decidable_of_iff (n.state.findPeer r.header.peerId = some peer ∧
      peer.waitingForResponse = true ∧ n.state.role = .candidate ∧ r.voteGranted = true ∧
      r.header.term ≤ n.storage.currentTerm)
    ⟨fun ⟨h1, h2, h3, h4, h5⟩ => ⟨h1, h2, h3, h4, h5⟩,
      fun h => ⟨h.found, h.waiting, h.role, h.granted, h.term⟩⟩

instance (n : Server α) (r : VoteRequest) : Decidable (Grants n r) :=
  decidable_of_iff (n.state.minimumTimeoutReached = true ∧
      n.storage.currentTerm < r.header.term ∧
      n.storage.uncommit.index ≤ r.header.logState.uncommit.index)
    ⟨fun ⟨h1, h2, h3⟩ => ⟨h1, h2, h3⟩, fun h => ⟨h.timeout, h.term, h.uncommit⟩⟩

/-! ## At one node -/

section
variable (n : Server α)

def FreshVote : Message α → Prop
  | .voteResponse r => ∀ peer ∈ n.state.findPeer r.header.peerId, CountsVote n r peer →
      n.storage.currentTerm ≤ r.header.term
  | _ => True

def UpToDateVote : Message α → Prop
  | .voteRequest r => Grants n r → n.storage.uncommit.term ≤ r.header.logState.uncommit.term
  | _ => True

def MatchesPrevious : Message α → Prop
  | .appendEntriesRequest r => Accepts n r → r.entries ≠ [] → r.previousEntry.index ≠ 0 →
      (infoAt n.storage.entries r.previousEntry.index).term = r.previousEntry.term
  | _ => True

def KeepsTail : Message α → Prop
  | .appendEntriesRequest r => Accepts n r → r.entries ≠ [] →
      n.storage.uncommit.term = r.header.term →
      n.storage.uncommit.index ≤ r.previousEntry.index + r.entries.length
  | _ => True

/-- The sender is looked up in `nodes`. -/
def SharesCommit (nodes : String → Server α) : Message α → Prop
  | .appendEntriesRequest r => Accepts n r → r.entries = [] →
      n.storage.commit.index < r.header.logState.commit.index →
      (infoAt n.storage.entries
        (min n.storage.uncommit.index r.header.logState.commit.index)).term =
      (infoAt (nodes r.header.peerId).storage.entries
        (min n.storage.uncommit.index r.header.logState.commit.index)).term
  | _ => True

def MatchesAck : Message α → Prop
  | .appendEntriesResponse r => ∀ peer ∈ n.state.findPeer r.header.peerId, Counts n r peer →
      infoAt n.storage.entries r.header.logState.uncommit.index = r.header.logState.uncommit
  | _ => True

/-- A majority of the match indexes is at least `index` once the response is counted. -/
def Reaches (r : AppendEntriesResponse) (index : Nat) : Prop :=
  n.state.knownPeers.length / 2 + 1 ≤
    (modifyPeer r.header.peerId (Peer.acked r.header.logState.uncommit.index)
      n.state.knownPeers).countP (index ≤ ·.matchEntry.index)

instance (r : AppendEntriesResponse) (index : Nat) : Decidable (Reaches n r index) :=
  inferInstanceAs (Decidable (_ ≤ _))

def CommitsOwnTerm : Message α → Prop
  | .appendEntriesResponse r => ∀ peer ∈ n.state.findPeer r.header.peerId, Counts n r peer →
      Reaches n r (n.storage.commit.index + 1) →
      ∃ k ∈ List.range (n.storage.entries.length + 1), Reaches n r k ∧
        (infoAt n.storage.entries k).term = n.storage.currentTerm
  | _ => True

instance : DecidablePred (FreshVote n)
  | .voteResponse _ => inferInstanceAs (Decidable (∀ _ ∈ _, _ → _))
  | .voteRequest _ | .appendEntriesRequest _ | .appendEntriesResponse _ | .clientRequest _ =>
    .isTrue trivial

instance : DecidablePred (UpToDateVote n)
  | .voteRequest _ => inferInstanceAs (Decidable (_ → _))
  | .voteResponse _ | .appendEntriesRequest _ | .appendEntriesResponse _ | .clientRequest _ =>
    .isTrue trivial

instance : DecidablePred (KeepsTail n)
  | .appendEntriesRequest r =>
    have : Decidable (r.entries ≠ []) := decidable_of_iff (r.entries.isEmpty = false) (by simp)
    inferInstanceAs (Decidable (_ → _ → _ → _))
  | .voteRequest _ | .voteResponse _ | .appendEntriesResponse _ | .clientRequest _ =>
    .isTrue trivial

instance : DecidablePred (MatchesPrevious n)
  | .appendEntriesRequest r =>
    have : Decidable (r.entries ≠ []) := decidable_of_iff (r.entries.isEmpty = false) (by simp)
    inferInstanceAs (Decidable (_ → _ → _ → _))
  | .voteRequest _ | .voteResponse _ | .appendEntriesResponse _ | .clientRequest _ =>
    .isTrue trivial

instance (nodes : String → Server α) : DecidablePred (SharesCommit n nodes)
  | .appendEntriesRequest r =>
    have : Decidable (r.entries = []) := decidable_of_iff (r.entries.isEmpty = true) (by simp)
    inferInstanceAs (Decidable (_ → _ → _ → _))
  | .voteRequest _ | .voteResponse _ | .appendEntriesResponse _ | .clientRequest _ =>
    .isTrue trivial

instance : DecidablePred (MatchesAck n)
  | .appendEntriesResponse _ => inferInstanceAs (Decidable (∀ _ ∈ _, _ → _))
  | .voteRequest _ | .voteResponse _ | .appendEntriesRequest _ | .clientRequest _ =>
    .isTrue trivial

instance : DecidablePred (CommitsOwnTerm n)
  | .appendEntriesResponse _ => inferInstanceAs (Decidable (∀ _ ∈ _, _ → _ → _))
  | .voteRequest _ | .voteResponse _ | .appendEntriesRequest _ | .clientRequest _ =>
    .isTrue trivial

end

/-! ## At a step -/

/-- A condition on the receiver and the message, at the delivery of a message. -/
def AtDelivery (c : Server α → Message α → Prop) (s : Cluster α) (e : Event α) : Prop :=
  ∀ x ∈ s.delivered e, c (s.nodes x.destination) x.message

instance (c : Server α → Message α → Prop) [∀ n, DecidablePred (c n)] (s : Cluster α)
    (e : Event α) : Decidable (AtDelivery c s e) := inferInstanceAs (Decidable (∀ _ ∈ _, _))

def FreshVotes (s : Cluster α) (e : Event α) : Prop := AtDelivery FreshVote s e

def UpToDateVotes (s : Cluster α) (e : Event α) : Prop := AtDelivery UpToDateVote s e

def MatchingPrevious (s : Cluster α) (e : Event α) : Prop := AtDelivery MatchesPrevious s e

def KeptTails (s : Cluster α) (e : Event α) : Prop := AtDelivery KeepsTail s e

def SharedCommits (s : Cluster α) (e : Event α) : Prop := AtDelivery (SharesCommit · s.nodes) s e

def MatchingAcks (s : Cluster α) (e : Event α) : Prop := AtDelivery MatchesAck s e

def OwnTermCommits (s : Cluster α) (e : Event α) : Prop := AtDelivery CommitsOwnTerm s e

instance (s : Cluster α) (e : Event α) : Decidable (FreshVotes s e) :=
  inferInstanceAs (Decidable (AtDelivery _ s e))

instance (s : Cluster α) (e : Event α) : Decidable (UpToDateVotes s e) :=
  inferInstanceAs (Decidable (AtDelivery _ s e))

instance (s : Cluster α) (e : Event α) : Decidable (MatchingPrevious s e) :=
  inferInstanceAs (Decidable (AtDelivery _ s e))

instance (s : Cluster α) (e : Event α) : Decidable (KeptTails s e) :=
  inferInstanceAs (Decidable (AtDelivery _ s e))

instance (s : Cluster α) (e : Event α) : Decidable (SharedCommits s e) :=
  inferInstanceAs (Decidable (AtDelivery (SharesCommit · s.nodes) s e))

instance (s : Cluster α) (e : Event α) : Decidable (MatchingAcks s e) :=
  inferInstanceAs (Decidable (AtDelivery _ s e))

instance (s : Cluster α) (e : Event α) : Decidable (OwnTermCommits s e) :=
  inferInstanceAs (Decidable (AtDelivery _ s e))

/-- All of them. -/
structure Careful (s : Cluster α) (e : Event α) : Prop where
  votes : FreshVotes s e
  upToDate : UpToDateVotes s e
  previous : MatchingPrevious s e
  tails : KeptTails s e
  commits : SharedCommits s e
  acks : MatchingAcks s e
  own : OwnTermCommits s e

instance (s : Cluster α) (e : Event α) : Decidable (Careful s e) :=
  decidable_of_iff (FreshVotes s e ∧ UpToDateVotes s e ∧ MatchingPrevious s e ∧ KeptTails s e ∧
      SharedCommits s e ∧ MatchingAcks s e ∧ OwnTermCommits s e)
    ⟨fun ⟨h1, h2, h3, h4, h5, h6, h7⟩ => ⟨h1, h2, h3, h4, h5, h6, h7⟩,
      fun h => ⟨h.votes, h.upToDate, h.previous, h.tails, h.commits, h.acks, h.own⟩⟩

end Raft
