import Runos.Raft.Processor

/-!
# Messages from unknown peers

The identity check lets a message through when it names the id of its session, known or not: three
of the four handlers then drop the session and leave the node as it is, `on(VoteResponse)` follows
the null pointer (`on_of_unknown`, `unknown_peer_guarded_iff`).
-/

namespace Raft

variable {s : Server String} {message : Message String} {header : MessageHeader}

/-- Only `on(VoteResponse)` uses a peer that is not known. -/
theorem on_of_unknown (ndebug : Bool) (hm : message.header = some header)
    (hu : s.state.findPeer header.peerId = none) :
    s.on ndebug message = match message with
      | .voteResponse _ => .error .undefined
      | _ => .ok (s, [.drop header.peerId]) := by
  cases message with
  | clientRequest request => cases hm
  | voteResponse response =>
    cases hm
    simp [Server.on, Server.receive, Server.onVoteResponse, hu]
  | voteRequest request =>
    cases hm
    simp [Server.on, Server.receive, Server.onVoteRequest, hu]
  | appendEntriesRequest request =>
    cases hm
    simp [Server.on, Server.receive, Server.onAppendEntriesRequest, hu]
  | appendEntriesResponse response =>
    cases hm
    simp [Server.on, Server.onAppendEntriesResponse64, Server.onAppendEntriesResponse, hu]

/-- The message is not a vote, or comes from a known peer. -/
def VoterKnown (s : Server String) : Message String → Prop
  | .voteResponse response => s.state.findPeer response.header.peerId ≠ none
  | _ => True

/-- If the peer is not known, the call of the handler returns, and leaves the node as it was. -/
def Guarded (ndebug : Bool) (network : Network) (self : Option Nat) (id : String)
    (s : Server String) (message : Message String) (header : MessageHeader) : Prop :=
  s.state.findPeer header.peerId = none →
    ∃ r, processRpc ndebug network self id s message = .ok r ∧ r.server = s

section
variable {network : Network} {self : Option Nat} {id : String}

/-- A message that passes the identity check is handed over. -/
theorem processRpc_of_identified (ndebug : Bool) (hm : message.header = some header)
    (hpass : (checkIdentity network self id s header.peerId).2 = true) :
    processRpc ndebug network self id s message =
      handOver ndebug (checkIdentity network self id s header.peerId).1 s message := by
  simp only [processRpc, hm, hpass, if_true]

/-- **Handlers and unknown peers**: a handler guards against the peer of a message that passes the
identity check exactly when the message is not a vote, or its peer is known. -/
theorem unknown_peer_guarded_iff (ndebug : Bool) (network : Network) (self : Option Nat)
    (id : String) (s : Server String) (message : Message String) (header : MessageHeader)
    (hm : message.header = some header)
    (hpass : (checkIdentity network self id s header.peerId).2 = true) :
    Guarded ndebug network self id s message header ↔ VoterKnown s message := by
  unfold Guarded
  rw [processRpc_of_identified ndebug hm hpass, handOver]
  constructor
  · intro hg
    cases message with
    | voteResponse response =>
      cases hm
      intro hu
      obtain ⟨r, hr, -⟩ := hg hu
      rw [on_of_unknown ndebug rfl hu] at hr
      cases hr
    | clientRequest request => trivial
    | voteRequest request => trivial
    | appendEntriesRequest request => trivial
    | appendEntriesResponse response => trivial
  · intro hk hu
    rw [on_of_unknown ndebug hm hu]
    cases message with
    | voteResponse response =>
      cases hm
      exact absurd hu hk
    | clientRequest request => cases hm
    | voteRequest request => exact ⟨_, rfl, rfl⟩
    | appendEntriesRequest request => exact ⟨_, rfl, rfl⟩
    | appendEntriesResponse response => exact ⟨_, rfl, rfl⟩

end

/-- A message that names its session `+1`. -/
def sessionHeader : MessageHeader := ⟨"+1", "n1", 1, 1, ⟨⟨0, 0⟩, ⟨0, 0⟩⟩⟩

/-- A vote request that names its session is dropped. -/
theorem unknown_peer_guarded_voteRequest :
    Guarded false ⟨["+1"], [], false⟩ (some 0) "+1" (.init "n1" ["n1", "n2"])
      (.voteRequest ⟨sessionHeader⟩) sessionHeader :=
  (unknown_peer_guarded_iff false ⟨["+1"], [], false⟩ (some 0) "+1" (.init "n1" ["n1", "n2"])
    (.voteRequest ⟨sessionHeader⟩) sessionHeader rfl (by decide)).2 trivial

/-- A vote that names its session passes the identity check, and the null pointer is used. -/
theorem unknown_peer_voteResponse :
    (checkIdentity ⟨["+1"], [], false⟩ (some 0) "+1" (.init "n1" ["n1", "n2"]) "+1").2 = true ∧
      processRpc false ⟨["+1"], [], false⟩ (some 0) "+1" (.init "n1" ["n1", "n2"])
        (.voteResponse ⟨sessionHeader, true⟩) = .error (.fault .undefined) ∧
      ¬ Guarded false ⟨["+1"], [], false⟩ (some 0) "+1" (.init "n1" ["n1", "n2"])
        (.voteResponse ⟨sessionHeader, true⟩) sessionHeader := by
  have hcrash : processRpc false ⟨["+1"], [], false⟩ (some 0) "+1" (.init "n1" ["n1", "n2"])
      (.voteResponse ⟨sessionHeader, true⟩) = .error (.fault .undefined) := by decide
  refine ⟨by decide, hcrash, fun hg => ?_⟩
  obtain ⟨r, hr, -⟩ := hg (by decide)
  rw [hcrash] at hr
  cases hr

end Raft
