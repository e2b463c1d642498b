import Mathlib.Data.List.Sort
import Runos.Raft.Storage

/-!
# A raft node (`raft_state.hpp`, `raft_rpc.hpp`, `raft_server.ipp`)

Every handler `Server::on` is a function from the node to the node after the call and the
callbacks it made, in order. The handlers that call the storage can end in a `Fault`. The
network addresses of the peers and the lists `cluster_new` and `cluster_old` are read by no
handler and are left out.

`ndebug` says how the node was built: with `NDEBUG` an `assert` is skipped.
-/

namespace Raft

/-! ## The volatile state -/

structure Peer where
  id : String
  nextEntry : EntryInfo
  matchEntry : EntryInfo
  lastMessageId : Nat
  votedForMe : Bool
  waitingForResponse : Bool
  deriving DecidableEq, Repr

/-- The constructor of `peer_info_t`. -/
def Peer.init (id : String) : Peer where
  id
  nextEntry := ⟨1, 1⟩
  matchEntry := ⟨0, 0⟩
  lastMessageId := 0
  votedForMe := false
  waitingForResponse := false

def Peer.reset (p : Peer) : Peer :=
  { p with
    votedForMe := false
    lastMessageId := p.lastMessageId + 1
    waitingForResponse := false }

inductive Role
  | candidate
  | follower
  | leader
  deriving DecidableEq, Repr

structure State where
  role : Role
  id : String
  leaderId : String
  knownPeers : List Peer
  minimumTimeoutReached : Bool
  deriving DecidableEq, Repr

/-- The constructor of `State`: a node starts as its own leader id. -/
def State.init (id : String) (knownPeers : List Peer) : State where
  role := .follower
  id
  leaderId := id
  knownPeers
  minimumTimeoutReached := true

def State.findPeer (s : State) (id : String) : Option Peer := s.knownPeers.find? (·.id == id)

/-- Writing through the pointer `find_peer` returned: the first peer with the id. -/
def modifyPeer (id : String) (f : Peer → Peer) : List Peer → List Peer
  | [] => []
  | p :: ps => if p.id == id then f p :: ps else p :: modifyPeer id f ps

/-! ## Messages and callbacks -/

structure MessageHeader where
  peerId : String
  destinationId : String
  messageId : Nat
  term : Nat
  logState : LogState
  deriving DecidableEq, Repr

structure AppendEntriesRequest (α : Type) where
  header : MessageHeader
  previousEntry : EntryInfo
  entries : List (Entry α)
  deriving DecidableEq, Repr

structure AppendEntriesResponse where
  header : MessageHeader
  success : Bool
  deriving DecidableEq, Repr

structure VoteRequest where
  header : MessageHeader
  deriving DecidableEq, Repr

structure VoteResponse where
  header : MessageHeader
  voteGranted : Bool
  deriving DecidableEq, Repr

structure ClientRequest (α : Type) where
  clientId : String
  messageId : String
  data : α
  deriving DecidableEq, Repr

inductive Message (α : Type)
  | voteRequest (request : VoteRequest)
  | voteResponse (response : VoteResponse)
  | appendEntriesRequest (request : AppendEntriesRequest α)
  | appendEntriesResponse (response : AppendEntriesResponse)
  | clientRequest (request : ClientRequest α)
  deriving DecidableEq, Repr

/-- The calls a handler makes on `Callbacks`. -/
inductive Callback (α : Type)
  | send (peerId : String) (message : Message α)
  | drop (peerId : String)
  | setHeartbeatTimeout
  | setFollowerTimeout
  | setCandidateTimeout
  | setMinimumTimeout
  | newLeaderElected (id : String)
  | commitAdvanced (commitIndex : Nat)
  deriving DecidableEq, Repr

/-! ## The node -/

structure Server (α : Type) where
  state : State
  storage : MemStorage α
  deriving DecidableEq, Repr

/-- What a handler leaves: the node and the callbacks in order. -/
abbrev Outcome (α : Type) := Server α × List (Callback α)

namespace Server

variable {α : Type}

/-- The constructor, over a fresh `MemStorage`. -/
def init (id : String) (ids : List String) : Server α where
  state := .init id (ids.map Peer.init)
  storage := .init

def modifyPeer (s : Server α) (id : String) (f : Peer → Peer) : Server α :=
  { s with state := { s.state with knownPeers := Raft.modifyPeer id f s.state.knownPeers } }

/-- The header of a message from this node. -/
def header (s : Server α) (destinationId : String) (messageId term : Nat) : MessageHeader where
  peerId := s.state.id
  destinationId
  messageId
  term
  logState := s.storage.logState

/-- The sends of a `for_each` that writes to every peer but the node itself. -/
def broadcast (id : String) (peers : List Peer) (message : Peer → Message α) :
    List (Callback α) :=
  (peers.filter (·.id != id)).map fun p => .send p.id (message p)

def stepDown (s : Server α) (newTerm : Nat) : Server α :=
  { state :=
      if s.state.role ≠ .follower then
        { s.state with role := .follower, knownPeers := s.state.knownPeers.map Peer.reset }
      else
        s.state
    storage := (s.storage.setCurrentTerm newTerm).setVotedFor "" }

def onTimeoutRequest (s : Server α) : Outcome α :=
  let storage :=
    (s.storage.setCurrentTerm (s.storage.currentTerm + 1)).setVotedFor s.state.id
  let peers := s.state.knownPeers.map fun p => { p with votedForMe := s.state.id == p.id }
  let peers := peers.map fun p =>
    if p.id == s.state.id then p
    else { p with lastMessageId := p.lastMessageId + 1, waitingForResponse := true }
  let s : Server α := { state := { s.state with role := .candidate, knownPeers := peers }, storage }
  (s, broadcast s.state.id peers (fun p =>
      .voteRequest ⟨s.header p.id p.lastMessageId storage.currentTerm⟩) ++ [.setCandidateTimeout])

/-- The message id is `+peer.last_message_id`: heartbeats reuse the last one. -/
def onHeartbeatRequest (s : Server α) : Outcome α :=
  let peers := s.state.knownPeers.map fun p =>
    if p.id == s.state.id then p else { p with waitingForResponse := true }
  ({ s with state := { s.state with knownPeers := peers } },
    broadcast s.state.id peers (fun p => .appendEntriesRequest
      { header := s.header p.id p.lastMessageId s.storage.currentTerm
        previousEntry := p.matchEntry
        entries := [] }) ++ [.setHeartbeatTimeout])

def timeout (s : Server α) : Outcome α :=
  if s.state.role = .leader then s.onHeartbeatRequest else s.onTimeoutRequest

def onMinimumTimeoutRequest (s : Server α) : Server α :=
  { s with state := { s.state with minimumTimeoutReached := true } }

/-! ### `on(VoteRequest)` -/

/-- The second half of the handler, once the candidate is known. -/
def answerVote (s : Server α) (request : VoteRequest) : Outcome α :=
  let candidate := request.header.peerId
  let response : VoteResponse :=
    { header := s.header candidate request.header.messageId
        (max s.storage.currentTerm request.header.term)
      voteGranted := false }
  if s.state.minimumTimeoutReached = false then
    (s, [])
  else if request.header.term ≤ s.storage.currentTerm then
    (s, [.send candidate (.voteResponse response)])
  else
    let s := s.stepDown request.header.term
    let s := { s with state := { s.state with leaderId := "" } }
    if s.storage.uncommit.index ≤ request.header.logState.uncommit.index then
      ({ s with storage := s.storage.setVotedFor candidate },
        [.setFollowerTimeout,
          .send candidate (.voteResponse { response with voteGranted := true })])
    else
      (s, [.send candidate (.voteResponse response)])

def onVoteRequest (s : Server α) (request : VoteRequest) : Outcome α :=
  let candidate := request.header.peerId
  if request.header.destinationId ≠ s.state.id ∨ s.state.findPeer candidate = none then
    (s, [.drop candidate])
  else if s.state.role = .leader then
    (s.modifyPeer candidate ({ · with waitingForResponse := false })).answerVote request
  else
    s.answerVote request

/-! ### `on(AppendEntriesRequest)` -/

/-- The second half of the handler, once the sender is taken for the leader: the checks of
`previous_entry`, the append and the commit. -/
def acceptEntries (ndebug : Bool) (s : Server α) (request : AppendEntriesRequest α)
    (response : AppendEntriesResponse) : Except Fault (Outcome α) :=
  let logState := s.storage.logState
  let leader := request.header.peerId
  if request.previousEntry.ne logState.uncommit ∧
      request.previousEntry.index < logState.commit.index then
    .ok (s, [.drop leader])
  else if request.previousEntry.ne logState.uncommit ∧
      logState.uncommit.index < request.previousEntry.index then
    .ok (s, [.send leader (.appendEntriesResponse response)])
  else if logState.uncommit.index < request.previousEntry.index then
    .ok (s, [.send leader (.appendEntriesResponse response)])
  else do
    let (storage, _) ← s.storage.append request.entries
    let commit := request.header.logState.commit
    let (storage, advanced) ←
      if storage.commit.index < commit.index then
        if ndebug = false ∧ commit.term < storage.commit.term then
          Except.error Fault.assertion
        else do
          let storage ← storage.commitUntil commit.index
          .ok (storage, [Callback.commitAdvanced commit.index])
      else
        .ok (storage, [])
    let response : AppendEntriesResponse :=
      { header := { response.header with logState := storage.logState }, success := true }
    .ok ({ state := { s.state with minimumTimeoutReached := false }, storage },
      advanced ++ [.setMinimumTimeout, .setFollowerTimeout,
        .send leader (.appendEntriesResponse response)])

def onAppendEntriesRequest (ndebug : Bool) (s : Server α) (request : AppendEntriesRequest α) :
    Except Fault (Outcome α) :=
  let leader := request.header.peerId
  if request.header.destinationId ≠ s.state.id ∨ s.state.findPeer leader = none then
    .ok (s, [.drop leader])
  else
    let response : AppendEntriesResponse :=
      { header := s.header leader request.header.messageId
          (max s.storage.currentTerm request.header.term)
        success := false }
    if request.header.term < s.storage.currentTerm then
      .ok (s, [.send leader (.appendEntriesResponse response)])
    else if s.storage.currentTerm < request.header.term then do
      let s := s.stepDown request.header.term
      if s.state.leaderId ≠ leader then
        let s := { s with state := { s.state with leaderId := leader } }
        let (s, callbacks) ← s.acceptEntries ndebug request response
        .ok (s, .newLeaderElected leader :: callbacks)
      else
        s.acceptEntries ndebug request response
    else if s.state.leaderId ≠ leader then
      if s.state.leaderId = "" then do
        let s := { s with state := { s.state with leaderId := leader } }
        let (s, callbacks) ← s.acceptEntries ndebug request response
        .ok (s, .newLeaderElected leader :: callbacks)
      else
        .ok (s, [.drop leader])
    else
      s.acceptEntries ndebug request response

/-! ### `on(VoteResponse)` -/

/-- The votes counted and the share of them a leader needs. -/
def hasMajority (s : Server α) : Prop :=
  1 + s.state.knownPeers.length / 2 ≤ s.state.knownPeers.countP (·.votedForMe)

instance (s : Server α) : Decidable s.hasMajority := inferInstanceAs (Decidable (_ ≤ _))

/-- The end of the handler, once the majority is reached. -/
def becomeLeader (s : Server α) : Outcome α :=
  let elected := if s.state.leaderId ≠ s.state.id then [.newLeaderElected s.state.id] else []
  let previous := s.storage.uncommit
  let peers := s.state.knownPeers.map fun p =>
    let p := { p with
      waitingForResponse := true
      nextEntry := { p.nextEntry with index := previous.index + 1 }
      matchEntry := { p.matchEntry with index := 0 } }
    if p.id == s.state.id then { p with matchEntry := previous }
    else { p with lastMessageId := p.lastMessageId + 1 }
  let sends := broadcast s.state.id peers fun p => .appendEntriesRequest
    { header := s.header p.id p.lastMessageId s.storage.currentTerm
      previousEntry := previous
      entries := [] }
  ({ s with
      state := { s.state with
        role := .leader
        leaderId := s.state.id
        knownPeers := peers
        minimumTimeoutReached := false } },
    elected ++ sends ++ [.setMinimumTimeout, .setHeartbeatTimeout])

def onVoteResponse (s : Server α) (response : VoteResponse) : Except Fault (Outcome α) :=
  let voter := response.header.peerId
  match s.state.findPeer voter with
  | none => .error .undefined
  | some peer =>
    if response.header.destinationId ≠ s.state.id ∨ peer.waitingForResponse = false then
      if response.header.messageId ≤ peer.lastMessageId then
        .ok (s, [.drop voter])
      else
        .ok (s, [])
    else if s.storage.currentTerm < response.header.term then
      .ok (s.stepDown response.header.term, [])
    else if s.state.role ≠ .candidate ∨ response.voteGranted = false then
      .ok (s, [])
    else
      let s := s.modifyPeer voter ({ · with waitingForResponse := false, votedForMe := true })
      if s.hasMajority then .ok s.becomeLeader else .ok (s, [])

/-! ### `on(AppendEntriesResponse)` -/

/-- The index the leader may commit: the match indexes sorted in descending order, at position
`known_peers.size() / 2`. -/
def newCommit (peers : List Peer) : Except Fault Nat :=
  match ((peers.map (·.matchEntry.index)).insertionSort (· ≥ ·))[peers.length / 2]? with
  | some index => .ok index
  | none => .error .undefined

/-- A declined request: the leader backs off one entry and sends again. -/
def resend (s : Server α) (peer : Peer) : Except Fault (Outcome α) := do
  let next := if peer.nextEntry.index - 1 = 0 then 1 else peer.nextEntry.index - 1
  let messageId := peer.lastMessageId + 1
  let previousEntry ← s.storage.getEntryInfo (next - 1)
  let entries ← s.storage.entriesSince (next - 1)
  let s' := s.modifyPeer peer.id fun p => { p with
    nextEntry := { p.nextEntry with index := next }
    lastMessageId := messageId
    waitingForResponse := true }
  .ok (s', [.send peer.id (.appendEntriesRequest
    { header := s.header peer.id messageId s.storage.currentTerm
      previousEntry
      entries })])

/-- An acknowledged request: the reported last index becomes the match index of the peer. -/
def acknowledge (s : Server α) (peer : Peer) (index : Nat) : Except Fault (Outcome α) := do
  let s := s.modifyPeer peer.id fun p => { p with
    nextEntry := { p.nextEntry with index := max p.nextEntry.index (index + 1) }
    matchEntry := { p.matchEntry with index } }
  let commitIndex ← newCommit s.state.knownPeers
  if s.storage.commit.index < commitIndex then
    let storage ← s.storage.commitUntil commitIndex
    .ok ({ s with storage }, [.commitAdvanced commitIndex])
  else
    .ok (s, [])

def onAppendEntriesResponse (s : Server α) (response : AppendEntriesResponse) :
    Except Fault (Outcome α) :=
  let follower := response.header.peerId
  match s.state.findPeer follower with
  | none => .ok (s, [.drop follower])
  | some peer =>
    if response.header.destinationId ≠ s.state.id then
      .ok (s, [.drop follower])
    else if peer.waitingForResponse = false ∨
        peer.lastMessageId ≠ response.header.messageId ∨
        response.header.term < s.storage.currentTerm then
      .ok (s, [])
    else
      let s := s.modifyPeer follower ({ · with waitingForResponse := false })
      if s.storage.currentTerm < response.header.term then
        .ok (s.stepDown response.header.term, [])
      else if s.state.role ≠ .leader then
        .ok (s, [])
      else if response.success = false then
        s.resend peer
      else if peer.matchEntry.index < response.header.logState.uncommit.index then
        s.acknowledge peer response.header.logState.uncommit.index
      else
        .ok (s, [])

/-- The node, as leader, waits for this response of the peer. -/
def Awaits (s : Server α) (response : AppendEntriesResponse) (peer : Peer) : Prop :=
  response.header.destinationId = s.state.id ∧ peer.waitingForResponse = true ∧
    peer.lastMessageId = response.header.messageId ∧
    response.header.term = s.storage.currentTerm ∧ s.state.role = .leader

instance (s : Server α) (response : AppendEntriesResponse) (peer : Peer) :
    Decidable (s.Awaits response peer) := inferInstanceAs (Decidable (_ ∧ _))

/-! ### `on(ClientRequest)` -/

/-- `std::numeric_limits<uint64_t>::max()` -/
def uint64Max : Nat := 2 ^ 64 - 1

/-- One pass of the `for_each` that replicates a new entry. `req` is shared by the passes: its
`previous_entry` and `entries` are read from the storage only when they change. -/
def replicateTo (s : Server α) (newIndex : Nat) (req : AppendEntriesRequest α) (peer : Peer) :
    Except Fault (AppendEntriesRequest α × Peer × List (Callback α)) :=
  if peer.id == s.state.id then
    .ok (req, { peer with
      matchEntry := { peer.matchEntry with index := newIndex }
      nextEntry := { peer.nextEntry with index := newIndex + 1 } }, [])
  else if peer.nextEntry.index ≠ newIndex ∨ peer.waitingForResponse = true then
    .ok (req, peer, [])
  else do
    let peer := { peer with
      lastMessageId := peer.lastMessageId + 1
      waitingForResponse := true }
    let req := { req with
      header := { req.header with messageId := peer.lastMessageId, destinationId := peer.id } }
    let req ←
      if req.previousEntry.index ≠ peer.nextEntry.index - 1 then do
        let index := peer.nextEntry.index - 1
        let info ← s.storage.getEntryInfo index
        let entries ← s.storage.entriesSince index
        .ok { req with previousEntry := ⟨index, info.term⟩, entries }
      else
        .ok req
    let peer :=
      if peer.nextEntry.index = newIndex then
        { peer with nextEntry := { peer.nextEntry with index := peer.nextEntry.index + 1 } }
      else
        peer
    .ok (req, peer, [.send peer.id (.appendEntriesRequest req)])

/-- The `for_each` of the handler. -/
def replicate (s : Server α) (newIndex : Nat) :
    AppendEntriesRequest α → List Peer → Except Fault (List Peer × List (Callback α))
  | _, [] => .ok ([], [])
  | req, peer :: peers => do
    let (req, peer, sends) ← s.replicateTo newIndex req peer
    let (peers, rest) ← s.replicate newIndex req peers
    .ok (peer :: peers, sends ++ rest)

def onClientRequest (s : Server α) (request : ClientRequest α) : Except Fault (Outcome α) :=
  match s.state.role with
  | .follower =>
    match s.state.findPeer s.state.leaderId with
    | none => .ok (s, [])
    | some leader => .ok (s, [.send leader.id (.clientRequest request)])
  | .candidate => .ok (s, [])
  | .leader => do
    let newIndex := s.storage.uncommit.index + 1
    let (storage, info) ←
      s.storage.append [⟨⟨newIndex, s.storage.currentTerm⟩, request.data⟩]
    if info.index ≠ newIndex then
      .error .exit
    else
      let s := { s with storage }
      let (knownPeers, sends) ← s.replicate newIndex
        { header := s.header "" 0 s.storage.currentTerm
          previousEntry := ⟨uint64Max, uint64Max⟩
          entries := [] } s.state.knownPeers
      .ok ({ s with state := { s.state with knownPeers } }, sends ++ [.setHeartbeatTimeout])

/-- The handler a message is delivered to. -/
def receive (ndebug : Bool) (s : Server α) : Message α → Except Fault (Outcome α)
  | .voteRequest request => .ok (s.onVoteRequest request)
  | .voteResponse response => s.onVoteResponse response
  | .appendEntriesRequest request => s.onAppendEntriesRequest ndebug request
  | .appendEntriesResponse response => s.onAppendEntriesResponse response
  | .clientRequest request => s.onClientRequest request

end Server

/-! ## Inputs -/

/-- What a node reacts to. -/
inductive Input (α : Type)
  | timeout
  | minimumTimeout
  | clientRequest (request : ClientRequest α)
  | message (message : Message α)
  deriving DecidableEq, Repr

namespace Server

variable {α : Type}

def handle (ndebug : Bool) (s : Server α) : Input α → Except Fault (Outcome α)
  | .timeout => .ok s.timeout
  | .minimumTimeout => .ok (s.onMinimumTimeoutRequest, [])
  | .clientRequest request => s.onClientRequest request
  | .message message => s.receive ndebug message

/-- `handle`, without the callbacks. -/
def step (ndebug : Bool) (s : Server α) (input : Input α) : Except Fault (Server α) :=
  (s.handle ndebug input).map Prod.fst

end Server

end Raft
