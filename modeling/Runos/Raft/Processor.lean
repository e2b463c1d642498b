import Runos.Raft.Wire

/-!
# Messages that arrive (`simple_message_processor.cpp`, `asio_tcp_server.cpp`)

`MessageProcessor` reads a line that arrived on a session, checks who sent it and hands it to the
node. The sessions are known by their ids: a session of a node has a temporary id, such as `+1`,
until the first message on it names its sender (`identify`); a session of a client has an id such as
`-2`. A session is referred to by its id and by its place in `peers_`, if it is still there.

A call that does not return is a `Crash`: an exception that is not a failure of the stream, or a
fault of the node. The other callbacks of the node (what it sends, its timers) are listed, not
carried out.
-/

namespace Raft

open Stream

/-- How the processing of a line can fail to return. -/
inductive Crash
  /-- an exception that nothing catches -/
  | exception
  | fault (fault : Fault)
  deriving DecidableEq, Repr

/-! ## Sessions -/

/-- `network::asio::Server`, as far as the ids of its sessions go. -/
structure Network where
  peers : List String
  allClients : List String
  stop : Bool
  deriving DecidableEq, Repr

namespace Network

/-- The loop of `identify` from the place `i` on: the ids after it, and how many were renamed. The
temporary id is a reference to the id of the session at `self`, and changes when that is renamed. -/
def rename (self : Option Nat) (peerId : String) : String → Nat → List String → List String × Nat
  | _, _, [] => ([], 0)
  | tempId, i, id :: ids =>
    if id == tempId then
      let (ids, count) := rename self peerId (if self = some i then peerId else tempId) (i + 1) ids
      (peerId :: ids, count + 1)
    else
      let (ids, count) := rename self peerId tempId (i + 1) ids
      (id :: ids, count)

def identify (net : Network) (state : State) (self : Option Nat) (tempId peerId : String) :
    Network × Bool :=
  if net.stop then
    (net, false)
  else
    let (peers, identifyCount) := rename self peerId tempId 0 net.peers
    ({ net with peers }, if state.findPeer peerId = none then false else identifyCount == 1)

def drop (net : Network) (tempId : String) : Network :=
  if net.stop then
    net
  else if tempId.toList.head? = some '-' ∧ tempId ∈ net.allClients then
    { net with allClients := net.allClients.filter (· ≠ tempId) }
  else
    { net with peers := net.peers.filter (· ≠ tempId) }

/-- The sessions after the callbacks of a handler. -/
def apply (net : Network) (callbacks : List (Callback String)) : Network :=
  callbacks.foldl (fun net callback => match callback with
    | .drop peerId => net.drop peerId
    | _ => net) net

end Network

/-! ## The processor -/

/-- What a line leaves: the node, the sessions, and the callbacks in order. -/
structure Processed where
  server : Server String
  network : Network
  callbacks : List (Callback String)
  deriving DecidableEq, Repr

/-- What is sent to a client. -/
inductive ClientReply
  | currentEntryResponse (entryInfo : EntryInfo)
  deriving DecidableEq, Repr

namespace Server

/-- `on(ClientRequest)` with an index of 64 bits: after the last index, the new entry gets the index
0, and the call does not come back from `append`. -/
def onClientRequest64 (s : Server String) (request : ClientRequest String) :
    Except Fault (Outcome String) :=
  if s.state.role = .leader ∧ s.storage.uncommit.index = uint64Max then do
    let (storage, _) ← s.storage.append [⟨⟨0, s.storage.currentTerm⟩, request.data⟩]
    .ok ({ s with storage }, [])
  else
    s.onClientRequest request

/-- `on(AppendEntriesResponse)` with an index of 64 bits: the next index after the last one is 0, and
a leader that backs off from it goes on with the last one. -/
def onAppendEntriesResponse64 (s : Server String) (response : AppendEntriesResponse) :
    Except Fault (Outcome String) :=
  match s.state.findPeer response.header.peerId with
  | none => s.onAppendEntriesResponse response
  | some peer =>
    if s.Awaits response peer ∧ response.success = false ∧ peer.nextEntry.index = 0 then
      (s.modifyPeer response.header.peerId ({ · with waitingForResponse := false })).resend
        { peer with nextEntry := { peer.nextEntry with index := uint64Max + 1 } }
    else
      s.onAppendEntriesResponse response

/-- The handler of a message that was read from a line. -/
def on (ndebug : Bool) (s : Server String) : Message String → Except Fault (Outcome String)
  | .clientRequest request => s.onClientRequest64 request
  | .appendEntriesResponse response => s.onAppendEntriesResponse64 response
  | message => s.receive ndebug message

end Server

/-- The header of a message between nodes. -/
def Message.header : Message String → Option MessageHeader
  | .voteRequest request => some request.header
  | .voteResponse response => some response.header
  | .appendEntriesRequest request => some request.header
  | .appendEntriesResponse response => some response.header
  | .clientRequest _ => none

/-- The call of a handler. -/
def handOver (ndebug : Bool) (network : Network) (s : Server String) (message : Message String) :
    Except Crash Processed := do
  let (server, callbacks) ← (s.on ndebug message).mapError .fault
  .ok ⟨server, network.apply callbacks, callbacks⟩

/-- The identity check of `process_impl`, with the sessions it leaves. -/
def checkIdentity (network : Network) (self : Option Nat) (id : String) (s : Server String)
    (peerId : String) : Network × Bool :=
  if peerId ≠ id then network.identify s.state self id peerId else (network, true)

/-- A message that was read, on the port of the nodes; `process_impl` when it has a header. -/
def processRpc (ndebug : Bool) (network : Network) (self : Option Nat) (id : String)
    (s : Server String) (message : Message String) : Except Crash Processed :=
  match message.header with
  | none => handOver ndebug network s message
  | some header =>
    let (network, identified) := checkIdentity network self id s header.peerId
    if identified then handOver ndebug network s message
    else .ok ⟨s, network.drop header.peerId, [.drop header.peerId]⟩

/-- The session is dropped. -/
def dropSession (network : Network) (id : String) (s : Server String) : Processed :=
  ⟨s, network.drop id, [.drop id]⟩

def processServerMessage (ndebug : Bool) (room : Room) (network : Network) (self : Option Nat)
    (id : String) (s : Server String) (message : String) : Except Crash Processed :=
  match readServerMessage room message.toList with
  | .error .failbit => .ok (dropSession network id s)
  | .error .exception => .error .exception
  | .ok (none, _) => .ok (dropSession network id s)
  | .ok (some (.rpc message), _) => processRpc ndebug network self id s message
  -- `on(ConfigChangeRequest)` is empty
  | .ok (some (.configChangeRequest _), _) => .ok ⟨s, network, []⟩

/-- A message on the port of the clients. -/
inductive ClientMessage
  | clientRequest (request : ClientRequest String)
  | currentEntryRequest
  deriving DecidableEq, Repr

def readClientMessage : Extract (Option ClientMessage) := do
  let name ← word
  if name = "ClientRequest" then do
    let request ← readClientRequest
    return some (.clientRequest request)
  else if name = "CurrentEntryRequest" then
    return some .currentEntryRequest
  else
    return none

/-- The reply goes to the session itself. -/
def processClientMessage (ndebug : Bool) (network : Network) (id : String) (s : Server String)
    (message : String) : Except Crash (Processed × Option ClientReply) :=
  match readClientMessage message.toList with
  | .error .failbit => .ok (dropSession network id s, none)
  | .error .exception => .error .exception
  | .ok (none, _) => .ok (dropSession network id s, none)
  | .ok (some (.clientRequest request), _) => do
    let r ← handOver ndebug network s (.clientRequest { request with clientId := id })
    .ok (r, none)
  | .ok (some .currentEntryRequest, _) =>
    .ok (⟨s, network, []⟩, some (.currentEntryResponse s.storage.commit))

end Raft
