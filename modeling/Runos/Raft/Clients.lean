import Runos.Raft.Cluster

/-!
# The client sessions of a node (`asio_tcp_server.hpp`, `asio_tcp_server.cpp`)

`network::asio::Server` owns a raft server, is its `Callbacks` and serves client sessions beside
the peer sessions. `Clients` holds what its client side reads: `stop_`, the keys of `all_clients_`
and `watermark_index_`, with the broadcasts `commit_advanced` has made. Sockets, timers and the
peer sessions are left out; a session's id is part of the event that accepts it.

`Service` is a cluster in which every node has its client side: the callbacks of the handler an
event runs reach the client side of the node it runs at, over the storage the handler has left.
-/

namespace Raft

variable {α : Type}

/-- One `CurrentEntryResponse`, sent to every client session. -/
structure Broadcast where
  entryInfo : EntryInfo
  clients : List String
  deriving DecidableEq, Repr

structure Clients where
  stop : Bool
  allClients : List String
  watermarkIndex : Nat
  broadcasts : List Broadcast
  deriving DecidableEq, Repr

namespace Clients

/-- The constructor. -/
def init : Clients where
  stop := true
  allClients := []
  watermarkIndex := 0
  broadcasts := []

/-- The handler of `do_accept_client`: `emplace` keeps a session that is there. -/
def accept (c : Clients) (id : String) : Clients :=
  if c.stop = true then c
  else if id ∈ c.allClients then c
  else { c with allClients := c.allClients ++ [id] }

/-- `stop` -/
def stopAll (c : Clients) : Clients :=
  if c.stop = true then c else { c with stop := true, allClients := [] }

/-- `drop`: an id that starts with `-` is a client's; the others are peers, left out here. -/
def drop (c : Clients) (tempId : String) : Clients :=
  if c.stop = true then c
  else if tempId.toList.head? = some '-' then { c with allClients := c.allClients.erase tempId }
  else c

/-- `n` passes of the loop of `commit_advanced`. -/
def announce (storage : MemStorage α) : Nat → Clients → Except Fault Clients
  | 0, c => .ok c
  | n + 1, c => do
    let entryInfo ← storage.getEntryInfo c.watermarkIndex
    announce storage n { c with
      broadcasts := c.broadcasts ++ [⟨entryInfo, c.allClients⟩]
      watermarkIndex := c.watermarkIndex + 1 }

/-- `commit_advanced`: the loop runs while the watermark is below `commitIndex`. -/
def commitAdvanced (storage : MemStorage α) (c : Clients) (commitIndex : Nat) :
    Except Fault Clients :=
  if c.stop = true ∨ c.allClients = [] then .ok c
  else announce storage (commitIndex - c.watermarkIndex) c

/-- The callbacks of one handler, in order. -/
def callbacks (storage : MemStorage α) (c : Clients) : List (Callback α) → Except Fault Clients
  | [] => .ok c
  | .commitAdvanced commitIndex :: rest => do
    let c ← c.commitAdvanced storage commitIndex
    c.callbacks storage rest
  | .drop id :: rest => (c.drop id).callbacks storage rest
  | _ :: rest => c.callbacks storage rest

end Clients

/-! ## A cluster with clients -/

structure Service (α : Type) where
  cluster : Cluster α
  clients : String → Clients

inductive Service.Event (α : Type)
  | raft (event : Raft.Event α)
  /-- `start()` at node `id`. -/
  | start (id : String)
  | stop (id : String)
  /-- A client session of node `id` is accepted. -/
  | accept (id client : String)
  /-- A session of node `id` ends. -/
  | drop (id session : String)
  deriving DecidableEq, Repr

namespace Service

def init (ids : List String) : Service α where
  cluster := .init ids
  clients _ := .init

def modifyClients (s : Service α) (id : String) (f : Clients → Clients) : Service α :=
  { s with clients := Function.update s.clients id (f (s.clients id)) }

/-- The clients after the callbacks of the handler that `input` runs at node `id`. -/
def notify (ndebug : Bool) (s : Service α) (id : String) (input : Input α) :
    Except Fault (String → Clients) :=
  if id ∈ s.cluster.ids then do
    let (node, callbacks) ← (s.cluster.nodes id).handle ndebug input
    let c ← (s.clients id).callbacks node.storage callbacks
    .ok (Function.update s.clients id c)
  else
    .ok s.clients

/-- One step. `start` also runs `on(MinimumTimeoutRequest)`. -/
def step (ndebug : Bool) (s : Service α) : Event α → Except Fault (Service α)
  | .raft event => do
    let cluster ← s.cluster.step ndebug event
    match s.cluster.input event with
    | none => .ok { s with cluster }
    | some (id, input) =>
      let clients ← s.notify ndebug id input
      .ok { cluster, clients }
  | .start id =>
    if (s.clients id).stop = true then do
      let cluster ← s.cluster.step ndebug (.minimumTimeout id)
      .ok { s.modifyClients id ({ · with stop := false }) with cluster }
    else
      .ok s
  | .stop id => .ok (s.modifyClients id Clients.stopAll)
  | .accept id client => .ok (s.modifyClients id (·.accept client))
  | .drop id session => .ok (s.modifyClients id (·.drop session))

end Service

end Raft
