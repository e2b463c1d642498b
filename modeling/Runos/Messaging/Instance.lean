import Runos.Messaging.Checker
import Runos.Messaging.Entries

/-!
# An instance of the application in a cluster (`Messaging.cc`)

One `Messaging` with its raft node. `RequestQueueProcessorThread` hands the front of the queue to
the node on every pass that knows a leader, and never takes it off; the node appends it to its log
when it leads the cluster, and sends it to the leader otherwise. `StorageCheckerThread` polls as in
`Checker`, with `process_entries` of `Entries`.

The rest of the cluster is the leader, when it is another node, and the requests on their way to
it. What the raft threads do to the two nodes, replication and commit above all, is any change
(`Event.raft`); what of it a stable leader allows is said with the runs.
-/

namespace Messaging

open Raft (Server ClientRequest Entry)

/-- How a step can fail to return. -/
inductive InstanceFault
  | app (fault : Topology.Fault)
  | raft (fault : Raft.Fault)
  deriving DecidableEq, Repr

structure Instance where
  app : Messaging
  server : Server String
  /-- The leader, if it is another node. -/
  leader : Option (Server String)
  toLeader : List (ClientRequest String)
  raftLogCommitedIdx : Int
  localCommitedIdx : Int
  polling : Bool

namespace Instance

inductive Event
  | event (event : LocalEvent)
  /-- A pass of `RequestQueueProcessorThread`. -/
  | pass
  /-- The `k`-th request on its way reaches the leader, or gets lost. -/
  | deliver (k : Nat)
  | lose (k : Nat)
  /-- A request of another node reaches the leader. -/
  | foreign (request : ClientRequest String)
  | raft (server : Server String) (leader : Option (Server String))
  | readCommit
  | processEntries

/-- An instance that starts next to two nodes. -/
def start (clientId : String) (server : Server String) (leader : Option (Server String)) :
    Instance where
  app := .init clientId
  server
  leader
  toLeader := []
  raftLogCommitedIdx := 0
  localCommitedIdx := 0
  polling := false

/-- The client requests a node sends to another. -/
def forwarded (id : String) (callbacks : List (Raft.Callback String)) :
    List (ClientRequest String) :=
  callbacks.filterMap fun
    | .send peerId (.clientRequest request) => if peerId = id then some request else none
    | _ => none

def pass (s : Instance) : Except InstanceFault Instance :=
  match s.server.state.findPeer s.server.state.leaderId, s.app.requestQueue with
  | some _, front :: _ => do
    let (server, callbacks) ← (s.server.onClientRequest front).mapError .raft
    let sent := match s.leader with
      | some leader => forwarded leader.state.id callbacks
      | none => []
    .ok { s with server, toLeader := s.toLeader ++ sent }
  | _, _ => .ok s

/-- A request reaches the leader. -/
def submit (s : Instance) (request : ClientRequest String) : Except InstanceFault Instance :=
  match s.leader with
  | some leader => do
    let (leader, _) ← (leader.onClientRequest request).mapError .raft
    .ok { s with leader := some leader }
  | none => do
    let (server, _) ← (s.server.onClientRequest request).mapError .raft
    .ok { s with server }

/-- The variables of the thread that polls, with the storage it reads. -/
def checker (s : Instance) : Checker String where
  storage := s.server.storage
  raftLogCommitedIdx := s.raftLogCommitedIdx
  localCommitedIdx := s.localCommitedIdx
  polling := s.polling
  processed := []

def readCommit (s : Instance) : Instance :=
  let c := s.checker.readCommit
  { s with raftLogCommitedIdx := c.raftLogCommitedIdx, polling := c.polling }

def processEntries (ndebug : Bool) (choice : EdgeChoice Topology.LinkProperty) (s : Instance) :
    Except InstanceFault Instance := do
  let c ← s.checker.processEntries.mapError .raft
  let app ← (s.app.processEntries ndebug choice (c.processed.map (·.data))).mapError .app
  .ok { s with app, localCommitedIdx := c.localCommitedIdx, polling := c.polling }

/-- One step. A step of a thread that is not next, and the delivery of no request, change
nothing. -/
def step (ndebug : Bool) (choice : EdgeChoice Topology.LinkProperty) (s : Instance) :
    Event → Except InstanceFault Instance
  | .event event => do
    let app ← (s.app.receive event).mapError .app
    .ok { s with app }
  | .pass => s.pass
  | .deliver k =>
    match s.toLeader[k]? with
    | some request => { s with toLeader := s.toLeader.eraseIdx k }.submit request
    | none => .ok s
  | .lose k => .ok { s with toLeader := s.toLeader.eraseIdx k }
  | .foreign request => s.submit request
  | .raft server leader => .ok { s with server, leader }
  | .readCommit => .ok (if s.polling then s else s.readCommit)
  | .processEntries => if s.polling then s.processEntries ndebug choice else .ok s

/-- The log of the leader. -/
def log (s : Instance) : List (Entry String) := (s.leader.getD s.server).storage.entries

def committed (s : Instance) : List (Entry String) :=
  s.server.storage.entries.take s.server.storage.commit.index

def uncommitted (s : Instance) : List (Entry String) :=
  s.server.storage.entries.drop s.server.storage.commit.index

end Instance

end Messaging
