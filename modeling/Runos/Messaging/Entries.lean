import Runos.Lib.Signals
import Runos.Lib.Stream
import Runos.Raft.Server
import Runos.Topology.Graph
import Runos.Types.IPv4Addr

/-!
# Local events and committed entries (`Messaging.cc`)

An event of the network becomes a request with the id of the node and a number, and waits in
`request_queue`. Its data is a text of fields between commas. `process_entries` applies the data of
committed entries to the replicated topology, and pops the request at the front of the queue when
the entry carries its two ids.

`boost::edge` gives any of several edges between two vertices (`EdgeChoice`). The times of the
requests, the backup of the topology, `ready_to_on`, which only paces the thread that submits
requests, and the `HostImpl` behind a `Host` with its random id are left out.
-/

/-! ## Texts -/

namespace Messaging

open Topology (Fault TopologyImpl)

/-- `boost::algorithm::split(tokens, data, boost::is_any_of(","))` -/
def split (data : String) : List String := (data.toList.splitOn ',').map String.ofList

/-- `tokens[i]` -/
def token (tokens : List String) (i : Nat) : Except Fault String :=
  match tokens[i]? with
  | some t => .ok t
  | none => .error .undefined

/-- `std::stoull`: blanks, a sign and decimal digits, whatever follows. `std::stoul` is the same. -/
def stoull (text : String) : Except Fault UInt64 :=
  match Stream.integer text.toList with
  | .error _ => .error .exception
  | .ok ((negative, n), _) =>
    if 2 ^ 64 ≤ n then .error .exception
    else .ok (if negative then -UInt64.ofNat n else UInt64.ofNat n)

/-- The port of a link: an `unsigned long` narrowed to 32 bits. -/
def stoPort (text : String) : Except Fault UInt32 := do
  let n ← stoull text
  .ok n.toUInt32

/-- `IPv4Addr(str)` -/
def toIPv4Addr (text : String) : Except Fault UInt32 :=
  (IPv4Addr.parseIPv4Address text).mapError fun _ => .exception

structure Host where
  mac : String
  ip : UInt32
  switchID : UInt64
  switchPort : UInt32
  deriving DecidableEq, Repr

end Messaging

/-! ## The application -/

structure Messaging where
  /-- `peers[myidx].id` -/
  clientId : String
  messageId : Nat
  requestQueue : List (Raft.ClientRequest String)
  /-- `m`, without the hosts. -/
  m : Topology.TopologyImpl
  hosts : List Messaging.Host
  /-- The requests popped so far, the latest first. -/
  popped : List (Raft.ClientRequest String)

namespace Messaging

open Topology (Fault TopologyImpl)

def init (clientId : String) : Messaging where
  clientId
  messageId := 0
  requestQueue := []
  m := .init
  hosts := []
  popped := []

/-! ### Events -/

/-- The data of a request. -/
def requestData (clientId : String) (messageId : Nat) (fields : List String) : String :=
  ",".intercalate (clientId :: toString messageId :: fields)

/-- Queues the request of an event with the next number, which is an `int`. -/
def pushRequest (s : Messaging) (fields : List String) : Except Fault Messaging :=
  if s.messageId + 1 = 2 ^ 31 then
    .error .undefined
  else
    let messageId := s.messageId + 1
    .ok { s with
      messageId
      requestQueue := s.requestQueue ++
        [⟨s.clientId, toString messageId, requestData s.clientId messageId fields⟩] }

def linkFields (kind : String) (source target : SwitchAndPort) : List String :=
  [kind, toString source.dpid.toNat, toString source.port.toNat, toString target.dpid.toNat,
    toString target.port.toNat]

def onLinkDiscovered (s : Messaging) (source target : SwitchAndPort) : Except Fault Messaging :=
  s.pushRequest (linkFields "linkDiscovered" source target)

def onLinkBroken (s : Messaging) (source target : SwitchAndPort) : Except Fault Messaging :=
  s.pushRequest (linkFields "linkBroken" source target)

def onHostDiscovered (s : Messaging) (id : UInt64) (dev : Host) : Except Fault Messaging :=
  if IPv4Addr.print dev.ip = "0.0.0.0" then
    .ok s
  else
    s.pushRequest ["hostDiscovered", toString id.toNat, dev.mac, toString dev.switchID.toNat,
      toString dev.switchPort.toNat, IPv4Addr.print dev.ip]

inductive LocalEvent
  | linkDiscovered (source target : SwitchAndPort)
  | linkBroken (source target : SwitchAndPort)
  | hostDiscovered (id : UInt64) (dev : Host)
  deriving DecidableEq, Repr

def receive (s : Messaging) : LocalEvent → Except Fault Messaging
  | .linkDiscovered source target => s.onLinkDiscovered source target
  | .linkBroken source target => s.onLinkBroken source target
  | .hostDiscovered id dev => s.onHostDiscovered id dev

/-! ### Entries -/

def processHostDiscovered (s : Messaging) (tokens : List String) : Except Fault Messaging := do
  let mac ← token tokens 4
  let ip ← toIPv4Addr (← token tokens 7)
  let switchID ← stoull (← token tokens 5)
  let switchPort ← stoPort (← token tokens 6)
  .ok { s with hosts := s.hosts ++ [⟨mac, ip, switchID, switchPort⟩] }

/-- The two ports of a link. -/
def readLink (tokens : List String) : Except Fault PortPair := do
  let sourceDpid ← stoull (← token tokens 3)
  let sourcePort ← stoPort (← token tokens 4)
  let targetDpid ← stoull (← token tokens 5)
  let targetPort ← stoPort (← token tokens 6)
  .ok (⟨sourceDpid, sourcePort⟩, ⟨targetDpid, targetPort⟩)

/-- The graph after a link between two ports is found. -/
def linkDiscovered (ndebug : Bool) (choice : EdgeChoice Topology.LinkProperty) (m : TopologyImpl)
    (source target : SwitchAndPort) : Except Fault TopologyImpl :=
  if source.dpid = target.dpid then
    .ok m
  else do
    let (m, u) ← m.vertex ndebug source.dpid
    let (m, v) ← m.vertex ndebug target.dpid
    let added : TopologyImpl := { m with graph := m.graph.addEdge u v ⟨source, target, 1⟩ }
    match m.graph.edge choice u v with
    | none => .ok added
    | some lp =>
      -- a bad or duplicate link is ignored
      if source.port = lp.source.port ∨ target.port = lp.target.port then .ok m else .ok added

/-- The graph after the link between two ports broke. -/
def linkBroken (ndebug : Bool) (m : TopologyImpl) (source target : SwitchAndPort) :
    Except Fault TopologyImpl := do
  let (m, u) ← m.vertex ndebug source.dpid
  let (m, v) ← m.vertex ndebug target.dpid
  .ok { m with graph := m.graph.removeEdge u v }

def processLinkDiscovered (ndebug : Bool) (choice : EdgeChoice Topology.LinkProperty)
    (s : Messaging) (tokens : List String) : Except Fault Messaging := do
  let (source, target) ← readLink tokens
  let m ← linkDiscovered ndebug choice s.m source target
  .ok { s with m }

def processLinkBroken (ndebug : Bool) (s : Messaging) (tokens : List String) :
    Except Fault Messaging := do
  let (source, target) ← readLink tokens
  let m ← linkBroken ndebug s.m source target
  .ok { s with m }

/-- What an entry does to the topology. -/
def processTokens (ndebug : Bool) (choice : EdgeChoice Topology.LinkProperty) (s : Messaging)
    (tokens : List String) : Except Fault Messaging := do
  let kind ← token tokens 2
  if kind = "hostDiscovered" then
    s.processHostDiscovered tokens
  else if kind = "linkDiscovered" then
    s.processLinkDiscovered ndebug choice tokens
  else if kind = "linkBroken" then
    s.processLinkBroken ndebug tokens
  else
    .ok s

/-- Pops the front of the queue if the entry carries its ids. The front is read even when the queue
is empty. -/
def popRequest (s : Messaging) (tokens : List String) : Except Fault Messaging :=
  match s.requestQueue with
  | [] => .error .undefined
  | front :: rest =>
    if tokens[0]? = some front.clientId ∧ tokens[1]? = some front.messageId then
      .ok { s with requestQueue := rest, popped := front :: s.popped }
    else
      .ok s

def processEntry (ndebug : Bool) (choice : EdgeChoice Topology.LinkProperty) (s : Messaging)
    (data : String) : Except Fault Messaging := do
  let s ← s.processTokens ndebug choice (split data)
  s.popRequest (split data)

def processEntries (ndebug : Bool) (choice : EdgeChoice Topology.LinkProperty) (s : Messaging)
    (entries : List String) : Except Fault Messaging :=
  entries.foldlM (processEntry ndebug choice) s

end Messaging
