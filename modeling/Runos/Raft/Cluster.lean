import Mathlib.Logic.Function.Basic
import Runos.Raft.Server

/-!
# A cluster of raft nodes

The nodes of a cluster share one list of ids. A message sent by a handler is in flight until it
is delivered to the handler of its destination, lost, or duplicated; the network keeps no order.
No node crashes: a step whose handler faults has no next state.
-/

namespace Raft

/-- A message in flight. -/
structure Envelope (α : Type) where
  destination : String
  message : Message α
  deriving DecidableEq, Repr

structure Cluster (α : Type) where
  ids : List String
  nodes : String → Server α
  network : List (Envelope α)

inductive Event (α : Type)
  | timeout (id : String)
  | minimumTimeout (id : String)
  | clientRequest (id : String) (request : ClientRequest α)
  /-- The `k`-th message in flight reaches its destination. -/
  | deliver (k : Nat)
  | lose (k : Nat)
  | duplicate (k : Nat)
  deriving DecidableEq, Repr

def Event.isDuplicate {α : Type} : Event α → Bool
  | .duplicate _ => true
  | _ => false

/-- The messages among the callbacks of a handler. -/
def sends {α : Type} (callbacks : List (Callback α)) : List (Envelope α) :=
  callbacks.filterMap fun
    | .send peerId message => some ⟨peerId, message⟩
    | _ => none

namespace Cluster

variable {α : Type}

/-- Every node in its constructor state. -/
def init (ids : List String) : Cluster α where
  ids
  nodes id := .init id ids
  network := []

/-- A handler runs at node `id`. -/
def act (s : Cluster α) (id : String) (handler : Server α → Except Fault (Outcome α)) :
    Except Fault (Cluster α) :=
  if id ∈ s.ids then do
    let (node, callbacks) ← handler (s.nodes id)
    .ok { s with
      nodes := Function.update s.nodes id node
      network := s.network ++ sends callbacks }
  else
    .ok s

/-- One step. An event that names no node or no message changes nothing. -/
def step (ndebug : Bool) (s : Cluster α) : Event α → Except Fault (Cluster α)
  | .timeout id => s.act id fun node => .ok node.timeout
  | .minimumTimeout id => s.act id fun node => .ok (node.onMinimumTimeoutRequest, [])
  | .clientRequest id request => s.act id (·.onClientRequest request)
  | .deliver k =>
    match s.network[k]? with
    | none => .ok s
    | some m =>
      { s with network := s.network.eraseIdx k }.act m.destination (·.receive ndebug m.message)
  | .lose k => .ok { s with network := s.network.eraseIdx k }
  | .duplicate k =>
    match s.network[k]? with
    | none => .ok s
    | some m => .ok { s with network := m :: s.network }

/-- The node an event concerns, and what it takes. -/
def input (s : Cluster α) : Event α → Option (String × Input α)
  | .timeout p => some (p, .timeout)
  | .minimumTimeout p => some (p, .minimumTimeout)
  | .clientRequest p request => some (p, .clientRequest request)
  | .deliver k => s.network[k]?.map fun x => (x.destination, .message x.message)
  | .lose _ | .duplicate _ => none

end Cluster

end Raft
