import Runos.Lib.Trace

/-!
# Events for the web interface (`Event.hh`, `Event.cc`)

Applications add events about their objects to one list. A client polls: it names the applications
by the bits of their hashes and the last event it knows, and gets what is new. An Add and the Delete
of the same object point to each other as brothers; a pointer to an event is its position in the
list. What is sent of an event is its id, its type and the object; the time, the name of the
application and the description of the object are left out, and so is the grouping of the events of
a reply by applications.
-/

namespace Rest

open Runs

/-- `Event::Type` -/
inductive EventType
  | add | delete | change
  deriving DecidableEq, Repr

/-- `EventImpl` -/
structure Event (α : Type) where
  id : UInt32
  type : EventType
  obj : α
  hash : UInt32
  brother : Option Nat
  deriving DecidableEq, Repr

/-- What is sent of an event. -/
structure Report (α : Type) where
  eventId : UInt32
  type : EventType
  obj : α
  deriving DecidableEq, Repr

def Event.toJson {α : Type} (e : Event α) : Report α := ⟨e.id, e.type, e.obj⟩

/-- `EventIDs::last_event` and the list of events. -/
structure EventManager (α : Type) where
  lastEvent : UInt32
  events : List (Event α)
  deriving DecidableEq, Repr

namespace EventManager

variable {α : Type} [DecidableEq α]

def init : EventManager α := ⟨0, []⟩

/-- `findBrother`: the latest Add of the object. -/
def findBrother (m : EventManager α) (obj : α) : Option Nat :=
  (m.events.reverse.findIdx? fun e => e.obj = obj ∧ e.type = .add).map fun i =>
    m.events.length - 1 - i

/-- `addToEventList` with `setBrother`; none follows the null pointer when there was no Add. -/
def addToEventList (m : EventManager α) (type : EventType) (obj : α) (hash : UInt32) :
    Option (EventManager α) :=
  if hash = 0 then some m
  else
    let id := m.lastEvent + 1
    if type = .delete then
      match m.findBrother obj with
      | none => none
      | some k => some ⟨id, (m.events.modify k fun e => { e with brother := some m.events.length }) ++
          [⟨id, type, obj, hash, some k⟩]⟩
    else
      some ⟨id, m.events ++ [⟨id, type, obj, hash, none⟩]⟩

/-- `checkOverlap`; none follows a pointer to no event. -/
def checkOverlap (m : EventManager α) (testEv : Event α) (lastEv : UInt32) : Option Bool :=
  match testEv.type with
  | .add => some testEv.brother.isSome
  | .delete =>
    match testEv.brother.bind fun k => m.events[k]? with
    | none => none
    | some brother => some !decide (brother.id ≤ lastEv)
  | .change => some false

/-- The loop of `timeout`: the greatest id that is sent, and what is sent. -/
def collect (m : EventManager α) (hashMap last : UInt32) (acc : UInt32 × List (Report α))
    (it : Event α) : Option (UInt32 × List (Report α)) :=
  if it.hash &&& hashMap ≠ 0 ∧ last < it.id then
    match m.checkOverlap it last with
    | none => none
    | some true => some acc
    | some false => some (if acc.1 < it.id then it.id else acc.1, acc.2 ++ [it.toJson])
  else
    some acc

def timeout (m : EventManager α) (hashMap last : UInt32) : Option (UInt32 × List (Report α)) :=
  (m.events.foldlM (m.collect hashMap last) (0, [])).map fun r =>
    (if r.1 = 0 then last else r.1, r.2)

end EventManager

/-! ## A client -/

/-- The manager, and a client with the last event it knows and all it has received. -/
structure Polling (α : Type) where
  manager : EventManager α
  last : UInt32
  received : List (Report α)
  deriving DecidableEq, Repr

namespace Polling

variable {α : Type} [DecidableEq α]

def init : Polling α := ⟨.init, 0, []⟩

inductive Step (α : Type)
  /-- The application of the object adds an event. -/
  | event (type : EventType) (obj : α)
  /-- The client calls `timeout` with the value its previous call returned. -/
  | poll
  deriving DecidableEq, Repr

/-- Whether the object is there after the events of the list. -/
def shown (l : List (Report α)) (obj : α) : Bool :=
  l.foldl (fun there r =>
    if r.obj = obj then
      match r.type with
      | .add => true
      | .delete => false
      | .change => there
    else there) false

/-- The objects that have been added and not deleted. -/
def live (s : Polling α) (obj : α) : Bool := shown (s.manager.events.map Event.toJson) obj

variable (hashOf : α → UInt32) (hashMap : UInt32)

/-- One step; `hashOf` is the hash of the application of an object. -/
def step (s : Polling α) : Step α → Except Unit (Polling α)
  | .event type obj =>
    match s.manager.addToEventList type obj (hashOf obj) with
    | none => .error ()
    | some manager => .ok { s with manager }
  | .poll =>
    match s.manager.timeout hashMap s.last with
    | none => .error ()
    | some (last, events) => .ok { s with last, received := s.received ++ events }

/-- The Adds and Deletes of an object alternate, and the first one is an Add. -/
def Alternates (s : Polling α) : Step α → Prop
  | .event .add obj => hashOf obj ≠ 0 → s.live obj = false
  | .event .delete obj => hashOf obj ≠ 0 → s.live obj = true
  | .event .change _ => False
  | .poll => True

abbrev Session (h : List (Polling α × Step α)) (s : Polling α) : Prop :=
  Trace (step hashOf hashMap) (Alternates hashOf) init h s

end Polling

end Rest
