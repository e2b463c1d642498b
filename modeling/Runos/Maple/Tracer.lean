import Runos.Maple.Runtime

/-!
# Tracers

`maple/Tracer.hh`. A tracer that only records the calls it gets yields the events of a run
(`Policy.record`), next to what the policy is answered.

`TracerState` is a tracer of a trace tree that is called from outside, whatever the calls are: the
node at the end of its path with the tree around it or, after `finish`, the null pointer that ends
the path. A call that throws leaves the path and the tree as they are.
-/

namespace Maple

open Oxm OxmType

variable {τ : Type} [OxmType τ] [DecidableEq τ] {D F : Type} {t : τ}

/-- A call of `Tracer::load` or `Tracer::test`. -/
inductive TraceEvent (τ : Type) [OxmType τ]
  | load (t : τ) (data : Field t)
  | test (t : τ) (pred : Field t) (ret : Bool)

/-- The type of the field that the call is about. -/
def TraceEvent.type : TraceEvent τ → τ
  | .load t _ => t
  | .test t _ _ => t

/-- The packet gives the answer that was recorded. -/
def TraceEvent.Answered (q : Packet τ) : TraceEvent τ → Prop
  | .load _ data => q.load data.mask = some data
  | .test _ pred ret => q.test pred = some ret

instance (q : Packet τ) : DecidablePred (TraceEvent.Answered q)
  | .load _ _ => inferInstanceAs (Decidable (_ = _))
  | .test _ _ _ => inferInstanceAs (Decidable (_ = _))

/-! ## Traced packets whose tracer records -/

namespace TraceablePacketImpl

/-- `load` with the tracer that records. -/
def loadRecorded (p : TraceablePacketImpl τ) (mask : Mask t) :
    Except Exc (Field t × TraceablePacketImpl τ × List (TraceEvent τ)) :=
  p.loadVia mask [] fun data => .ok [.load t data]

/-- `test` with the tracer that records. -/
def testRecorded (p : TraceablePacketImpl τ) (need : Field t) :
    Except Exc (Bool × TraceablePacketImpl τ × List (TraceEvent τ)) :=
  p.testVia need [] fun pred ret => .ok [.test t pred ret]

end TraceablePacketImpl

/-! ## Recorded runs -/

/-- A call of the policy, with what it was answered. -/
inductive Reply (τ : Type) [OxmType τ]
  | load (t : τ) (mask : Mask t) (answer : Except Exc (Field t))
  | test (t : τ) (need : Field t) (answer : Except Exc Bool)
  | modify (t : τ) (patch : Field t) (answer : Except Exc Unit)

/-- The calls of a policy that runs on the packet itself, and what they return. -/
def Policy.replies : Policy τ D → ModTrackingPacket τ → List (Reply τ)
  | .done _, _ => []
  | .raise _, _ => []
  | .load t mask k, p =>
    let answer := orOutOfRange (p.pkt.load mask)
    .load t mask answer :: (k answer).replies p
  | .test t need k, p =>
    let answer := orOutOfRange (p.pkt.test need)
    .test t need answer :: (k answer).replies p
  | .modify t patch k, p =>
    match p.modify patch with
    | .error e => .modify t patch (.error e) :: (k (.error e)).replies p
    | .ok p' => .modify t patch (.ok ()) :: (k (.ok ())).replies p'

/-- A run on a traced packet: what the tracer recorded, what the policy was answered, how it ended
and the packet it left. -/
structure Record (τ : Type) [OxmType τ] (D : Type) where
  events : List (TraceEvent τ)
  replies : List (Reply τ)
  result : Except Exc D
  pkt : ModTrackingPacket τ

/-- The record with a call before it. -/
def Record.push (r : Record τ D) (events : List (TraceEvent τ)) (reply : Reply τ) : Record τ D :=
  { r with events := events ++ r.events, replies := reply :: r.replies }

/-- Running the policy on a traced packet with the tracer that records. -/
def Policy.record : Policy τ D → TraceablePacketImpl τ → Record τ D
  | .done d, p => ⟨[], [], .ok d, p.pkt⟩
  | .raise e, p => ⟨[], [], .error e, p.pkt⟩
  | .load t mask k, p =>
    match p.loadRecorded mask with
    | .error e => ((k (.error e)).record p).push [] (.load t mask (.error e))
    | .ok (read, p', events) => ((k (.ok read)).record p').push events (.load t mask (.ok read))
  | .test t need k, p =>
    match p.testRecorded need with
    | .error e => ((k (.error e)).record p).push [] (.test t need (.error e))
    | .ok (ret, p', events) => ((k (.ok ret)).record p').push events (.test t need (.ok ret))
  | .modify t patch k, p =>
    match p.modify patch with
    | .error e => ((k (.error e)).record p).push [] (.modify t patch (.error e))
    | .ok p' => ((k (.ok ())).record p').push [] (.modify t patch (.ok ()))

/-! ## The tracer of a tree -/

/-- A tracer of a trace tree (module doc). -/
inductive TracerState (τ : Type) [OxmType τ] (F : Type)
  | tracing (node : Node τ F) (plug : Node τ F → Node τ F)
  | finished (tree : Node τ F) (flow : F)

/-- A call of the `Tracer` interface. -/
inductive TracerCall (τ : Type) [OxmType τ] (F : Type)
  | event (e : TraceEvent τ)
  | finish (flow : F)

namespace TracerState

/-- `TraceTree::augment` -/
def start (tree : Node τ F) : TracerState τ F := .tracing tree id

/-- The trace tree. -/
def tree : TracerState τ F → Node τ F
  | .tracing node plug => plug node
  | .finished tree _ => tree

/-- The flow that `finish` was called with, once it has returned. -/
def flow : TracerState τ F → Option F
  | .tracing _ _ => none
  | .finished _ flow => some flow

/-- The cursor after the call of an event at a node. -/
def eventAt (n : Node τ F) : TraceEvent τ → Except Exc (Cursor τ F)
  | .load _ data => TracerImpl.load data n
  | .test _ pred ret => TracerImpl.test pred ret n

/-- One call. A path that ends in the null pointer is at no node. -/
def call : TracerState τ F → TracerCall τ F → Except Exc (TracerState τ F)
  | .tracing node plug, .event e => do
    let c ← eventAt node e
    return .tracing c.child (plug ∘ c.plug)
  | .tracing node plug, .finish flow => do
    let leaf ← TracerImpl.finish flow node
    return .finished (plug leaf) flow
  | .finished _ _, _ => .error .inconsistentTrace

/-- A sequence of calls, with the events whose calls returned; after a call that throws, the next
one is made. -/
def calls : List (TracerCall τ F) → TracerState τ F → TracerState τ F × List (TraceEvent τ)
  | [], s => (s, [])
  | c :: cs, s =>
    match s.call c, c with
    | .error _, _ => calls cs s
    | .ok s', .event e => ((calls cs s').1, e :: (calls cs s').2)
    | .ok s', .finish _ => calls cs s'

end TracerState

end Maple
