import Runos.Controller.SwitchScope

/-!
# A flow and its switch

One `FlowImpl` of a `SwitchScope`, and whether its rule is on the switch, joined by two FIFO
channels: the messages on their way to the switch, and the packet-ins and `FlowRemoved` messages on
their way to the controller. The functions of the flow are those of `SwitchScope.lean`; what the
rest of the scope adds to them comes with the events: the outcome of the policy for a packet-in of
the flow, the place the compiled tree gives its rule, and commits caused by packets of other flows.

The rules of other flows are left out, so no rule is refused because of them; adding the rule while
it is there changes nothing. A flow that is no longer in `flows` is gone, and packets of its class
make a new flow.
-/

namespace Controller

open Oxm OxmType

/-- What is sent to the controller. -/
inductive Report (τ : Type) [OxmType τ]
  | packetIn (pi : PacketIn τ)
  | flowRemoved (reason : RemovedReason)

structure FlowOnSwitch (τ : Type) [OxmType τ] where
  /-- The flow, while it is in `flows`. -/
  flow : Option (FlowImpl τ)
  toSwitch : List (Msg τ)
  /-- The rule of the flow is on the switch. -/
  present : Bool
  toController : List (Report τ)

/-- What the rest of the scope does with a packet-in: the decision of the policy, which may have
been made before an exception, the fields it sets, and the rule that the commit gives the flow, if
the commit comes to it. -/
structure Verdict (τ : Type) [OxmType τ] where
  decision : Option Decision
  thrown : Bool
  mods : FieldSet τ
  priority : Nat
  matchSet : FieldSet τ
  reached : Bool

variable {τ : Type} [OxmType τ] [DecidableEq τ]

/-- What a message does to the rule, and the removals that are reported. -/
def Msg.apply (present : Bool) : Msg τ → Bool × List RemovedReason
  | .add _ _ _ => (true, [])
  | .delete => (false, if present then [.delete] else [])
  | .packetOut _ => (present, [])

namespace FlowOnSwitch

/-- The flow as it is made. -/
def init (cookie : Nat) : FlowOnSwitch τ where
  flow := some { cookie }
  toSwitch := []
  present := false
  toController := []

/-! ## The controller -/

variable (flood : Output) (s : FlowOnSwitch τ)

/-- `FlowImpl::install` -/
def install (f : FlowImpl τ) : FlowOnSwitch τ :=
  match f.install flood with
  | (f, .ok ms) => { s with flow := some f, toSwitch := s.toSwitch ++ ms }
  | (f, .error _) => { s with flow := some f }

/-- `TraceTree::commit`: the rules of Maple are deleted, and the flow is installed when the commit
comes to it. -/
def commit (priority : Nat) (matchSet : FieldSet τ) (reached : Bool) : FlowOnSwitch τ :=
  let s := { s with toSwitch := s.toSwitch ++ [Msg.delete] }
  match s.flow with
  | none => s
  | some f => if reached then s.install flood (f.placed priority matchSet) else s

/-- The flow once the policy has run for its packet-in. -/
def decided (f : FlowImpl τ) (v : Verdict τ) : FlowImpl τ :=
  { f with decision := v.decision.getD f.decision, mods := v.mods }

/-- `processPacketIn` on a flow that is to be decided. -/
def decideFlow (f : FlowImpl τ) (v : Verdict τ) : FlowOnSwitch τ :=
  if v.thrown then
    { s with flow := some { f with decision := v.decision.getD f.decision } }
  else if (decided f v).disposable then
    match ((decided f v).placed 1 v.mods).install flood with
    | (_, .ok ms) => { s with flow := none, toSwitch := s.toSwitch ++ ms }
    | (f, .error _) => { s with flow := some f }
  else
    { s with flow := some (decided f v) }.commit flood v.priority v.matchSet v.reached

/-- `SwitchScope::processPacketIn`, as far as it concerns the flow. -/
def processPacketIn (pi : PacketIn τ) (v : Verdict τ) : FlowOnSwitch τ :=
  match s.flow with
  | none => s
  | some f =>
    match f.state with
    | .egg | .idle => s.decideFlow flood (f.packet_in pi) v
    | .evicted => s.install flood (f.packet_in pi)
    -- a new flow is made
    | .expired => s
    | .active =>
      if SwitchScope.isTableMiss pi then
        s.install flood (f.packet_in pi)
      else if v.thrown then
        { s with flow := some (f.packet_in pi) }
      else
        { s with flow := some { f.packet_in pi with decision := v.decision.getD f.decision } }

/-- `SwitchScope::processFlowRemoved` -/
def processFlowRemoved (reason : RemovedReason) : FlowOnSwitch τ :=
  match s.flow with
  | none => s
  | some f =>
    let f := f.flow_removed reason
    { s with flow := if f.state = .expired then none else some f }

/-- The oldest message of the switch is handled. -/
def receive (v : Verdict τ) : FlowOnSwitch τ :=
  match s.toController with
  | [] => s
  | .packetIn pi :: rest => { s with toController := rest }.processPacketIn flood pi v
  | .flowRemoved reason :: rest => { s with toController := rest }.processFlowRemoved reason

/-! ## The switch -/

/-- The oldest message of the controller is executed. -/
def execute : FlowOnSwitch τ :=
  match s.toSwitch with
  | [] => s
  | m :: rest =>
    { s with
      toSwitch := rest
      present := (m.apply s.present).1
      toController := s.toController ++ (m.apply s.present).2.map .flowRemoved }

/-- The rule is removed by a timeout or by a third party. -/
def remove (reason : RemovedReason) : FlowOnSwitch τ :=
  if s.present then
    { s with present := false, toController := s.toController ++ [.flowRemoved reason] }
  else
    s

/-! ## Steps -/

inductive Event (τ : Type) [OxmType τ]
  /-- The switch sends a packet of the flow's class to the controller. -/
  | packet (pi : PacketIn τ)
  | receive (v : Verdict τ)
  /-- A commit caused by another packet. -/
  | commit (priority : Nat) (matchSet : FieldSet τ) (reached : Bool)
  | execute
  | remove (reason : RemovedReason)

def step : Event τ → FlowOnSwitch τ
  | .packet pi => { s with toController := s.toController ++ [.packetIn pi] }
  | .receive v => s.receive flood v
  | .commit priority matchSet reached => s.commit flood priority matchSet reached
  | .execute => s.execute
  | .remove reason => s.remove reason

end FlowOnSwitch

end Controller
