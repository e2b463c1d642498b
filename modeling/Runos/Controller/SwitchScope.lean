import Runos.Controller.Decision
import Runos.Maple.Runtime

/-!
# A switch scope and its switch

`FlowImpl`, `MapleBackend` and `SwitchScope` of `Controller.cc`, with the flow table of the switch
they talk to. A flow is named by its cookie, which is unique; `SwitchScope.flows` holds the flows
that are alive, and the trace tree names them weakly. The table executes the messages in the order
they are sent, so barrier requests have no effect. An exception leaves everything that was done
before it (`message_callback` logs it and goes on with the next message).
-/

namespace Controller

open Oxm OxmType Maple

/-- `OFPP_CONTROLLER`. -/
def ofppController : Nat := 0xfffffffd

/-- `COOKIE_BASE`, the first cookie; every cookie from it on is in `Flow::cookie_space()`. -/
def cookieBase : Nat := 2 ^ 63

/-- The cookie of `SwitchScope::miss`, the first flow made. -/
def missCookie : Nat := cookieBase

/-! ## Messages and the flow table -/

/-- An output action: to a port with a length limit, or to a group. -/
inductive Output
  | port (num maxLen : Nat)
  | group (id : Nat)
  deriving DecidableEq

/-- The actions of a flow: the fields that are set, then the outputs. -/
structure ActionList (τ : Type) [OxmType τ] where
  setFields : FieldSet τ
  outputs : Multiset Output

/-- An output action sends to the controller. -/
def Output.toController : Output → Bool
  | .port num _ => num == ofppController
  | .group _ => false

/-- The actions output to the controller. -/
def ActionList.ToController {τ : Type} [OxmType τ] (a : ActionList τ) : Prop :=
  ∃ o ∈ a.outputs, o.toController = true

instance {τ : Type} [OxmType τ] (a : ActionList τ) : Decidable a.ToController :=
  Multiset.decidableExistsMultiset

/-- A rule of the flow table, or the `FlowMod` that adds it; a timeout of `0` is none. -/
structure Entry (τ : Type) [OxmType τ] where
  priority : Nat
  matchSet : FieldSet τ
  cookie : Nat
  idleTimeout : Nat
  hardTimeout : Nat
  actions : ActionList τ

/-- `of13::PacketOut`. -/
structure PacketOut (τ : Type) [OxmType τ] where
  xid : Nat
  bufferId : Option Nat
  inPort : Nat
  data : Option Nat
  actions : ActionList τ

/-- What is sent to the switch: adding a rule (with the buffered packet it is applied to), deleting
the rules with a cookie of the Maple space, a packet. -/
inductive Msg (τ : Type) [OxmType τ]
  | add (xid : Nat) (bufferId : Option Nat) (e : Entry τ)
  | delete
  | packetOut (po : PacketOut τ)

variable {τ : Type} [OxmType τ] [DecidableEq τ]

/-- Some packet can match both sets. -/
def overlaps (s s' : FieldSet τ) : Bool :=
  ∀ e ∈ s.entries, ∀ f ∈ s'.lookup e.1, e.2.agrees f = true

/-- The switch executes a message. `OFPFF_CHECK_OVERLAP`: a rule that overlaps one of the same
priority is refused. -/
def Msg.exec (table : List (Entry τ)) : Msg τ → List (Entry τ)
  | .add _ _ e =>
    if table.any fun e' => e'.priority == e.priority && overlaps e'.matchSet e.matchSet then table
    else table ++ [e]
  | .delete => table.filter fun e => e.cookie < cookieBase
  | .packetOut _ => table

/-! ## Flows -/

/-- `Flow::State`. -/
inductive State
  | egg
  | active
  | evicted
  | idle
  | expired
  deriving DecidableEq

/-- `FlowImpl`. `bufferId` is none for `OFP_NO_BUFFER`; `packetData` is the payload of the pending
packet-in, named by a number. -/
structure FlowImpl (τ : Type) [OxmType τ] where
  cookie : Nat
  state : State := .egg
  priority : Nat := 0
  matchSet : FieldSet τ := ∅
  inPort : Nat := 0
  decision : Decision := {}
  mods : FieldSet τ := ∅
  packetIn : Bool := false
  expectRemoved : Int := 0
  xid : Nat := 0
  bufferId : Option Nat := none
  packetData : Option Nat := none

/-- `OFPR_NO_MATCH`, `OFPR_ACTION`, or another reason of a packet-in. -/
inductive Reason
  | noMatch
  | action
  | other
  deriving DecidableEq

/-- A packet-in: the packet it carries and the fields of the message that are read. -/
structure PacketIn (τ : Type) [OxmType τ] where
  pkt : Packet τ
  reason : Reason
  cookie : Nat
  xid : Nat
  bufferId : Option Nat
  inPort : Nat
  data : Option Nat

/-- The reasons of a `FlowRemoved` message. -/
inductive RemovedReason
  | delete
  | meterDelete
  | idleTimeout
  | hardTimeout
  | groupDelete
  | other (code : UInt8)
  deriving DecidableEq

namespace FlowImpl

variable (flood : Output) (f : FlowImpl τ)

/-- `FlowImpl::disposable`. -/
def disposable : Bool := f.decision.disposable

/-- `DecisionCompiler`; none is `unhandled_packet`. -/
def outputs : Option (Multiset Output) :=
  match f.decision.data with
  | .undefined => none
  | .drop => some 0
  | .unicast port => some {.port port 0}
  | .multicast ports => some (ports.val.map fun port => .port port 0)
  | .broadcast => some {flood}
  | .inspect len => some {.port ofppController len}

/-- `FlowImpl::actions`. -/
def actions : Option (ActionList τ) := (f.outputs flood).map fun o => ⟨f.mods, o⟩

/-- The encoding of a timeout in a `FlowMod`. -/
def encodeTimeout (seconds : Nat) : Nat := if seconds = durationMax then 0 else min seconds 65535

/-- The rule that `install` sends. -/
def entry (actions : ActionList τ) : Entry τ where
  priority := f.priority
  matchSet := f.matchSet
  cookie := f.cookie
  idleTimeout := encodeTimeout f.decision.idleTimeout
  hardTimeout := encodeTimeout f.decision.hardTimeout
  actions := actions

/-- The packet that `install` sends back for a pending packet-in. -/
def packetOutMsg (bufferId : Option Nat) (actions : ActionList τ) : Msg τ :=
  .packetOut ⟨f.xid, bufferId, f.inPort, if f.bufferId = none then f.packetData else none, actions⟩

/-- The messages of `install`, none when `actions()` throws. -/
def messages : Option (List (Msg τ)) :=
  if f.disposable then
    if f.packetIn then (f.actions flood).map fun a => [f.packetOutMsg f.bufferId a]
    else some []
  else (f.actions flood).map fun a =>
    (if f.packetIn && f.bufferId.isNone && f.packetData.isSome then [f.packetOutMsg none a]
      else []) ++ [.add f.xid f.bufferId (f.entry a)]

/-- The end of `install`: nothing is pending, and the flow is active. -/
def installed : FlowImpl τ :=
  { f with packetIn := false, xid := 0, bufferId := none, packetData := none, state := .active,
           inPort := ofppController }

/-- `FlowImpl::install`: the flow and what it sent, or the exception. -/
def install : FlowImpl τ × Except Exc (List (Msg τ)) :=
  if f.state = .evicted ∧ f.packetIn = false then (f, .ok [])
  else if f.state ≠ .active ∧ f.packetIn = false then (f, .ok [])
  else
    let f := if f.state ≠ .egg then { f with expectRemoved := f.expectRemoved + 1 } else f
    match f.messages flood with
    | none => (f, .error .unhandledPacket)
    | some ms => (f.installed, .ok ms)

/-- `FlowImpl::packet_in`. -/
def packet_in (pi : PacketIn τ) : FlowImpl τ :=
  { f with packetIn := true, xid := pi.xid, bufferId := pi.bufferId, inPort := pi.inPort,
           packetData := pi.data }

/-- `FlowImpl::packet_out`, up to `install`. -/
def placed (priority : Nat) (matchSet : FieldSet τ) : FlowImpl τ :=
  { f with priority := priority, matchSet := matchSet }

/-- `FlowImpl::flow_removed`; a delete that was not expected falls through to the eviction. -/
def flow_removed : RemovedReason → FlowImpl τ
  | .delete =>
    if f.expectRemoved = 1 then { f with expectRemoved := f.expectRemoved - 1 }
    else { f with expectRemoved := -1, state := .evicted }
  | .meterDelete => { f with state := .evicted }
  | .idleTimeout => { f with state := .idle }
  | .hardTimeout => { f with state := .expired }
  -- no case of the `switch`, which has no `default`
  | .groupDelete | .other _ => f

end FlowImpl

/-! ## The scope -/

/-- `SwitchScope`, and the flow table of its switch. -/
structure SwitchScope (τ : Type) [OxmType τ] where
  tree : Node τ Nat
  miss : FlowImpl τ
  flows : Nat → Option (FlowImpl τ)
  nextCookie : Nat
  table : List (Entry τ)

namespace SwitchScope

/-- The table-miss rule. -/
def tableMiss : Entry τ := ⟨0, ∅, 0, 0, 0, ⟨∅, {.port ofppController 128}⟩⟩

/-- The scope as constructed, with the table-miss rule installed; `miss` inspects 128 bytes. -/
def init : SwitchScope τ where
  tree := .unexplored
  miss := { cookie := missCookie, decision := { data := .inspect 128 } }
  flows _ := none
  nextCookie := missCookie + 1
  table := [tableMiss]

variable (flood : Output) (policy : Policy τ Decision) (s : SwitchScope τ)

/-- The weak pointers that can be locked. -/
def alive (cookie : Nat) : Bool := (s.flows cookie).isSome

/-- `TraceTree::lookup`. -/
def lookup (q : Packet τ) : Except Exc (Option Nat) := s.tree.lookup s.alive q

/-- The messages are sent to the switch. -/
def send (ms : List (Msg τ)) : SwitchScope τ := { s with table := ms.foldl Msg.exec s.table }

/-- A flow is changed, the barrier flow or one of the map. -/
def setFlow (f : FlowImpl τ) : SwitchScope τ :=
  if f.cookie = missCookie then { s with miss := f }
  else { s with flows := Function.update s.flows f.cookie (some f) }

/-- `install` of a flow of the scope; an exception carries the state it leaves. -/
def installFlow (f : FlowImpl τ) : Except (Exc × SwitchScope τ) (SwitchScope τ) :=
  match f.install flood with
  | (f, .ok ms) => .ok ((s.setFlow f).send ms)
  | (f, .error e) => .error (e, s.setFlow f)

/-- `MapleBackend`: `install` is `FlowImpl::packet_out`, `remove` deletes the Maple rules. -/
def mapleBackend : Backend τ Nat (SwitchScope τ) where
  install priority matchSet cookie s :=
    if cookie = missCookie then s.installFlow flood (s.miss.placed priority matchSet)
    else match s.flows cookie with
      | none => .ok s
      | some f => s.installFlow flood (f.placed priority matchSet)
  remove s := s.send [.delete]

/-- An order in which the case maps are enumerated. -/
structure Enumeration (τ : Type) [OxmType τ] where
  order : Node τ Nat → Node τ Nat
  reorder : ∀ n, Node.Reorder n (order n)

/-- `Runtime::commit`. -/
def commit (enum : Enumeration τ) : Except (Exc × SwitchScope τ) (SwitchScope τ) :=
  (enum.order s.tree).commit (mapleBackend flood) s.alive missCookie s

/-- `SwitchScope::isTableMiss`. -/
def isTableMiss (pi : PacketIn τ) : Bool :=
  pi.reason = .noMatch ∨ pi.reason = .action ∧ pi.cookie = missCookie

/-- The flow of a packet-in: the one found for it, unless it is expired, or a new one. -/
def flowFor (pi : PacketIn τ) : Except Exc (FlowImpl τ × SwitchScope τ) := do
  let found ← s.lookup pi.pkt
  match found.bind s.flows with
  | some f => if f.state ≠ .expired then return (f, s)
  | none => pure ()
  let f : FlowImpl τ := { cookie := s.nextCookie }
  return (f, { s.setFlow f with nextCookie := s.nextCookie + 1 })

/-- How the processing of a packet-in ends before `runtime.commit()`, or that it comes to it. -/
inductive Stage (τ : Type) [OxmType τ]
  | returned (s : SwitchScope τ)
  | thrown (e : Exc) (s : SwitchScope τ)
  | committing (s : SwitchScope τ)

/-- The result of an `install` that is not part of a commit. -/
def Stage.ofInstall : Except (Exc × SwitchScope τ) (SwitchScope τ) → Stage τ
  | .ok s => .returned s
  | .error (e, s) => .thrown e s

/-- `processPacketIn` on a flow that is to be decided: the policy runs on the traced packet. -/
def decideFlow (pi : PacketIn τ) (f : FlowImpl τ) : Stage τ :=
  let r := augment Decision.disposable policy pi.pkt f.cookie s.tree
  let f := { f with decision := r.2.decision.getD f.decision }
  let s := { s.setFlow f with tree := r.1 }
  match r.2.thrown with
  | some e => .thrown e s
  | none =>
    let f := { f with mods := r.2.mods }
    if f.disposable then
      match s.installFlow flood (f.placed 1 r.2.mods) with
      | .ok s => .returned { s with flows := Function.update s.flows f.cookie none }
      | .error (e, s) => .thrown e s
    else .committing (s.setFlow f)

/-- `SwitchScope::processPacketIn`, up to `runtime.commit()`. -/
def processUntilCommit (pi : PacketIn τ) : Stage τ :=
  match s.flowFor pi with
  | .error e => .thrown e s
  | .ok (f, s) =>
    let f := f.packet_in pi
    let s := s.setFlow f
    match f.state with
    | .egg | .idle => s.decideFlow flood policy pi f
    | .evicted => .ofInstall (s.installFlow flood f)
    | .expired => .returned s
    | .active =>
      if isTableMiss pi then .ofInstall (s.installFlow flood f)
      else match policy.eval ⟨pi.pkt, ∅⟩ with
        | (.ok d, _) => .returned (s.setFlow { f with decision := d })
        | (.error e, _) => .thrown e s

/-- `SwitchScope::processPacketIn`. -/
def processPacketIn (pi : PacketIn τ) (enum : Enumeration τ) : SwitchScope τ :=
  match s.processUntilCommit flood policy pi with
  | .returned s => s
  | .thrown _ s => s
  | .committing s =>
    match s.commit flood enum with
    | .ok s => s
    | .error (_, s) => s

/-- `SwitchScope::processFlowRemoved`. -/
def processFlowRemoved (cookie : Nat) (reason : RemovedReason) : SwitchScope τ :=
  match s.flows cookie with
  | none => s
  | some f =>
    let f := f.flow_removed reason
    if f.state = .expired then { s with flows := Function.update s.flows cookie none }
    else s.setFlow f

/-- A message from the switch. -/
inductive Event (τ : Type) [OxmType τ]
  | packetIn (pi : PacketIn τ) (enum : Enumeration τ)
  | flowRemoved (cookie : Nat) (reason : RemovedReason)

/-- `message_callback` for these messages. -/
def step (s : SwitchScope τ) : Event τ → SwitchScope τ
  | .packetIn pi enum => s.processPacketIn flood policy pi enum
  | .flowRemoved cookie reason => s.processFlowRemoved cookie reason

/-- The scope after a sequence of messages. -/
def run (events : List (Event τ)) : SwitchScope τ := events.foldl (step flood policy) init

end SwitchScope

end Controller
