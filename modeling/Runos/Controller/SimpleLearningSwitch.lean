import Runos.Controller.LearningSwitch
import Runos.Maple.Runtime

/-!
# The simple learning switch (`SimpleLearningSwitch.cc`)

The handler "forwarding" of one switch, as the only handler of its pipeline. The table that the
handler captures outlives the packet (`mutable`) and is no part of the trace. `State.augment` is
`Runtime::augment` with the handler as the policy. Packets come from `PacketParser`, which always
binds `in_port`.
-/

namespace Controller.SimpleLearningSwitch

open Oxm Maple

/-- `seen_port` -/
abbrev SeenPort := Table EthAddr (Bits OfbType.in_port)

/-- `watch(ofb_in_port)`: the tracer is not called. -/
def watch (pkt : Oxm.Packet OfbType) : Except Exc (Bits OfbType.in_port) :=
  (orOutOfRange (pkt.load (.exact .in_port))).map Field.value

/-- A call of the builder; `decision_conflict` is not thrown over `Decision{}`. -/
def orConflict : Option Decision → Except Exc Decision
  | none => .error (.handler 0)
  | some decision => .ok decision

/-- The two loads that the tracer sees. -/
def addresses : Policy OfbType (EthAddr × EthAddr) :=
  .loadExact .eth_src fun srcMac => .loadExact .eth_dst fun dstMac => .done (srcMac, dstMac)

/-- The handler from then on: the table it leaves and what it returns. -/
def forward (seenPort : SeenPort) (inPort : Except Exc (Bits OfbType.in_port))
    (decision : Decision) (mac : EthAddr × EthAddr) : Except Exc (SeenPort × Decision) := do
  let (srcMac, dstMac) := mac
  if isBroadcast srcMac then
    return (seenPort, decision.drop.withReturn)
  let seenPort := seenPort.insert srcMac (← inPort)
  match seenPort.lookup dstMac with
  | some port =>
    let ret ← orConflict (decision.unicast port.toNat)
    return (seenPort, (ret.withIdleTimeout 60).withHardTimeout 1800)
  | none =>
    let ret ← orConflict decision.broadcast
    -- what `ret.hard_timeout` returns for an unknown address is not used
    return (seenPort, ret)

/-- The handler "forwarding". -/
def forwarding (seenPort : SeenPort) (inPort : Except Exc (Bits OfbType.in_port))
    (decision : Decision) : Policy OfbType (SeenPort × Decision) :=
  addresses.andThen (forward seenPort inPort decision)

/-- What lives as long as the switch: the table of the handler, the trace tree and the flows. -/
structure State where
  seenPort : SeenPort
  memo : Memo OfbType Decision

namespace State

def init : State := ⟨∅, .empty⟩

/-- `Runtime::augment`, with `SwitchScope::process` as the policy. -/
def augment (s : State) (c : Maple.Call OfbType) : State × Outcome OfbType Decision :=
  let flow := s.memo.flowFor c
  let r := Maple.augment (fun ret => ret.2.disposable) (forwarding s.seenPort (watch c.pkt) {})
    c.pkt flow s.memo.tree
  let outcome := { r.2 with decision := r.2.decision.map Prod.snd }
  ({ seenPort := (r.2.decision.map Prod.fst).getD s.seenPort
     memo :=
      { tree := r.1
        flows := Function.update s.memo.flows flow ((s.memo.flows flow).update outcome)
        next := s.memo.next + 1 } }, outcome)

/-- The state after a history of packets. -/
def run (calls : List (Maple.Call OfbType)) : State :=
  calls.foldl (fun s c => (s.augment c).1) init

end State

end Controller.SimpleLearningSwitch
