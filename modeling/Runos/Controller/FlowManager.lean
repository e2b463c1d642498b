import Mathlib.Logic.Function.Basic
import Runos.Lib.Matching

/-!
# The flow manager (`FlowManager.cc`)

`FlowManager` keeps, for every switch, the rules that it believes to be in the switch's flow tables.
It asks for the flow statistics of a switch and corrects its rules when the answer comes: a rule
whose flow is not in the message is dropped with a `Delete` event, a flow of the message that has no
rule gets one with an `Add` event. An answer that is longer than a message comes in parts, each
handled by `onResponse`, which does not look at the flag that announces more.

The match and the instructions of a flow are values of `libfluid`, told apart by `==`. The requests
themselves, the REST handlers and the JSON of a rule are left out.
-/

/-- `of13::FlowStats` -/
structure FlowStats (μ ι : Type) where
  tableId : UInt8
  durationSec : UInt32
  durationNsec : UInt32
  priority : UInt16
  idleTimeout : UInt16
  hardTimeout : UInt16
  flags : UInt16
  cookie : UInt64
  packetCount : UInt64
  byteCount : UInt64
  match_ : μ
  instructions : ι

variable {μ ι : Type} [DecidableEq μ] [DecidableEq ι]

def equalflows (one two : FlowStats μ ι) : Bool :=
  one.cookie == two.cookie &&
  one.hardTimeout == two.hardTimeout &&
  one.idleTimeout == two.idleTimeout &&
  one.priority == two.priority &&
  one.tableId == two.tableId &&
  one.flags == two.flags &&
  one.match_ == two.match_ &&
  one.instructions == two.instructions

namespace FlowManager

structure Rule (μ ι : Type) where
  ruleId : UInt64
  switchId : UInt64
  flow : FlowStats μ ι
  active : Bool

/-- `addEvent` -/
inductive Event (μ ι : Type)
  | add (rule : Rule μ ι)
  | delete (rule : Rule μ ι)

end FlowManager

structure FlowManager (μ ι : Type) where
  /-- `RuleIDs::last_event` -/
  lastEvent : UInt64
  allSwitchesRules : UInt64 → List (FlowManager.Rule μ ι)

namespace FlowManager

/-- New rules for flows, with the next ids. -/
def newRules (dpid : UInt64) : UInt64 → List (FlowStats μ ι) → List (Rule μ ι)
  | _, [] => []
  | last, flow :: flows => ⟨last + 1, dpid, flow, true⟩ :: newRules dpid (last + 1) flows

/-- `updateSwitchRules` with any `equalflows`: what it compares are values of `libfluid`. -/
def updateSwitchRulesBy {μ ι : Type} (equal : FlowStats μ ι → FlowStats μ ι → Bool)
    (s : FlowManager μ ι) (dpid : UInt64) (flows : List (FlowStats μ ι)) :
    FlowManager μ ι × List (Event μ ι) :=
  -- `remove_if` calls its predicate once for every rule, in order
  let m := matching (fun flow rule => equal flow rule.flow) (s.allSwitchesRules dpid) flows
  let added := newRules dpid s.lastEvent m.rest
  ({ lastEvent := s.lastEvent + UInt64.ofNat added.length
     allSwitchesRules := Function.update s.allSwitchesRules dpid (m.kept ++ added) },
    m.dropped.map (fun rule => .delete { rule with active := false }) ++ added.map .add)

def updateSwitchRules (s : FlowManager μ ι) (dpid : UInt64) (flows : List (FlowStats μ ι)) :
    FlowManager μ ι × List (Event μ ι) :=
  s.updateSwitchRulesBy equalflows dpid flows

/-- `getSwitch` gives the null pointer for a switch that the switch manager does not know, and the
null pointer is used. -/
def onResponse (switches : UInt64 → Bool) (s : FlowManager μ ι) (dpid : UInt64)
    (flows : List (FlowStats μ ι)) : Option (FlowManager μ ι × List (Event μ ι)) :=
  if switches dpid then some (s.updateSwitchRules dpid flows) else none

/-- The parts of an answer, one after the other. -/
def onResponses (switches : UInt64 → Bool) (dpid : UInt64) :
    List (List (FlowStats μ ι)) → FlowManager μ ι → Option (FlowManager μ ι × List (Event μ ι))
  | [], s => some (s, [])
  | part :: parts, s => do
    let (s, events) ← s.onResponse switches dpid part
    let (s, events') ← onResponses switches dpid parts s
    return (s, events ++ events')

end FlowManager
