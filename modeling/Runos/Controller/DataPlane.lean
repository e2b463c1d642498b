import Runos.Controller.Lifetime
import Runos.Lib.Priority

/-!
# The data plane of a switch

A packet is forwarded by the rules in the table of the switch; the controller only fills the table.
`DataPlane` is a switch scope with its switch, the state of their connection, and the policy that
the handlers of the pipeline make up. What the handlers decide may change where the trace tree is
emptied (`Controller::invalidateTraceTree` is called for that), and not in between. Rules with a
timeout leave the table on their own.
-/

namespace Controller

open Oxm Maple Runs

variable {τ : Type} [OxmType τ] [DecidableEq τ]

structure DataPlane (τ : Type) [OxmType τ] where
  scope : SwitchScope τ
  policy : Policy τ Decision
  connected : Bool

/-- What happens to a switch and its scope. -/
inductive PlaneEvent (τ : Type) [OxmType τ]
  | packetIn (pi : PacketIn τ) (enum : SwitchScope.Enumeration τ)
  | flowRemoved (cookie : Nat) (reason : RemovedReason)
  /-- rules time out -/
  | timeout (gone : Entry τ → Bool)
  | invalidateTraceTree (policy : Policy τ Decision)
  /-- `EVENT_CLOSED` or `EVENT_DEAD` -/
  | closed (policy : Policy τ Decision)
  | featuresReply

/-- The rule leaves the table when it has been idle, or there, for long enough. -/
def Entry.expires (e : Entry τ) : Bool := e.idleTimeout != 0 || e.hardTimeout != 0

/-- The actions of a flow that decided `d` with the modifications `mods`. -/
def actionsOf (flood : Output) (d : Decision) (mods : FieldSet τ) : Option (ActionList τ) :=
  ({ cookie := missCookie, decision := d, mods := mods } : FlowImpl τ).actions flood

namespace DataPlane

variable (flood : Output)

/-- The scope as constructed, on a new connection. -/
def init (policy : Policy τ Decision) : DataPlane τ := ⟨.init, policy, true⟩

/-- One event; a switch that is not connected sends nothing, and what is sent to it is lost. -/
def step (s : DataPlane τ) : PlaneEvent τ → DataPlane τ
  | .packetIn pi enum =>
    if s.connected then { s with scope := s.scope.processPacketIn flood s.policy pi enum } else s
  | .flowRemoved cookie reason =>
    if s.connected then { s with scope := s.scope.processFlowRemoved cookie reason } else s
  | .timeout gone =>
    { s with scope :=
        { s.scope with table := s.scope.table.filter fun e => !(e.expires && gone e) } }
  | .invalidateTraceTree policy =>
    { s with
      scope := if s.connected then s.scope.invalidateTraceTree else s.scope.invalidate
      policy := policy }
  | .closed policy => ⟨s.scope.closed, policy, false⟩
  | .featuresReply => { s with scope := s.scope.reinit, connected := true }

/-- The policy from an event on. -/
def PlaneEvent.policies : PlaneEvent τ → List (Policy τ Decision)
  | .invalidateTraceTree policy => [policy]
  | .closed policy => [policy]
  | _ => []

/-- A run from the construction of the scope; no event stops it. -/
abbrev Run (policy : Policy τ Decision) (h : List (DataPlane τ × PlaneEvent τ))
    (s : DataPlane τ) : Prop :=
  Trace (fun s e => (.ok (s.step flood e) : Except Empty (DataPlane τ)))
    (fun _ e => ∀ p ∈ PlaneEvent.policies e, p.Propagates) (init policy) h s

/-- The rule that the switch applies to a packet. -/
def Applies (s : DataPlane τ) (q : Packet τ) (e : Entry τ) : Prop :=
  Priority.IsTop Entry.priority (·.matchSet.admits q) s.scope.table e

end DataPlane

end Controller
