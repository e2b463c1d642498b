import Runos.Controller.SwitchScope
import Runos.Lib.Trace

/-!
# The life of a switch scope

What `message_callback`, `connection_callback`, `createSwitchScope` and `invalidateTraceTree` of
`Controller.cc` do to one `SwitchScope`. The handlers of the pipeline have state of their own, so
each packet-in comes with the policy that they make up when it is processed. What is sent to a
switch that is not connected is lost; its table is cleared when it is back, so the table of a
closed connection is left as it was.
-/

namespace Controller

open Oxm Maple Runs

variable {τ : Type} [OxmType τ] [DecidableEq τ]

/-- What happens to a scope. -/
inductive ScopeEvent (τ : Type) [OxmType τ]
  | packetIn (policy : Policy τ Decision) (pi : PacketIn τ) (enum : SwitchScope.Enumeration τ)
  | flowRemoved (cookie : Nat) (reason : RemovedReason)
  | invalidateTraceTree
  /-- `EVENT_CLOSED` or `EVENT_DEAD`. -/
  | closed
  /-- The switch is back: `createSwitchScope` finds its scope. -/
  | reinit

namespace SwitchScope

variable (flood : Output) (s : SwitchScope τ)

/-- `Runtime::invalidate`. -/
def invalidate : SwitchScope τ := { s with tree := .unexplored }

/-- One pass of the loop of `invalidateTraceTree`. -/
def invalidateTraceTree : SwitchScope τ := s.invalidate.send [.delete]

/-- The end of `connection_callback` for a connection that is lost. -/
def closed : SwitchScope τ := { s.invalidate with flows := fun _ => none }

/-- `SwitchScope::reinit`: all tables are cleared, and the table-miss rule installed. -/
def reinit : SwitchScope τ := { s with table := [tableMiss] }

/-- One event. -/
def react (s : SwitchScope τ) : ScopeEvent τ → SwitchScope τ
  | .packetIn policy pi enum => s.processPacketIn flood policy pi enum
  | .flowRemoved cookie reason => s.processFlowRemoved cookie reason
  | .invalidateTraceTree => s.invalidateTraceTree
  | .closed => s.closed
  | .reinit => s.reinit

/-- A run from the construction of the scope; no event stops it. -/
abbrev Life (h : List (SwitchScope τ × ScopeEvent τ)) (s : SwitchScope τ) : Prop :=
  Trace (fun s e => (.ok (s.react flood e) : Except Empty (SwitchScope τ))) (fun _ _ => True)
    init h s

/-- The exception by which `processPacketIn` exits, if any. -/
def raised (policy : Policy τ Decision) (pi : PacketIn τ) (enum : Enumeration τ) : Option Exc :=
  match s.processUntilCommit flood policy pi with
  | .returned _ => none
  | .thrown e _ => some e
  | .committing s =>
    match s.commit flood enum with
    | .ok _ => none
    | .error (e, _) => some e

end SwitchScope

end Controller
