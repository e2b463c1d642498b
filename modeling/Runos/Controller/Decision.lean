import Mathlib.Algebra.Group.Nat.Defs
import Mathlib.Data.Finset.Basic

/-!
# Decisions

`Decision.hh` and `Decision.cc`: what a packet handler decides, with the timeouts of the rule that
is made of it. A builder call that contradicts the decision made so far throws
`decision_conflict` (none).
-/

namespace Controller

/-- `Decision::DecisionData`. -/
inductive DecisionData
  | undefined
  | drop
  | unicast (port : Nat)
  | multicast (ports : Finset Nat)
  | broadcast
  | inspect (sendBytesLen : Nat)
  deriving DecidableEq

/-- `Decision::duration::max()`, in seconds. -/
def durationMax : Nat := 2 ^ 32 - 1

/-- `Decision`: its kind and the fields of `Decision::Base`. -/
structure Decision where
  data : DecisionData := .undefined
  return_ : Bool := false
  idleTimeout : Nat := durationMax
  hardTimeout : Nat := durationMax
  deriving DecidableEq

namespace Decision

/-- `Decision::return_`. -/
def withReturn (d : Decision) : Decision := { d with return_ := true }

/-- `Decision::idle_timeout(seconds)`. -/
def withIdleTimeout (d : Decision) (seconds : Nat) : Decision :=
  { d with idleTimeout := min seconds d.idleTimeout }

/-- `Decision::hard_timeout(seconds)`. -/
def withHardTimeout (d : Decision) (seconds : Nat) : Decision :=
  { d with hardTimeout := min seconds d.hardTimeout, idleTimeout := min seconds d.idleTimeout }

/-- `Decision::unicast`. -/
def unicast (d : Decision) (port : Nat) : Option Decision :=
  match d.data with
  | .undefined => some { d with data := .unicast port }
  | .unicast port' => if port' = port then some { d with data := .unicast port } else none
  | _ => none

/-- `Decision::multicast`. -/
def multicast (d : Decision) (ports : Finset Nat) : Option Decision :=
  match d.data with
  | .undefined => some { d with data := .multicast ports }
  | .multicast ports' => if ports' = ports then some { d with data := .multicast ports } else none
  | _ => none

/-- `Decision::broadcast`. -/
def broadcast (d : Decision) : Option Decision :=
  match d.data with
  | .undefined | .broadcast => some { d with data := .broadcast }
  | _ => none

/-- `Decision::inspect`: the longer of two requests is kept. -/
def inspect (d : Decision) (bytes : Nat) : Option Decision :=
  match d.data with
  | .undefined => some { d with data := .inspect bytes }
  | .inspect bytes' => some { d with data := .inspect (max bytes bytes') }
  | _ => none

/-- `Decision::drop`. -/
def drop (d : Decision) : Decision := { d with data := .drop }

/-- `Decision::clear`: the timeouts are reset as well. -/
def clear (_ : Decision) : Decision := {}

/-- `FlowImpl::disposable`: the flow needs no rule on the switch. -/
def disposable (d : Decision) : Bool := d.idleTimeout ≤ 0

/-! ## Chains of calls -/

/-- A call of the builder; a timeout is a `Decision::duration`. -/
inductive Call
  | return_
  | idleTimeout (seconds : UInt32)
  | hardTimeout (seconds : UInt32)
  | unicast (port : Nat)
  | multicast (ports : Finset Nat)
  | broadcast
  | inspect (bytes : Nat)
  | drop
  | clear
  deriving DecidableEq

def call (d : Decision) : Call → Option Decision
  | .return_ => some d.withReturn
  | .idleTimeout seconds => some (d.withIdleTimeout seconds.toNat)
  | .hardTimeout seconds => some (d.withHardTimeout seconds.toNat)
  | .unicast port => d.unicast port
  | .multicast ports => d.multicast ports
  | .broadcast => d.broadcast
  | .inspect bytes => d.inspect bytes
  | .drop => some d.drop
  | .clear => some d.clear

/-- A chain of calls; none when one of them throws `decision_conflict`. -/
def build (d : Decision) (calls : List Call) : Option Decision := calls.foldlM call d

end Decision

end Controller
