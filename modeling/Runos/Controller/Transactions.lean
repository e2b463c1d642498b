import Mathlib.Algebra.Group.Nat.Defs
import Runos.Lib.Trace

/-!
# Transactions (`OFTransaction`, `Controller::registerStaticTransaction`)

An application registers a transaction before the controller starts, and gets an object with an xid
of its own. `static_ofresponse` has the pointers to these objects, for the replies that come with
their xids. The slot connected to `destroyed` is to put a null pointer there. An object is named by
the number of transactions made before it.
-/

namespace Controller

open Runs

/-- `min_xid` -/
def minXid : UInt32 := 0xfff

/-- `OFTransaction` -/
structure Transaction where
  xid : UInt32
  destroyed : Bool
  deriving DecidableEq, Repr

/-- A message that `message_callback` handles in its default case; `error` says that it is an
`OFPT_ERROR`. -/
structure Message where
  xid : UInt32
  error : Bool
  deriving DecidableEq, Repr

/-- The signals of `OFTransaction`. -/
inductive Signal
  | response
  | error
  deriving DecidableEq, Repr

def Message.signal (m : Message) : Signal := if m.error then .error else .response

/-- The members of `ControllerImpl` that are used, and the objects made so far. -/
structure Transactions where
  started : Bool
  staticOfresponse : List (Option Nat)
  minSessionXid : UInt32
  objects : List Transaction
  deriving DecidableEq, Repr

namespace Transactions

def init : Transactions := ⟨false, [], minXid, []⟩

/-- `registerStaticTransaction` with the object it returns; after the start it is the null pointer. -/
def registerStaticTransaction (s : Transactions) : Transactions × Option Nat :=
  if s.started then (s, none)
  else ({ s with
    minSessionXid := s.minSessionXid + 1
    staticOfresponse := s.staticOfresponse ++ [some s.objects.length]
    objects := s.objects ++ [⟨s.minSessionXid, false⟩] }, some s.objects.length)

/-- An object is destroyed, and the slot called; none when it writes outside the vector. -/
def destroy (s : Transactions) (k : Nat) (t : Transaction) : Option Transactions :=
  if t.xid.toNat < s.staticOfresponse.length then
    some { s with
      staticOfresponse := s.staticOfresponse.set t.xid.toNat none
      objects := s.objects.set k { t with destroyed := true } }
  else
    none

/-- The default case of `message_callback`: the object that the message is passed to, if any, and
the signal. The outer none is an access outside the vector. -/
def dispatch (s : Transactions) (m : Message) : Option (Option (Nat × Signal)) :=
  if m.xid < minXid then some none
  else if m.xid < s.minSessionXid then
    match s.staticOfresponse[(m.xid - minXid).toNat]? with
    | none => none
    | some transaction => some (transaction.map fun k => (k, m.signal))
  else
    some none

inductive Event
  | register
  /-- `started = true` -/
  | start
  /-- The object `k` is destroyed. -/
  | destroy (k : Nat)
  | message (m : Message)
  deriving DecidableEq, Repr

/-- An object that is destroyed exists. -/
def Allowed (s : Option Transactions) : Event → Prop
  | .destroy k => ∀ r, s = some r → ∃ t, r.objects[k]? = some t ∧ t.destroyed = false
  | _ => True

/-- One event; none is the undefined state after an access outside the vector. -/
def step (s : Option Transactions) (e : Event) : Option Transactions :=
  s.bind fun s =>
    match e with
    | .register => some s.registerStaticTransaction.1
    | .start => some { s with started := true }
    | .destroy k =>
      match s.objects[k]? with
      | none => some s
      | some t => s.destroy k t
    | .message m => (s.dispatch m).map fun _ => s

abbrev Life (h : List (Option Transactions × Event)) (s : Option Transactions) : Prop :=
  Trace (fun s e => (.ok (step s e) : Except Empty (Option Transactions))) Allowed (some init) h s

end Transactions

end Controller
