import Runos.Lib.Fallible
import Runos.Maple.TraceTree

/-!
# Policies, traced packets and the runtime

`maple/TraceablePacketImpl.cc`, `maple/Runtime.hh` and `ModTrackingPacket` of `Controller.cc`. A
`Policy` is a deterministic program over `Packet::load`, `test` and `modify`: it goes on with the
result of each call, where a thrown exception is a result too (a policy that does not catch it is
`Policy.Propagates`). `Policy.eval` runs it on a packet; `augmentFrom` runs it on the traced packet
of `Runtime::augment`, extending the trace tree on the way. `Memo` is the runtime with the flows
its callers pass to it: `SwitchScope::processPacketIn` takes the flow that `lookup` returned or
makes a new one.
-/

namespace Maple

open Oxm OxmType

/-- A packet handler that decides `D` (module doc). -/
inductive Policy (τ : Type) [OxmType τ] (D : Type)
  | done (d : D)
  | raise (e : Exc)
  | load (t : τ) (mask : Mask t) (k : Except Exc (Field t) → Policy τ D)
  | test (t : τ) (need : Field t) (k : Except Exc Bool → Policy τ D)
  | modify (t : τ) (patch : Field t) (k : Except Exc Unit → Policy τ D)

variable {τ : Type} [OxmType τ] [DecidableEq τ] {D F γ : Type} {t : τ}

/-- The policy catches nothing: it branches on the results of its calls only (and it does not throw
the tracer's own exception itself). -/
def Policy.Propagates : Policy τ D → Prop
  | .done _ => True
  | .raise e => e ≠ .inconsistentTrace
  | .load _ _ k => (∀ e, k (.error e) = .raise e) ∧ ∀ f, (k (.ok f)).Propagates
  | .test _ _ k => (∀ e, k (.error e) = .raise e) ∧ ∀ b, (k (.ok b)).Propagates
  | .modify _ _ k => (∀ e, k (.error e) = .raise e) ∧ (k (.ok ())).Propagates

/-- The policy, going on with its decision to what does not touch the packet any more. -/
def Policy.andThen {E : Type} (k : D → Except Exc E) : Policy τ D → Policy τ E
  | .done d =>
    match k d with
    | .ok e => .done e
    | .error e => .raise e
  | .raise e => .raise e
  | .load t mask k' => .load t mask fun r => (k' r).andThen k
  | .test t need k' => .test t need fun r => (k' r).andThen k
  | .modify t patch k' => .modify t patch fun r => (k' r).andThen k

/-- `pkt.load(type)`: the whole field. -/
def Policy.loadExact (t : τ) (k : Bits t → Policy τ D) : Policy τ D :=
  .load t (.exact t) fun
    | .ok read => k read.value
    | .error e => .raise e

/-! ## Packets -/

/-- The exception of a packet that does not carry a field. -/
def orOutOfRange {α : Type} : Option α → Except Exc α := Fallible.orThrow .outOfRange

/-- `ModTrackingPacket`. -/
structure ModTrackingPacket (τ : Type) [OxmType τ] where
  pkt : Packet τ
  mods : FieldSet τ

/-- `ModTrackingPacket::modify`. -/
def ModTrackingPacket.modify (p : ModTrackingPacket τ) (patch : Field t) :
    Except Exc (ModTrackingPacket τ) := do
  let pkt ← orOutOfRange (p.pkt.modify patch)
  return { pkt := pkt, mods := p.mods.modify patch }

/-- Running the policy on a packet: its decision, and the packet it leaves. -/
def Policy.eval : Policy τ D → ModTrackingPacket τ → Except Exc D × ModTrackingPacket τ
  | .done d, p => (.ok d, p)
  | .raise e, p => (.error e, p)
  | .load _ mask k, p => (k (orOutOfRange (p.pkt.load mask))).eval p
  | .test _ need k, p => (k (orOutOfRange (p.pkt.test need))).eval p
  | .modify _ patch k, p =>
    match p.modify patch with
    | .error e => (k (.error e)).eval p
    | .ok p' => (k (.ok ())).eval p'

/-- `TraceablePacketImpl`; the cache holds traces and modifications. -/
structure TraceablePacketImpl (τ : Type) [OxmType τ] where
  pkt : ModTrackingPacket τ
  cache : FieldSet τ

namespace TraceablePacketImpl

/-- `TraceablePacketImpl::load`; `stay` is what the tracer is left with when it is not called. -/
def loadVia (p : TraceablePacketImpl τ) (mask : Mask t) (stay : γ)
    (tracer : Field t → Except Exc γ) : Except Exc (Field t × TraceablePacketImpl τ × γ) := do
  let read ← orOutOfRange (p.pkt.pkt.load mask)
  let explored := p.cache.load mask
  let unexplored := read.widen explored.mask.compl
  if unexplored.wildcard then return (read, p, stay)
  let c ← tracer unexplored
  return (read, { p with cache := p.cache.modify unexplored }, c)

/-- `TraceablePacketImpl::test` -/
def testVia (p : TraceablePacketImpl τ) (need : Field t) (stay : γ)
    (tracer : Field t → Bool → Except Exc γ) :
    Except Exc (Bool × TraceablePacketImpl τ × γ) := do
  let read ← orOutOfRange (p.pkt.pkt.load need.mask)
  let explored := p.cache.load need.mask
  let unexplored := read.widen explored.mask.compl
  -- the result is determined by the previous calls
  if !explored.agrees need then return (false, p, stay)
  if unexplored.wildcard then return (true, p, stay)
  let ret := unexplored.agrees need
  let c ← tracer (need.widen unexplored.mask) ret
  return (ret, if ret then { p with cache := p.cache.modify unexplored } else p, c)

/-- `load` with the tracer at the node `n`. -/
def load (p : TraceablePacketImpl τ) (mask : Mask t) (n : Node τ F) :
    Except Exc (Field t × TraceablePacketImpl τ × Cursor τ F) :=
  p.loadVia mask (.stay n) (TracerImpl.load · n)

/-- `test` with the tracer at the node `n`. -/
def test (p : TraceablePacketImpl τ) (need : Field t) (n : Node τ F) :
    Except Exc (Bool × TraceablePacketImpl τ × Cursor τ F) :=
  p.testVia need (.stay n) (TracerImpl.test · · n)

/-- `TraceablePacketImpl::modify`. -/
def modify (p : TraceablePacketImpl τ) (patch : Field t) :
    Except Exc (TraceablePacketImpl τ) := do
  let pkt ← p.pkt.modify patch
  return { pkt := pkt, cache := p.cache.modify patch }

end TraceablePacketImpl

/-! ## Runtime -/

/-- What `Runtime::augment` leaves behind besides the tree: the decision it stored in the flow, the
modifications of the packet, and the exception it threw. -/
structure Outcome (τ : Type) [OxmType τ] (D : Type) where
  decision : Option D
  mods : FieldSet τ
  thrown : Option Exc

/-- `Runtime::augment` with the tracer at a node: runs the policy, stores its decision in the flow
and finishes the trace, unless the decision is disposable. -/
def augmentFrom (disposable : D → Bool) (flow : F) :
    Policy τ D → TraceablePacketImpl τ → Node τ F → Node τ F × Outcome τ D
  | .done d, p, n =>
    if disposable d then (n, ⟨some d, p.pkt.mods, none⟩)
    else match TracerImpl.finish flow n with
      | .error e => (n, ⟨some d, p.pkt.mods, some e⟩)
      | .ok n' => (n', ⟨some d, p.pkt.mods, none⟩)
  | .raise e, p, n => (n, ⟨none, p.pkt.mods, some e⟩)
  | .load _ mask k, p, n =>
    match p.load mask n with
    | .error e => augmentFrom disposable flow (k (.error e)) p n
    | .ok (read, p', c) =>
      (augmentFrom disposable flow (k (.ok read)) p' c.child).map c.plug id
  | .test _ need k, p, n =>
    match p.test need n with
    | .error e => augmentFrom disposable flow (k (.error e)) p n
    | .ok (ret, p', c) =>
      (augmentFrom disposable flow (k (.ok ret)) p' c.child).map c.plug id
  | .modify _ patch k, p, n =>
    match p.modify patch with
    | .error e => augmentFrom disposable flow (k (.error e)) p n
    | .ok p' => augmentFrom disposable flow (k (.ok ())) p' n

/-- `Runtime::augment` of a packet, from the root of the tree. -/
def augment (disposable : D → Bool) (policy : Policy τ D) (pkt : Packet τ) (flow : F)
    (tree : Node τ F) : Node τ F × Outcome τ D :=
  augmentFrom disposable flow policy ⟨⟨pkt, ∅⟩, ∅⟩ tree

/-- One call of `Runtime::augment` in the history of a trace tree. -/
structure Augment (τ : Type) [OxmType τ] (D F : Type) where
  disposable : D → Bool
  policy : Policy τ D
  pkt : Packet τ
  flow : F

/-- The tree after a call. -/
def Augment.apply (tree : Node τ F) (a : Augment τ D F) : Node τ F :=
  (augment a.disposable a.policy a.pkt a.flow tree).1

/-- The tree that a sequence of calls builds from the empty one. -/
def buildTree (calls : List (Augment τ D F)) : Node τ F :=
  calls.foldl Augment.apply .unexplored

/-! ## The runtime and its flows -/

/-- What a flow keeps of a run: `m_decision` and `m_mods`. -/
structure FlowRecord (τ : Type) [OxmType τ] (D : Type) where
  decision : Option D
  mods : FieldSet τ

/-- A trace tree and its flows, all kept alive; flows are numbered as they are made. -/
structure Memo (τ : Type) [OxmType τ] (D : Type) where
  tree : Node τ Nat
  flows : Nat → FlowRecord τ D
  next : Nat

/-- The empty tree; a flow that is not made yet has no decision. -/
def Memo.empty : Memo τ D := ⟨.unexplored, fun _ => ⟨none, ∅⟩, 0⟩

/-- A call of `Runtime::augment`: with the flow found for the packet, or with a new one. -/
structure Call (τ : Type) [OxmType τ] where
  pkt : Packet τ
  reuse : Bool

/-- `TraceTree::lookup` when every flow is alive. -/
def Memo.lookup (s : Memo τ D) (q : Packet τ) : Except Exc (Option Nat) :=
  s.tree.lookup (fun _ => true) q

/-- The flow that the caller passes. -/
def Memo.flowFor (s : Memo τ D) (c : Call τ) : Nat :=
  match s.lookup c.pkt with
  | .ok (some f) => if c.reuse then f else s.next
  | _ => s.next

/-- The flow's record after a call: `decision` is stored when the policy returns, the modifications
when `augment` does. -/
def FlowRecord.update (r : FlowRecord τ D) (o : Outcome τ D) : FlowRecord τ D where
  decision := o.decision.or r.decision
  mods := if o.thrown = none then o.mods else r.mods

/-- A call of `Runtime::augment` on a `ModTrackingPacket`, then `FlowImpl::mods`. -/
def Memo.augment (disposable : D → Bool) (policy : Policy τ D) (s : Memo τ D) (c : Call τ) :
    Memo τ D × Outcome τ D :=
  let flow := s.flowFor c
  let r := Maple.augment disposable policy c.pkt flow s.tree
  ({ tree := r.1
     flows := Function.update s.flows flow ((s.flows flow).update r.2)
     next := s.next + 1 }, r.2)

/-- A sequence of calls, with what each of them left behind. -/
def Memo.run (disposable : D → Bool) (policy : Policy τ D) :
    List (Call τ) → Memo τ D → Memo τ D × List (Outcome τ D)
  | [], s => (s, [])
  | c :: cs, s =>
    let r := s.augment disposable policy c
    let r' := Memo.run disposable policy cs r.1
    (r'.1, r.2 :: r'.2)

end Maple
