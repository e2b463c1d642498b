import Runos.Oxm.Field

/-!
# The trace tree

`maple/TraceTree.cc`. A load node holds its case map as the list of keys, in the order the map is
enumerated, and the subtree of each key; `Node.Reorder` relates the trees that differ in these
orders only. A tracer's path is modelled by the node at its end: each call yields the child the
path goes on to and how the parent holds it (`Cursor`), so that the rest of the run works on the
child and its result is put back. The compiler (`compile`) runs over any backend and stops at the
first exception of `Backend::install`, with what the backend did so far.
-/

namespace Maple

open Oxm OxmType

/-- The exceptions that leave a packet handler, the tracer or the installation of a flow. -/
inductive Exc
  | outOfRange
  | inconsistentTrace
  | unhandledPacket
  | handler (code : Nat)
  deriving DecidableEq, Repr

/-- `TraceTree::node`; `F` stands for the (weak) flow pointers. -/
inductive Node (τ : Type) [OxmType τ] (F : Type)
  | unexplored
  | flow (f : F)
  | test (t : τ) (need : Field t) (positive negative : Node τ F)
  | load (t : τ) (mask : Mask t) (keys : List (Bits t)) (cases : Bits t → Node τ F)

variable {τ : Type} [OxmType τ] [DecidableEq τ] {F β : Type}

/-! ## Tracing -/

/-- The end of the tracer's path: the node there, and the parent around it. -/
structure Cursor (τ : Type) [OxmType τ] (F : Type) where
  child : Node τ F
  plug : Node τ F → Node τ F

/-- The path is not extended. -/
def Cursor.stay (n : Node τ F) : Cursor τ F := ⟨n, id⟩

namespace TracerImpl

/-- `TracerImpl::load` at the node `n`. -/
def load {t : τ} (data : Field t) : Node τ F → Except Exc (Cursor τ F)
  | .unexplored => .ok
      { child := .unexplored
        plug := fun n => .load t data.mask [data.value]
          (Function.update (fun _ => .unexplored) data.value n) }
  | .load t' mask keys cases =>
    if h : t = t' then
      let data' : Field t' := h ▸ data
      let key := data'.value
      if mask = data'.mask then .ok
        { child := if key ∈ keys then cases key else .unexplored
          plug := fun n => .load t' mask (if key ∈ keys then keys else key :: keys)
            (Function.update cases key n) }
      else .error .inconsistentTrace
    else .error .inconsistentTrace
  | _ => .error .inconsistentTrace

/-- `TracerImpl::test` at the node `n`. -/
def test {t : τ} (pred : Field t) (ret : Bool) : Node τ F → Except Exc (Cursor τ F)
  | .unexplored => .ok
      { child := .unexplored
        plug := fun n => if ret then .test t pred n .unexplored else .test t pred .unexplored n }
  | .test t' need positive negative =>
    if (⟨t', need⟩ : Σ t : τ, Field t) = ⟨t, pred⟩ then
      .ok (if ret then ⟨positive, fun n => .test t' need n negative⟩
        else ⟨negative, fun n => .test t' need positive n⟩)
    else .error .inconsistentTrace
  | _ => .error .inconsistentTrace

/-- `TracerImpl::finish` at the node `n`. -/
def finish (flow : F) : Node τ F → Except Exc (Node τ F)
  | .unexplored => .ok (.flow flow)
  | .flow _ => .ok (.flow flow)
  | _ => .error .inconsistentTrace

end TracerImpl

/-! ## Lookup -/

/-- `TraceTree::lookup`; `alive` says which weak pointers can still be locked. -/
def Node.lookup (alive : F → Bool) (q : Packet τ) : Node τ F → Except Exc (Option F)
  | .unexplored => .ok none
  | .flow f => .ok (if alive f then some f else none)
  | .test _ need positive negative =>
    match q.test need with
    | none => .error .outOfRange
    | some true => positive.lookup alive q
    | some false => negative.lookup alive q
  | .load _ mask keys cases =>
    match q.load mask with
    | none => .error .outOfRange
    | some f => if f.value ∈ keys then (cases f.value).lookup alive q else .ok none

/-- The packet carries every field that the tree mentions. -/
def Node.Carried (q : Packet τ) : Node τ F → Prop
  | .unexplored => True
  | .flow _ => True
  | .test t _ positive negative => (q t).isSome ∧ positive.Carried q ∧ negative.Carried q
  | .load t _ keys cases => (q t).isSome ∧ ∀ key ∈ keys, (cases key).Carried q

/-- Two trees that differ in the enumeration order of their case maps. -/
inductive Node.Reorder : Node τ F → Node τ F → Prop
  | unexplored : Reorder .unexplored .unexplored
  | flow (f : F) : Reorder (.flow f) (.flow f)
  | test (t : τ) (need : Field t) {p p' n n' : Node τ F} :
      Reorder p p' → Reorder n n' → Reorder (.test t need p n) (.test t need p' n')
  | load (t : τ) (mask : Mask t) {keys keys' : List (Bits t)} {cases cases' : Bits t → Node τ F} :
      keys.Perm keys' → (∀ key, Reorder (cases key) (cases' key)) →
      Reorder (.load t mask keys cases) (.load t mask keys' cases')

/-! ## Compilation -/

/-- `Backend`, over a state `β`; an exception keeps what was done before it. -/
structure Backend (τ : Type) [OxmType τ] (F β : Type) where
  install : Nat → FieldSet τ → F → β → Except (Exc × β) β
  remove : β → β

/-- `TraceTree::Impl::Compiler`: its match set, its `uint16_t` priority, and the backend. -/
structure Compiler (τ : Type) [OxmType τ] (β : Type) where
  backend : β
  matchSet : FieldSet τ
  priority : Nat

variable (B : Backend τ F β) (alive : F → Bool) (barrier : F)

/-- `backend.install(priority++, match, flow)`. -/
def Compiler.install (c : Compiler τ β) (flow : F) : Except (Exc × β) (Compiler τ β) := do
  let backend ← B.install c.priority c.matchSet flow c.backend
  return { c with backend := backend, priority := (c.priority + 1) % 2 ^ 16 }

/-- The visitor of `TraceTree::Impl::Compiler`. -/
def Node.compile : Node τ F → Compiler τ β → Except (Exc × β) (Compiler τ β)
  | .unexplored, c => return c
  | .flow f, c => if alive f then c.install B f else return c
  | .test _ need positive negative, c => do
    let c ← negative.compile c
    let c := { c with matchSet := c.matchSet.modify need }
    let c ← c.install B barrier
    let c ← positive.compile c
    return { c with matchSet := c.matchSet.erase need.mask }
  | .load _ mask keys cases, c =>
    keys.foldlM (fun c key => do
      let c := { c with matchSet := c.matchSet.modify (Field.make key mask) }
      let c ← (cases key).compile c
      return { c with matchSet := c.matchSet.erase mask }) c

/-- `TraceTree::commit`. -/
def Node.commit (tree : Node τ F) (b : β) : Except (Exc × β) β := do
  let c ← tree.compile B alive barrier ⟨B.remove b, ∅, 1⟩
  return c.backend

/-- A call of `Backend::install`. -/
structure Rule (τ : Type) [OxmType τ] (F : Type) where
  priority : Nat
  matchSet : FieldSet τ
  flow : F

/-- The backend that records the calls of `install`. -/
def recorder : Backend τ F (List (Rule τ F)) where
  install priority matchSet flow rules := .ok (rules ++ [⟨priority, matchSet, flow⟩])
  remove := id

end Maple
