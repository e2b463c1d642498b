import Runos.Maple.Tracer
import Runos.Maple.Proof.Compile

/-!
# Augmentation is local

What one call of a tracer does to `lookup`: a packet that answers the event is led to the node the
path goes on to, every other packet is led as before (`lookup_event`). Over the calls of a tracer,
`TracerState.Local` says the same of the whole path: the packets that answer every recorded event
are led to its end, the others as in the tree the tracer was made for. `finish` puts its flow there.
-/

namespace Maple

open Oxm OxmType

variable {τ : Type} [OxmType τ] {F : Type} {t : τ}
  {alive : F → Bool} {q : Packet τ} {n tree : Node τ F}

/-! ## One event -/

/-- A packet that carries the field is led by a load as the event says. -/
theorem lookup_loadCursor {data : Field t} {keys : List (Bits t)} {cases : Bits t → Node τ F}
    {read : Field t} (hr : q.load data.mask = some read) (n' : Node τ F) :
    ((loadCursor data keys cases).plug n').lookup alive q =
      if read = data then n'.lookup alive q
      else if read.value ∈ keys then (cases read.value).lookup alive q else .ok none := by
  have hvalue : read.value = data.value ↔ read = data :=
    ⟨fun h => Field.ext h (load_mask hr), fun h => by rw [h]⟩
  simp only [loadCursor, Node.lookup, hr]
  by_cases hd : read = data
  · subst hd
    rw [if_pos rfl, if_pos (by split <;> simp_all), Function.update_self]
  · have hne : read.value ≠ data.value := fun h => hd (hvalue.1 h)
    have hmem : (read.value ∈ if data.value ∈ keys then keys else data.value :: keys) ↔
        read.value ∈ keys := by
      split
      · rfl
      · simp [hne]
    rw [if_neg hd, Function.update_of_ne hne]
    simp only [hmem]

section
variable [DecidableEq τ]

theorem lookup_load {data : Field t} {c : Cursor τ F} (ht : (q t).isSome)
    (h : TracerImpl.load data n = .ok c) :
    (∀ n', (c.plug n').lookup alive q =
        if q.load data.mask = some data then n'.lookup alive q else n.lookup alive q) ∧
      (q.load data.mask = some data → c.child.lookup alive q = n.lookup alive q) := by
  obtain ⟨v, hv⟩ := Option.isSome_iff_exists.1 ht
  have hr : q.load data.mask = some (Field.make v data.mask) := by rw [Packet.load, hv]; rfl
  obtain ⟨keys, cases, hn, rfl⟩ := TracerImpl.load_ok h
  have hold : n.lookup alive q =
      if (Field.make v data.mask).value ∈ keys
      then (cases (Field.make v data.mask).value).lookup alive q else .ok none := by
    rcases hn with ⟨rfl, rfl⟩ | rfl
    · simp [Node.lookup]
    · simp only [Node.lookup, hr]
  refine ⟨fun n' => ?_, fun ha => ?_⟩
  · rw [lookup_loadCursor hr, hr, hold]
    simp only [Option.some.injEq]
  · rw [hr, Option.some.injEq] at ha
    rw [hold, ha]
    dsimp only [loadCursor]
    split <;> rfl

theorem lookup_test {pred : Field t} {ret : Bool} {c : Cursor τ F} (ht : (q t).isSome)
    (h : TracerImpl.test pred ret n = .ok c) :
    (∀ n', (c.plug n').lookup alive q =
        if q.test pred = some ret then n'.lookup alive q else n.lookup alive q) ∧
      (q.test pred = some ret → c.child.lookup alive q = n.lookup alive q) := by
  obtain ⟨v, hv⟩ := Option.isSome_iff_exists.1 ht
  obtain ⟨b, hb⟩ : ∃ b, q.test pred = some b := by
    simp only [Packet.test, Packet.load, hv, Option.map_some, Option.some.injEq, exists_eq']
  obtain ⟨pos, neg, hn, rfl⟩ := TracerImpl.test_ok h
  have hold : n.lookup alive q = if b then pos.lookup alive q else neg.lookup alive q := by
    rcases hn with ⟨rfl, rfl, rfl⟩ | rfl
    · simp [Node.lookup]
    · simp only [Node.lookup, hb]
      cases b <;> rfl
  rw [hb, hold]
  cases ret <;> cases b <;> simp [Node.lookup, hb]

/-- **One call**: the packets that answer the event are led to the child, the others as before. -/
theorem lookup_event (alive : F → Bool) {e : TraceEvent τ} {c : Cursor τ F} (ht : (q e.type).isSome)
    (h : TracerState.eventAt n e = .ok c) :
    (∀ n', (c.plug n').lookup alive q =
        if e.Answered q then n'.lookup alive q else n.lookup alive q) ∧
      (e.Answered q → c.child.lookup alive q = n.lookup alive q) := by
  cases e with
  | load t data => exact lookup_load ht h
  | test t pred ret => exact lookup_test ht h

end

/-! ## Every sequence of calls -/

/-- The relation of the module doc, after the events `es` were recorded. -/
def TracerState.Local (tree : Node τ F) (q : Packet τ) (es : List (TraceEvent τ)) :
    TracerState τ F → Prop
  | .tracing node plug =>
    (∀ n', (plug n').lookup (fun _ => true) q =
      if ∀ e ∈ es, e.Answered q then n'.lookup (fun _ => true) q
      else tree.lookup (fun _ => true) q) ∧
    ((∀ e ∈ es, e.Answered q) →
      node.lookup (fun _ => true) q = tree.lookup (fun _ => true) q)
  | .finished tree' flow =>
    tree'.lookup (fun _ => true) q =
      if ∀ e ∈ es, e.Answered q then .ok (some flow) else tree.lookup (fun _ => true) q

namespace TracerState.Local

variable {es : List (TraceEvent τ)} {s s' : TracerState τ F}

theorem start (tree : Node τ F) (q : Packet τ) : (TracerState.start tree).Local tree q [] :=
  ⟨fun n' => by simp, fun _ => rfl⟩

theorem lookup_tree (h : s.Local tree q es) :
    s.tree.lookup (fun _ => true) q =
      match s.flow with
      | none => tree.lookup (fun _ => true) q
      | some flow =>
        if ∀ e ∈ es, e.Answered q then .ok (some flow) else tree.lookup (fun _ => true) q := by
  cases s with
  | finished tree' flow => exact h
  | tracing node plug =>
    simp only [TracerState.tree, TracerState.flow, h.1]
    split
    · rename_i ha; exact h.2 ha
    · rfl

variable [DecidableEq τ]

theorem event (h : s.Local tree q es) {e : TraceEvent τ} (ht : (q e.type).isSome)
    (hs : s.call (.event e) = .ok s') : s'.Local tree q (es ++ [e]) := by
  have hall : (∀ e' ∈ es ++ [e], e'.Answered q) ↔ (∀ e' ∈ es, e'.Answered q) ∧ e.Answered q := by
    rw [List.forall_mem_append, List.forall_mem_singleton]
  cases s with
  | finished tree' flow => cases hs
  | tracing node plug =>
    simp only [TracerState.call] at hs
    cases hc : TracerState.eventAt node e with
    | error x => rw [hc] at hs; cases hs
    | ok c =>
      rw [hc] at hs
      cases hs
      obtain ⟨hplug, hchild⟩ := lookup_event (fun _ => true) ht hc
      refine ⟨fun n' => ?_, fun ha => ?_⟩
      · rw [Function.comp_apply, h.1, hplug]
        by_cases hes : ∀ e' ∈ es, e'.Answered q
        · rw [if_pos hes, h.2 hes]
          exact if_congr ⟨fun he => hall.2 ⟨hes, he⟩, fun ha => (hall.1 ha).2⟩ rfl rfl
        · rw [if_neg hes, if_neg fun ha => hes (hall.1 ha).1]
      · rw [hall] at ha
        rw [hchild ha.2, h.2 ha.1]

theorem finish (h : s.Local tree q es) {flow : F} (hs : s.call (.finish flow) = .ok s') :
    s'.Local tree q es := by
  cases s with
  | finished tree' flow' => cases hs
  | tracing node plug =>
    simp only [TracerState.call] at hs
    cases hf : TracerImpl.finish flow node with
    | error x => rw [hf] at hs; cases hs
    | ok leaf =>
      rw [hf] at hs
      cases hs
      rw [TracerImpl.finish_ok hf]
      exact h.1 _

/-- **Every sequence of calls**, consistent with the tree or not. -/
theorem calls (cs : List (TracerCall τ F)) (h : s.Local tree q es)
    (hq : ∀ e, .event e ∈ cs → (q e.type).isSome) :
    (TracerState.calls cs s).1.Local tree q (es ++ (TracerState.calls cs s).2) := by
  induction cs generalizing s es with
  | nil => simpa [TracerState.calls] using h
  | cons c cs ih =>
    have hq' : ∀ e, .event e ∈ cs → (q e.type).isSome :=
      fun e he => hq e (List.mem_cons_of_mem _ he)
    unfold TracerState.calls
    split
    · exact ih h hq'
    · rename_i s' e hs
      have := ih (h.event (hq e List.mem_cons_self) hs) hq'
      rwa [List.append_assoc] at this
    · rename_i s' flow hs
      exact ih (h.finish hs) hq'

end TracerState.Local

variable [DecidableEq τ]

/-- **Augmentation is local.** Until `finish` has returned, `lookup` is as in the tree the tracer was
made for, whatever was called and thrown; after it, the packets that answer every recorded event are
led to the flow of `finish`, and every other packet as before. -/
theorem augment_local (tree : Node τ F) (cs : List (TracerCall τ F)) (q : Packet τ)
    (hq : ∀ e, .event e ∈ cs → (q e.type).isSome) :
    (TracerState.calls cs (.start tree)).1.tree.lookup (fun _ => true) q =
      match (TracerState.calls cs (.start tree)).1.flow with
      | none => tree.lookup (fun _ => true) q
      | some flow =>
        if ∀ e ∈ (TracerState.calls cs (.start tree)).2, e.Answered q then .ok (some flow)
        else tree.lookup (fun _ => true) q := by
  have h := (TracerState.Local.start tree q).calls cs hq
  rw [List.nil_append] at h
  exact h.lookup_tree

/-- The tree in which IPv4 packets have the flow 7. -/
def ipv4Tree : Node OfbType Nat :=
  .test .eth_type (Field.make 0x0800 (.exact _)) (.flow 7) .unexplored

/-- The calls of a run on another packet, which ends with the same flow. -/
def otherCalls : List (TracerCall OfbType Nat) :=
  [.event (.test .eth_type (Field.make 0x0800 (.exact _)) false), .finish 7]

/-- The run on the other packet gives it the flow, and leaves IPv4 packets with theirs. -/
theorem augment_local_ipv4 :
    (TracerState.calls otherCalls (.start ipv4Tree)).1.tree.lookup (fun _ => true)
        (frame 0x0806 5 1) = .ok (some 7) ∧
      (TracerState.calls otherCalls (.start ipv4Tree)).1.tree.lookup (fun _ => true)
        (frame 0x0800 5 1) = ipv4Tree.lookup (fun _ => true) (frame 0x0800 5 1) := by
  have hq : ∀ e i, .event e ∈ otherCalls → (frame i 5 1 e.type).isSome := by
    intro e i he
    simp only [otherCalls, List.mem_cons, TracerCall.event.injEq, reduceCtorEq, List.not_mem_nil,
      or_false] at he
    rw [he]; rfl
  constructor
  · rw [augment_local ipv4Tree otherCalls _ fun e => hq e _]
    decide
  · rw [augment_local ipv4Tree otherCalls _ fun e => hq e _]
    decide

/-- A packet that does not answer the recorded events may have had the flow of `finish` before. -/
theorem lookup_flow_not_exact :
    ¬ ∀ (tree : Node OfbType Nat) (cs : List (TracerCall OfbType Nat)) (q : Packet OfbType),
      tree.Carried q → (∀ e, .event e ∈ cs → (q e.type).isSome) →
        ∀ flow, (TracerState.calls cs (.start tree)).1.flow = some flow →
          ((TracerState.calls cs (.start tree)).1.tree.lookup (fun _ => true) q =
              .ok (some flow) ↔
            ∀ e ∈ (TracerState.calls cs (.start tree)).2, e.Answered q) := by
  intro h
  have h' := h ipv4Tree otherCalls (frame 0x0800 5 1) ⟨rfl, trivial, trivial⟩ (by
    intro e he
    simp only [otherCalls, List.mem_cons, TracerCall.event.injEq, reduceCtorEq, List.not_mem_nil,
      or_false] at he
    rw [he]; rfl) 7 rfl
  exact absurd (h'.1 (by decide)) (by decide)

end Maple
