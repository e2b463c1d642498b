import Runos.Maple.Runtime
import Runos.Oxm.Proof.Field

/-!
# What tracing does to the tree

`TraceablePacketImpl.load_ok` and `test_ok` say what a call on the traced packet does: nothing to
the tree when the cache settles it, one step of the tracer on the bits the cache does not know
otherwise. Since those bits are then known, a path never asks twice for a bit: `Node.WF M` says
this of a tree below a path that fixed the bits of `M`, and `wf_buildTree` that every tree built by
`augment` runs has it, whatever the policies do. `augmentFrom_rule` is the induction over a run for
what every call keeps.
-/

namespace Maple

open Oxm OxmType

variable {τ : Type} [OxmType τ] {D F γ : Type} {t : τ}

/-! ## Fields and cases -/

theorem load_mask {p : Packet τ} {m : Mask t} {f : Field t} (h : p.load m = some f) :
    f.mask = m := by
  obtain ⟨v, -, rfl⟩ := Packet.load_eq_some.1 h; rfl

theorem make_value_mask (f : Field t) : Field.make f.value f.mask = f :=
  Field.ext f.covered rfl

/-- What holds of the cases of a load node still holds of them with `n'` at one value. -/
theorem forall_update_cases {data : Field t} {keys : List (Bits t)} {cases : Bits t → Node τ F}
    {n' : Node τ F} {P : Bits t → Node τ F → Prop} (hc : ∀ key ∈ keys, P key (cases key))
    (hn' : P data.value n') :
    ∀ key ∈ if data.value ∈ keys then keys else data.value :: keys,
      P key (Function.update cases data.value n' key) := by
  intro key hk
  by_cases hkey : key = data.value
  · subst hkey
    rw [Function.update_self]
    exact hn'
  · rw [Function.update_of_ne hkey]
    refine hc key ?_
    split at hk
    · exact hk
    · exact (List.mem_cons.1 hk).resolve_left hkey

/-! ## Calls of the tracer -/

/-- The load node for `data`, with `n` at its value. -/
def loadCursor (data : Field t) (keys : List (Bits t)) (cases : Bits t → Node τ F) : Cursor τ F where
  child := if data.value ∈ keys then cases data.value else .unexplored
  plug n := .load t data.mask (if data.value ∈ keys then keys else data.value :: keys)
    (Function.update cases data.value n)

theorem TracerImpl.finish_ok {flow : F} {n n' : Node τ F} (h : TracerImpl.finish flow n = .ok n') :
    n' = .flow flow := by
  cases n <;> cases h <;> rfl

section
variable [DecidableEq τ]

theorem TracerImpl.load_load (data : Field t) (keys : List (Bits t))
    (cases : Bits t → Node τ F) :
    TracerImpl.load data (.load t data.mask keys cases) = .ok (loadCursor data keys cases) := by
  simp [TracerImpl.load, loadCursor]

theorem TracerImpl.test_test (pred : Field t) (ret : Bool) (pos neg : Node τ F) :
    TracerImpl.test pred ret (.test t pred pos neg) =
      .ok (if ret then ⟨pos, fun n => .test t pred n neg⟩
        else ⟨neg, fun n => .test t pred pos n⟩) := by
  simp [TracerImpl.test]

theorem TracerImpl.load_ok {data : Field t} {n : Node τ F} {c : Cursor τ F}
    (h : TracerImpl.load data n = .ok c) :
    ∃ keys cases, (n = .unexplored ∧ keys = [] ∨ n = .load t data.mask keys cases) ∧
      c = loadCursor data keys cases := by
  cases n with
  | unexplored => cases h; exact ⟨[], fun _ => .unexplored, .inl ⟨rfl, rfl⟩, rfl⟩
  | flow f => cases h
  | test t' need pos neg => cases h
  | load t' mask keys cases =>
    simp only [TracerImpl.load] at h
    split at h
    · rename_i ht
      subst ht
      split at h
      · rename_i hm
        subst hm
        cases h
        exact ⟨keys, cases, .inr rfl, rfl⟩
      · cases h
    · cases h

theorem TracerImpl.test_ok {pred : Field t} {ret : Bool} {n : Node τ F} {c : Cursor τ F}
    (h : TracerImpl.test pred ret n = .ok c) :
    ∃ pos neg, (n = .unexplored ∧ pos = .unexplored ∧ neg = .unexplored ∨
        n = .test t pred pos neg) ∧
      c = if ret then ⟨pos, fun n => .test t pred n neg⟩ else ⟨neg, fun n => .test t pred pos n⟩ := by
  cases n with
  | unexplored =>
    cases h
    refine ⟨.unexplored, .unexplored, .inl ⟨rfl, rfl, rfl⟩, ?_⟩
    cases ret <;> rfl
  | flow f => cases h
  | load t' mask keys cases => cases h
  | test t' need pos neg =>
    simp only [TracerImpl.test] at h
    split at h
    · rename_i heq
      cases heq
      cases h
      exact ⟨pos, neg, .inr rfl, rfl⟩
    · cases h

/-! ## Calls on the traced packet -/

/-- The bits of `read` that the cache does not know. -/
def unexplored (cache : FieldSet τ) (read : Field t) : Field t :=
  read.widen (cache.load read.mask).mask.compl

theorem get_unexplored (cache : FieldSet τ) (read : Field t) (i : Nat) :
    (unexplored cache read).get i = if (cache.get t i).isSome then none else read.get i := by
  rw [unexplored, Field.get_widen_compl, ← Field.get_isSome, FieldSet.get_load, ← Field.get_isSome]
  cases read.get i <;> simp

theorem free_unexplored (cache : FieldSet τ) (read : Field t) :
    cache.Free (unexplored cache read).mask := by
  intro i hi
  rw [← Field.get_isSome, get_unexplored] at hi
  cases h : cache.get t i with
  | none => rfl
  | some b => rw [h] at hi; simp at hi

namespace TraceablePacketImpl

variable {p p' : TraceablePacketImpl τ} {n : Node τ F} {c : Cursor τ F}

theorem loadVia_none {mask : Mask t} (h : p.pkt.pkt.load mask = none) (stay : γ)
    (tracer : Field t → Except Exc γ) : p.loadVia mask stay tracer = .error .outOfRange := by
  rw [loadVia, h]; rfl

theorem loadVia_some {mask : Mask t} {read : Field t} (hr : p.pkt.pkt.load mask = some read)
    (stay : γ) (tracer : Field t → Except Exc γ) :
    p.loadVia mask stay tracer =
      if (unexplored p.cache read).wildcard then .ok (read, p, stay)
      else (tracer (unexplored p.cache read)).map fun c =>
        (read, { p with cache := p.cache.modify (unexplored p.cache read) }, c) := by
  have hu : read.widen (p.cache.load mask).mask.compl = unexplored p.cache read := by
    rw [unexplored, load_mask hr]
  simp only [loadVia, hr, orOutOfRange, Fallible.orThrow, bind, Except.bind, hu]
  cases tracer (unexplored p.cache read) <;> rfl

theorem load_ok {mask : Mask t} {read : Field t} (h : p.load mask n = .ok (read, p', c)) :
    p.pkt.pkt.load mask = some read ∧
      (((unexplored p.cache read).wildcard = true ∧ p' = p ∧ c = .stay n) ∨
        (¬ (unexplored p.cache read).wildcard = true ∧
          TracerImpl.load (unexplored p.cache read) n = .ok c ∧
          p' = { p with cache := p.cache.modify (unexplored p.cache read) })) := by
  cases hr : p.pkt.pkt.load mask with
  | none => rw [load, loadVia_none hr] at h; cases h
  | some read' =>
    rw [load, loadVia_some hr] at h
    split at h
    · rename_i hw
      cases h
      exact ⟨rfl, .inl ⟨hw, rfl, rfl⟩⟩
    · rename_i hw
      cases hc : TracerImpl.load (unexplored p.cache read') n with
      | error e => rw [hc] at h; cases h
      | ok c' =>
        rw [hc] at h
        cases h
        exact ⟨rfl, .inr ⟨hw, hc, rfl⟩⟩

theorem testVia_none {need : Field t} (h : p.pkt.pkt.load need.mask = none) (stay : γ)
    (tracer : Field t → Bool → Except Exc γ) :
    p.testVia need stay tracer = .error .outOfRange := by
  rw [testVia, h]; rfl

theorem testVia_some {need read : Field t} (hr : p.pkt.pkt.load need.mask = some read)
    (stay : γ) (tracer : Field t → Bool → Except Exc γ) :
    p.testVia need stay tracer =
      if !(p.cache.load need.mask).agrees need then .ok (false, p, stay)
      else if (unexplored p.cache read).wildcard then .ok (true, p, stay)
      else (tracer (need.widen (unexplored p.cache read).mask)
          ((unexplored p.cache read).agrees need)).map fun c =>
        ((unexplored p.cache read).agrees need,
          if (unexplored p.cache read).agrees need
          then { p with cache := p.cache.modify (unexplored p.cache read) } else p, c) := by
  have hu : read.widen (p.cache.load need.mask).mask.compl = unexplored p.cache read := by
    rw [unexplored, load_mask hr]
  simp only [testVia, hr, orOutOfRange, Fallible.orThrow, bind, Except.bind, hu]
  cases tracer (need.widen (unexplored p.cache read).mask)
    ((unexplored p.cache read).agrees need) <;> rfl

theorem test_ok {need : Field t} {ret : Bool} (h : p.test need n = .ok (ret, p', c)) :
    ∃ read, p.pkt.pkt.load need.mask = some read ∧
      (((p.cache.load need.mask).agrees need = false ∧ ret = false ∧ p' = p ∧ c = .stay n) ∨
        ((p.cache.load need.mask).agrees need = true ∧
          (unexplored p.cache read).wildcard = true ∧ ret = true ∧ p' = p ∧ c = .stay n) ∨
        ((p.cache.load need.mask).agrees need = true ∧
          ¬ (unexplored p.cache read).wildcard = true ∧
          ret = (unexplored p.cache read).agrees need ∧
          TracerImpl.test (need.widen (unexplored p.cache read).mask) ret n = .ok c ∧
          p' = if ret then { p with cache := p.cache.modify (unexplored p.cache read) } else p)) := by
  cases hr : p.pkt.pkt.load need.mask with
  | none => rw [test, testVia_none hr] at h; cases h
  | some read =>
    refine ⟨read, rfl, ?_⟩
    rw [test, testVia_some hr] at h
    split at h
    · rename_i ha
      cases h
      exact .inl ⟨by simpa using ha, rfl, rfl, rfl⟩
    · rename_i ha
      have ha' : (p.cache.load need.mask).agrees need = true := by simpa using ha
      split at h
      · rename_i hw
        cases h
        exact .inr (.inl ⟨ha', hw, rfl, rfl, rfl⟩)
      · rename_i hw
        cases hc : TracerImpl.test (need.widen (unexplored p.cache read).mask)
            ((unexplored p.cache read).agrees need) n with
        | error e => rw [hc] at h; cases h
        | ok c' =>
          rw [hc] at h
          cases h
          exact .inr (.inr ⟨ha', hw, rfl, hc, rfl⟩)

theorem modify_ok {patch : Field t} (h : p.modify patch = .ok p') :
    p.pkt.modify patch = .ok p'.pkt ∧ p'.cache = p.cache.modify patch := by
  unfold modify at h
  cases hm : p.pkt.modify patch with
  | error e => simp [hm, bind, Except.bind] at h
  | ok pkt =>
    simp only [hm, bind, Except.bind, pure, Except.pure, Except.ok.injEq] at h
    subst h
    exact ⟨rfl, rfl⟩

end TraceablePacketImpl

theorem ModTrackingPacket.isSome_of_modify {p p' : ModTrackingPacket τ} {patch : Field t}
    (h : p.modify patch = .ok p') (t' : τ) (ht' : (p'.pkt t').isSome) : (p.pkt t').isSome := by
  unfold ModTrackingPacket.modify at h
  cases hm : p.pkt.modify patch with
  | none => simp [hm, orOutOfRange, Fallible.orThrow, bind, Except.bind] at h
  | some cur =>
    simp only [hm, orOutOfRange, Fallible.orThrow, bind, Except.bind, pure, Except.pure,
      Except.ok.injEq] at h
    subst h
    obtain ⟨v, hv, -, hne⟩ := Packet.modify_eq_some hm
    by_cases ht : t' = t
    · subst ht; rw [hv]; rfl
    · rw [← hne t' ht]; exact ht'

/-! ## Known bits -/

/-- Every bit that `M` fixes is fixed by `c` too. -/
def Known (M c : FieldSet τ) : Prop := ∀ t i, (M.get t i).isSome → (c.get t i).isSome

theorem Known.modify_right {M c : FieldSet τ} (h : Known M c) (g : Field t) :
    Known M (c.modify g) := by
  intro t' i hi
  by_cases ht : t' = t
  · subst ht
    rw [FieldSet.get_modify, Option.isSome_or, h t' i hi, Bool.or_true]
  · rw [FieldSet.get_modify_of_ne _ _ ht]; exact h t' i hi

theorem Known.modify {M c : FieldSet τ} (h : Known M c) {f g : Field t} (hm : f.mask = g.mask) :
    Known (M.modify f) (c.modify g) := by
  intro t' i hi
  by_cases ht : t' = t
  · subst ht
    rw [FieldSet.get_modify, Option.isSome_or, Field.get_isSome, hm, Bool.or_eq_true] at hi
    rw [FieldSet.get_modify, Option.isSome_or, Field.get_isSome, Bool.or_eq_true]
    exact hi.imp_right (h t' i)
  · rw [FieldSet.get_modify_of_ne _ _ ht] at hi ⊢; exact h t' i hi

theorem Known.free {M c : FieldSet τ} (h : Known M c) {m : Mask t} (hc : c.Free m) :
    M.Free m := by
  intro i hi
  have := h t i
  rw [hc i hi] at this
  simpa using this

/-- The bits a test traces are those the packet's unexplored bits have. -/
theorem mask_widen_unexplored (cache : FieldSet τ) {need read : Field t}
    (h : read.mask = need.mask) :
    (need.widen (unexplored cache read).mask).mask = (unexplored cache read).mask := by
  apply Mask.ext
  apply BitVec.eq_of_getLsbD_eq
  intro i _
  rw [← Field.get_isSome, ← Field.get_isSome, Field.get_widen, ← Field.get_isSome]
  by_cases hu : ((unexplored cache read).get i).isSome
  · rw [if_pos hu, hu, Field.get_isSome, ← h, ← Field.get_isSome]
    rw [get_unexplored] at hu
    split at hu
    · cases hu
    · exact hu
  · simp [hu]

/-! ## Trees that ask for each bit once -/

/-- Below a path that fixed the bits of `M`, every node asks for some bit, and only for bits that
its path has not fixed; the keys of a case map are distinct values under the node's mask. -/
def Node.WF : FieldSet τ → Node τ F → Prop
  | _, .unexplored => True
  | _, .flow _ => True
  | M, .test _ need positive negative =>
    ¬ need.wildcard = true ∧ M.Free need.mask ∧ positive.WF (M.modify need) ∧ negative.WF M
  | M, .load _ mask keys cases =>
    ¬ mask.wildcard = true ∧ M.Free mask ∧
      ∀ key ∈ keys, (Field.make key mask).value = key ∧
        (cases key).WF (M.modify (Field.make key mask))

theorem wf_load {M : FieldSet τ} {data : Field t} {n : Node τ F} {c : Cursor τ F}
    (hn : n.WF M) (hw : ¬ data.wildcard = true) (hf : M.Free data.mask)
    (h : TracerImpl.load data n = .ok c) :
    c.child.WF (M.modify data) ∧ ∀ n', n'.WF (M.modify data) → (c.plug n').WF M := by
  obtain ⟨keys, cases, hn', rfl⟩ := TracerImpl.load_ok h
  have hc : ∀ key ∈ keys, (Field.make key data.mask).value = key ∧
      (cases key).WF (M.modify (Field.make key data.mask)) := by
    rcases hn' with ⟨_, rfl⟩ | rfl
    · simp
    · exact hn.2.2
  refine ⟨?_, fun n' hn' => ⟨hw, hf, forall_update_cases (P := fun key n =>
    (Field.make key data.mask).value = key ∧ n.WF (M.modify (Field.make key data.mask))) hc ?_⟩⟩
  · dsimp only [loadCursor]
    split
    · rename_i hk
      have := (hc _ hk).2
      rwa [make_value_mask] at this
    · trivial
  · rw [make_value_mask]
    exact ⟨rfl, hn'⟩

theorem wf_test {M : FieldSet τ} {pred : Field t} {ret : Bool} {n : Node τ F} {c : Cursor τ F}
    (hn : n.WF M) (hw : ¬ pred.wildcard = true) (hf : M.Free pred.mask)
    (h : TracerImpl.test pred ret n = .ok c) :
    c.child.WF (if ret then M.modify pred else M) ∧
      ∀ n', n'.WF (if ret then M.modify pred else M) → (c.plug n').WF M := by
  obtain ⟨pos, neg, hn', rfl⟩ := TracerImpl.test_ok h
  have hpn : pos.WF (M.modify pred) ∧ neg.WF M := by
    rcases hn' with ⟨_, rfl, rfl⟩ | rfl
    · exact ⟨trivial, trivial⟩
    · exact hn.2.2
  cases ret with
  | true => exact ⟨hpn.1, fun _ hn' => ⟨hw, hf, hn', hpn.2⟩⟩
  | false => exact ⟨hpn.2, fun _ hn' => ⟨hw, hf, hpn.1, hn'⟩⟩

end

/-! ### The rule for a run -/

section
variable {S : Type} {R : S → TraceablePacketImpl τ → Prop} {P : S → Node τ F → Prop}

variable (R P) in
/-- The call that returned `p'` and `c` at the node `n` leads to a state of which `P` holds at the
node it goes on to; and `P` still holds of `n` when that node is replaced by one of which it does. -/
def KeepsAt (s : S) (p' : TraceablePacketImpl τ) (c : Cursor τ F) : Prop :=
  ∃ s', R s' p' ∧ P s' c.child ∧ ∀ n', P s' n' → P s (c.plug n')

theorem KeepsAt.stay {s : S} {p : TraceablePacketImpl τ} {n : Node τ F} (hp : R s p) (hn : P s n) :
    KeepsAt R P s p (.stay n) := ⟨s, hp, hn, fun _ hn' => hn'⟩

variable [DecidableEq τ]

/-- **Induction over a run**: `P` holds of the node a run was made at when it did before and every
call keeps it, finished or not. -/
theorem augmentFrom_rule (disposable : D → Bool) (flow : F) (hflow : ∀ s, P s (.flow flow))
    (hload : ∀ (s : S) (p p' : TraceablePacketImpl τ) (t : τ) (mask : Mask t) (read : Field t)
      (n : Node τ F) (c : Cursor τ F), R s p → P s n → p.load mask n = .ok (read, p', c) →
        KeepsAt R P s p' c)
    (htest : ∀ (s : S) (p p' : TraceablePacketImpl τ) (t : τ) (need : Field t) (ret : Bool)
      (n : Node τ F) (c : Cursor τ F), R s p → P s n → p.test need n = .ok (ret, p', c) →
        KeepsAt R P s p' c)
    (hmodify : ∀ (s : S) (p p' : TraceablePacketImpl τ) (t : τ) (patch : Field t), R s p →
      p.modify patch = .ok p' → R s p')
    (policy : Policy τ D) {s : S} {p : TraceablePacketImpl τ} {n : Node τ F} (hp : R s p)
    (hn : P s n) : P s (augmentFrom disposable flow policy p n).1 := by
  induction policy generalizing s p n with
  | done d =>
    unfold augmentFrom
    split
    · exact hn
    · split
      · exact hn
      · rename_i h
        rw [TracerImpl.finish_ok h]
        exact hflow s
  | raise e => exact hn
  | load t mask k ih =>
    unfold augmentFrom
    split
    · exact ih _ hp hn
    · rename_i read p' c h
      obtain ⟨s', hp', hchild, hplug⟩ := hload s p p' t mask read n c hp hn h
      exact hplug _ (ih _ hp' hchild)
  | test t need k ih =>
    unfold augmentFrom
    split
    · exact ih _ hp hn
    · rename_i ret p' c h
      obtain ⟨s', hp', hchild, hplug⟩ := htest s p p' t need ret n c hp hn h
      exact hplug _ (ih _ hp' hchild)
  | modify t patch k ih =>
    unfold augmentFrom
    split
    · exact ih _ hp hn
    · rename_i p' h
      exact ih _ (hmodify s p p' t patch hp h) hn

end

variable [DecidableEq τ]

/-- A run of `augment` keeps the tree well formed, finished or not. -/
theorem wf_augmentFrom (disposable : D → Bool) (flow : F) (policy : Policy τ D)
    {p : TraceablePacketImpl τ} {M : FieldSet τ} {n : Node τ F} (hM : Known M p.cache)
    (hn : n.WF M) : (augmentFrom disposable flow policy p n).1.WF M := by
  refine augmentFrom_rule (R := fun M p => Known M p.cache) (P := Node.WF) disposable flow
    (fun _ => trivial) (fun M p p' t mask read n c hM hn h => ?_)
    (fun M p p' t need ret n c hM hn h => ?_) (fun M p p' t patch hM h => ?_) policy hM hn
  · obtain ⟨-, ⟨-, rfl, rfl⟩ | ⟨hw, hc, rfl⟩⟩ := TraceablePacketImpl.load_ok h
    · exact .stay hM hn
    · obtain ⟨hchild, hplug⟩ := wf_load hn hw (hM.free (free_unexplored p.cache read)) hc
      exact ⟨_, hM.modify rfl, hchild, hplug⟩
  · obtain ⟨read, hr, ⟨-, -, rfl, rfl⟩ | ⟨-, -, -, rfl, rfl⟩ | ⟨-, hw, -, hc, rfl⟩⟩ :=
      TraceablePacketImpl.test_ok h
    · exact .stay hM hn
    · exact .stay hM hn
    · have hm := mask_widen_unexplored p.cache (load_mask hr)
      have hf := hM.free (free_unexplored p.cache read)
      rw [← hm] at hf
      have hw' : ¬ (need.widen (unexplored p.cache read).mask).wildcard = true := by
        rwa [Field.wildcard, hm]
      obtain ⟨hchild, hplug⟩ := wf_test hn hw' hf hc
      refine ⟨_, ?_, hchild, hplug⟩
      cases ret with
      | true => exact hM.modify hm
      | false => exact hM
  · rw [(TraceablePacketImpl.modify_ok h).2]
    exact hM.modify_right patch

theorem wf_augment (disposable : D → Bool) (policy : Policy τ D) (pkt : Packet τ) (flow : F)
    {tree : Node τ F} (h : tree.WF ∅) : (augment disposable policy pkt flow tree).1.WF ∅ :=
  wf_augmentFrom disposable flow policy (fun _ _ h => h) h

theorem wf_buildTree (calls : List (Augment τ D F)) : (buildTree calls).WF ∅ := by
  unfold buildTree
  suffices ∀ tree : Node τ F, tree.WF ∅ → (calls.foldl Augment.apply tree).WF ∅ from
    this _ trivial
  induction calls with
  | nil => exact fun _ h => h
  | cons a calls ih => exact fun tree h => ih _ (wf_augment _ _ _ _ h)

/-! ## Fields of the tree -/

theorem carried_load {q : Packet τ} {data : Field t} {n : Node τ F} {c : Cursor τ F}
    (hn : n.Carried q) (ht : (q t).isSome) (h : TracerImpl.load data n = .ok c) :
    c.child.Carried q ∧ ∀ n', n'.Carried q → (c.plug n').Carried q := by
  obtain ⟨keys, cases, hn', rfl⟩ := TracerImpl.load_ok h
  have hc : ∀ key ∈ keys, (cases key).Carried q := by
    rcases hn' with ⟨_, rfl⟩ | rfl
    · simp
    · exact hn.2
  refine ⟨?_, fun n' hn' =>
    ⟨ht, forall_update_cases (P := fun _ n => n.Carried q) hc hn'⟩⟩
  dsimp only [loadCursor]
  split
  · rename_i hk
    exact hc _ hk
  · trivial

theorem carried_test {q : Packet τ} {pred : Field t} {ret : Bool} {n : Node τ F}
    {c : Cursor τ F} (hn : n.Carried q) (ht : (q t).isSome)
    (h : TracerImpl.test pred ret n = .ok c) :
    c.child.Carried q ∧ ∀ n', n'.Carried q → (c.plug n').Carried q := by
  obtain ⟨pos, neg, hn', rfl⟩ := TracerImpl.test_ok h
  have hpn : pos.Carried q ∧ neg.Carried q := by
    rcases hn' with ⟨_, rfl, rfl⟩ | rfl
    · exact ⟨trivial, trivial⟩
    · exact hn.2
  cases ret with
  | true => exact ⟨hpn.1, fun _ hn' => ⟨ht, hn', hpn.2⟩⟩
  | false => exact ⟨hpn.2, fun _ hn' => ⟨ht, hpn.1, hn'⟩⟩

/-- A run mentions only fields of its packet. -/
theorem carried_augmentFrom (disposable : D → Bool) (flow : F) (policy : Policy τ D)
    {q : Packet τ} {p : TraceablePacketImpl τ} {n : Node τ F} (hn : n.Carried q)
    (hp : ∀ t, (p.pkt.pkt t).isSome → (q t).isSome) :
    (augmentFrom disposable flow policy p n).1.Carried q := by
  refine augmentFrom_rule (S := Unit)
    (R := fun _ p => ∀ t, (p.pkt.pkt t).isSome → (q t).isSome) (P := fun _ n => n.Carried q)
    disposable flow (fun _ => trivial) (fun _ p p' t mask read n c hp hn h => ?_)
    (fun _ p p' t need ret n c hp hn h => ?_) (fun _ p p' t patch hp h => ?_) policy (s := ()) hp hn
  · obtain ⟨hr, ⟨-, rfl, rfl⟩ | ⟨-, hc, rfl⟩⟩ := TraceablePacketImpl.load_ok h
    · exact .stay hp hn
    · obtain ⟨v, hv, -⟩ := Packet.load_eq_some.1 hr
      obtain ⟨hchild, hplug⟩ := carried_load hn (hp t (by rw [hv]; rfl)) hc
      exact ⟨(), hp, hchild, hplug⟩
  · obtain ⟨read, hr, ⟨-, -, rfl, rfl⟩ | ⟨-, -, -, rfl, rfl⟩ | ⟨-, -, -, hc, rfl⟩⟩ :=
      TraceablePacketImpl.test_ok h
    · exact .stay hp hn
    · exact .stay hp hn
    · obtain ⟨v, hv, -⟩ := Packet.load_eq_some.1 hr
      obtain ⟨hchild, hplug⟩ := carried_test hn (hp t (by rw [hv]; rfl)) hc
      refine ⟨(), ?_, hchild, hplug⟩
      split <;> exact hp
  · obtain ⟨hm, -⟩ := TraceablePacketImpl.modify_ok h
    exact fun t' ht' => hp t' (ModTrackingPacket.isSome_of_modify hm t' ht')

/-- A tree mentions only fields that the packets of its runs carry. -/
theorem carried_buildTree {q : Packet τ} (calls : List (Augment τ D F))
    (h : ∀ a ∈ calls, ∀ t, (a.pkt t).isSome → (q t).isSome) : (buildTree calls).Carried q := by
  unfold buildTree
  suffices ∀ tree : Node τ F, tree.Carried q → (calls.foldl Augment.apply tree).Carried q from
    this _ trivial
  induction calls with
  | nil => exact fun _ h => h
  | cons a calls ih =>
    intro tree htree
    refine ih (fun b hb => h b (List.mem_cons_of_mem _ hb)) _ ?_
    exact carried_augmentFrom _ _ _ htree (h a List.mem_cons_self)

end Maple
