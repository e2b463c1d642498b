import Mathlib.Algebra.GroupWithZero.Nat
import Mathlib.Data.List.Range
import Runos.Maple.TraceTree

/-!
# The priorities of a compiled tree

The compiler numbers the rules of a tree with a 16-bit counter that starts at 1. Any visit makes
calls with consecutive numbers, as many as the subtree has rules, or fewer when the backend throws
(`compile_numbered`). So the priorities rise, from 1 on, exactly when a tree has at most 65535 rules
(`prioritiesRise_iff`); the rule after that gets the priority of the table-miss rule.
-/

namespace Maple

open Oxm OxmType

variable {τ : Type} [OxmType τ] {F β : Type}

/-- The rules of a tree: one for each test and one for each leaf that is alive. -/
def Node.ruleCount (alive : F → Bool) : Node τ F → Nat
  | .unexplored => 0
  | .flow f => if alive f then 1 else 0
  | .test _ _ positive negative => negative.ruleCount alive + 1 + positive.ruleCount alive
  | .load _ _ keys cases => (keys.map fun key => (cases key).ruleCount alive).sum

/-- The backend, and the priorities its `install` was called with. -/
def Backend.recording (B : Backend τ F β) : Backend τ F (β × List Nat) where
  install priority fieldMatch flow b :=
    match B.install priority fieldMatch flow b.1 with
    | .ok b' => .ok (b', b.2 ++ [priority])
    | .error e => .error (e.1, (e.2, b.2 ++ [priority]))
  remove b := (B.remove b.1, b.2)

section
variable [DecidableEq τ]

/-- The priorities that one commit installs, until the backend throws. -/
def Node.installed (B : Backend τ F β) (alive : F → Bool) (barrier : F) (tree : Node τ F) (b : β) :
    List Nat :=
  match tree.commit B.recording alive barrier (b, []) with
  | .ok b => b.2
  | .error e => e.2.2

/-- Whatever the backend does, the priorities of a commit rise strictly and are at least 1. -/
def Node.PrioritiesRise (alive : F → Bool) (barrier : F) (tree : Node τ F) : Prop :=
  ∀ (β : Type) (B : Backend τ F β) (b : β),
    (tree.installed B alive barrier b).Pairwise (· < ·) ∧
      ∀ priority ∈ tree.installed B alive barrier b, 1 ≤ priority

end

/-! ## Consecutive numbers -/

/-- `k` values of the counter, from `p` on. -/
def numbers (p k : Nat) : List Nat := (List.range k).map fun i => (p + i) % 2 ^ 16

theorem numbers_add (p j k : Nat) :
    numbers p (j + k) = numbers p j ++ numbers ((p + j) % 2 ^ 16) k := by
  unfold numbers
  rw [List.range_add, List.map_append, List.map_map]
  congr 1
  refine List.map_congr_left fun i _ => ?_
  simp only [Function.comp_apply, Nat.mod_add_mod, Nat.add_assoc]

theorem numbers_of_le {p k : Nat} (h : p + k ≤ 2 ^ 16) :
    numbers p k = (List.range k).map (p + ·) := by
  refine List.map_congr_left fun i hi => Nat.mod_eq_of_lt ?_
  have := List.mem_range.1 hi
  omega

/-! ## What a visit installs -/

/-- The result of a visit from the calls and the counter given: `k` more calls, or fewer when the
backend has thrown. -/
def Numbered (calls : List Nat) (p k : Nat) :
    Except (Exc × (β × List Nat)) (Compiler τ (β × List Nat)) → Prop
  | .ok c => c.backend.2 = calls ++ numbers p k ∧ c.priority = (p + k) % 2 ^ 16
  | .error e => ∃ j ≤ k, e.2.2 = calls ++ numbers p j

variable {B : Backend τ F β} {calls : List Nat} {p j k : Nat}
  {r : Except (Exc × (β × List Nat)) (Compiler τ (β × List Nat))}

theorem numbered_ok {c : Compiler τ (β × List Nat)} (hp : c.priority < 2 ^ 16) :
    Numbered c.backend.2 c.priority 0 (.ok c) := by
  refine ⟨(List.append_nil _).symm, ?_⟩
  rw [Nat.add_zero, Nat.mod_eq_of_lt hp]

/-- One visit after another. -/
theorem Numbered.bind (h : Numbered calls p j r)
    {f : Compiler τ (β × List Nat) → Except (Exc × (β × List Nat)) (Compiler τ (β × List Nat))}
    (hf : ∀ c : Compiler τ (β × List Nat), c.priority < 2 ^ 16 →
      Numbered c.backend.2 c.priority k (f c)) : Numbered calls p (j + k) (r >>= f) := by
  cases r with
  | error e =>
    obtain ⟨i, hi, he⟩ := h
    exact ⟨i, by omega, he⟩
  | ok c =>
    obtain ⟨hcalls, hpriority⟩ := h
    have hnext := hf c (by rw [hpriority]; exact Nat.mod_lt _ (by decide))
    rw [hcalls, hpriority] at hnext
    change Numbered calls p (j + k) (f c)
    revert hnext
    cases f c with
    | error e =>
      rintro ⟨i, hi, he⟩
      refine ⟨j + i, by omega, ?_⟩
      rw [he, List.append_assoc, ← numbers_add]
    | ok c' =>
      rintro ⟨hc, hc'⟩
      refine ⟨?_, ?_⟩
      · rw [hc, List.append_assoc, ← numbers_add]
      · rw [hc', Nat.mod_add_mod, Nat.add_assoc]

theorem numbered_install (c : Compiler τ (β × List Nat)) (f : F) (hp : c.priority < 2 ^ 16) :
    Numbered c.backend.2 c.priority 1 (c.install B.recording f) := by
  have hone : numbers c.priority 1 = [c.priority] := by
    show [(c.priority + 0) % 2 ^ 16] = _
    rw [Nat.add_zero, Nat.mod_eq_of_lt hp]
  unfold Compiler.install Backend.recording
  dsimp only
  cases B.install c.priority c.matchSet f c.backend.1 with
  | error e =>
    refine ⟨1, Nat.le_refl _, ?_⟩
    rw [hone]
  | ok b =>
    refine ⟨?_, rfl⟩
    rw [hone]

variable [DecidableEq τ]

/-- **A visit numbers the rules of its subtree consecutively.** -/
theorem compile_numbered (B : Backend τ F β) (alive : F → Bool) (barrier : F) (n : Node τ F)
    (c : Compiler τ (β × List Nat)) (hp : c.priority < 2 ^ 16) :
    Numbered c.backend.2 c.priority (n.ruleCount alive)
      (n.compile B.recording alive barrier c) := by
  induction n generalizing c with
  | unexplored => exact numbered_ok hp
  | flow f =>
    unfold Node.ruleCount Node.compile
    split
    · exact numbered_install c f hp
    · exact numbered_ok hp
  | test t need positive negative ihp ihn =>
    unfold Node.ruleCount Node.compile
    rw [Nat.add_assoc]
    refine (ihn c hp).bind fun c₁ hp₁ => ?_
    refine (numbered_install { c₁ with matchSet := c₁.matchSet.modify need } barrier hp₁).bind
      fun c₂ hp₂ => ?_
    exact (ihp c₂ hp₂).bind (k := 0) fun c₃ hp₃ =>
      numbered_ok (c := { c₃ with matchSet := c₃.matchSet.erase need.mask }) hp₃
  | load t mask keys cases ih =>
    unfold Node.ruleCount Node.compile
    induction keys generalizing c with
    | nil => exact numbered_ok hp
    | cons key keys ihk =>
      rw [List.foldlM_cons, List.map_cons, List.sum_cons]
      refine Numbered.bind ?_ fun c₁ hp₁ => ihk c₁ hp₁
      exact (ih key { c with matchSet := c.matchSet.modify (Field.make key mask) } hp).bind (k := 0)
        fun c₂ hp₂ => numbered_ok (c := { c₂ with matchSet := c₂.matchSet.erase mask }) hp₂

/-- A backend that never throws gets the calls of all rules. -/
theorem compile_returns (hB : ∀ p M f b, ∃ b', B.install p M f b = .ok b') (alive : F → Bool)
    (barrier : F) (n : Node τ F) (c : Compiler τ β) : ∃ c', n.compile B alive barrier c = .ok c' := by
  have hinstall : ∀ (c : Compiler τ β) f, ∃ c', c.install B f = .ok c' := by
    intro c f
    obtain ⟨b, hb⟩ := hB c.priority c.matchSet f c.backend
    exact ⟨_, by rw [Compiler.install, hb]; rfl⟩
  induction n generalizing c with
  | unexplored => exact ⟨c, rfl⟩
  | flow f =>
    unfold Node.compile
    split
    · exact hinstall c f
    · exact ⟨c, rfl⟩
  | test t need positive negative ihp ihn =>
    unfold Node.compile
    obtain ⟨c₁, h₁⟩ := ihn c
    obtain ⟨c₂, h₂⟩ := hinstall { c₁ with matchSet := c₁.matchSet.modify need } barrier
    obtain ⟨c₃, h₃⟩ := ihp c₂
    rw [h₁]
    show ∃ c', (Compiler.install B _ barrier >>= _) = .ok c'
    rw [h₂]
    show ∃ c', (positive.compile B alive barrier c₂ >>= _) = .ok c'
    rw [h₃]
    exact ⟨_, rfl⟩
  | load t mask keys cases ih =>
    unfold Node.compile
    induction keys generalizing c with
    | nil => exact ⟨c, rfl⟩
    | cons key keys ihk =>
      obtain ⟨c₁, h₁⟩ := ih key { c with matchSet := c.matchSet.modify (Field.make key mask) }
      rw [List.foldlM_cons]
      show ∃ c', (((cases key).compile B alive barrier _ >>= _) >>= _) = .ok c'
      rw [h₁]
      exact ihk _

/-! ## Commits -/

variable (B : Backend τ F β) (alive : F → Bool) (barrier : F) (tree : Node τ F) (b : β)

/-- The calls of a commit: the first rules of the tree, numbered from 1. -/
theorem installed_eq_numbers :
    ∃ k ≤ tree.ruleCount alive, tree.installed B alive barrier b = numbers 1 k := by
  have hn := compile_numbered B alive barrier tree
    ⟨B.recording.remove (b, []), ∅, 1⟩ (show 1 < 2 ^ 16 by decide)
  unfold Node.installed Node.commit
  revert hn
  cases tree.compile B.recording alive barrier ⟨B.recording.remove (b, []), ∅, 1⟩ with
  | error e =>
    rintro ⟨k, hk, he⟩
    exact ⟨k, hk, he⟩
  | ok c =>
    rintro ⟨hc, -⟩
    exact ⟨_, Nat.le_refl _, hc⟩

/-- All rules are installed by a backend that never throws. -/
theorem installed_of_returns (hB : ∀ p M f b, ∃ b', B.install p M f b = .ok b') :
    tree.installed B alive barrier b = numbers 1 (tree.ruleCount alive) := by
  have hrecording : ∀ p M f (b : β × List Nat), ∃ b', B.recording.install p M f b = .ok b' := by
    intro p M f b
    obtain ⟨b', hb⟩ := hB p M f b.1
    exact ⟨(b', b.2 ++ [p]), by simp only [Backend.recording, hb]⟩
  have hn := compile_numbered B alive barrier tree
    ⟨B.recording.remove (b, []), ∅, 1⟩ (show 1 < 2 ^ 16 by decide)
  obtain ⟨c, hc⟩ := compile_returns hrecording alive barrier tree
    ⟨B.recording.remove (b, []), ∅, 1⟩
  rw [hc] at hn
  unfold Node.installed Node.commit
  rw [hc]
  exact hn.1

/-- The priority of rule 65536. -/
theorem zero_mem_numbers (h : 2 ^ 16 ≤ k) : 0 ∈ numbers 1 k :=
  List.mem_map.2 ⟨2 ^ 16 - 1, List.mem_range.2 (by omega), by decide⟩

theorem not_prioritiesRise (h : 2 ^ 16 ≤ tree.ruleCount alive) :
    ¬ tree.PrioritiesRise alive barrier := by
  intro hrise
  let total : Backend τ F Unit := ⟨fun _ _ _ b => .ok b, id⟩
  have hall := (hrise Unit total ()).2
  rw [installed_of_returns total alive barrier tree () fun _ _ _ b => ⟨b, rfl⟩] at hall
  exact absurd (hall 0 (zero_mem_numbers h)) (by decide)

/-- **When priorities rise**: the calls of a commit carry strictly increasing priorities, all at
least 1, whatever the backend does, exactly when the tree has at most 65535 rules. -/
theorem prioritiesRise_iff :
    tree.PrioritiesRise alive barrier ↔ tree.ruleCount alive ≤ 65535 := by
  constructor
  · intro hrise
    by_contra hlarge
    exact not_prioritiesRise alive barrier tree (by omega) hrise
  · intro hsmall β B b
    obtain ⟨k, hk, heq⟩ := installed_eq_numbers B alive barrier tree b
    rw [heq, numbers_of_le (by omega)]
    refine ⟨List.pairwise_map.2 (List.pairwise_lt_range.imp fun h => by omega), fun priority h => ?_⟩
    obtain ⟨i, -, rfl⟩ := List.mem_map.1 h
    omega

/-- A flow for each of 65536 Ethernet addresses. -/
def manyHosts : Node OfbType Unit :=
  .load .eth_src (.exact _) ((List.range (2 ^ 16)).map (BitVec.ofNat 48)) fun _ => .flow ()

theorem manyHosts_wrap : ¬ ∀ tree : Node OfbType Unit, tree.PrioritiesRise (fun _ => true) () := by
  intro h
  refine not_prioritiesRise (fun _ => true) () manyHosts ?_ (h manyHosts)
  unfold manyHosts Node.ruleCount
  rw [List.map_map]
  show 2 ^ 16 ≤ (List.map (fun _ => 1) (List.range (2 ^ 16))).sum
  rw [List.map_const', List.sum_replicate, List.length_range]
  decide

end Maple
