import Mathlib.Data.List.Induction

/-!
# The last write of a cell

A store of cells goes through a list of calls. What a call does to a cell is its effect: it leaves
the cell alone, gives it a value or unsets it. A store that follows the effects of the calls, one by
one, holds a value exactly where that value was the last thing done to the cell
(`read_foldl`).
-/

namespace Overwrite

variable {Op Cell Val Store : Type}

/-- None leaves the cell alone; otherwise it has a new value, or none. -/
abbrev Effect (Op Cell Val : Type) := Op → Cell → Option (Option Val)

/-- One of the calls wrote `v` to the cell `k`, and no call after it touches `k`. -/
def LastWrite (effect : Effect Op Cell Val) (ops : List Op) (k : Cell) (v : Val) : Prop :=
  ∃ before op after, ops = before ++ op :: after ∧ effect op k = some (some v) ∧
    ∀ op' ∈ after, effect op' k = none

variable {effect : Effect Op Cell Val} {k : Cell} {v : Val}

theorem not_lastWrite_nil : ¬ LastWrite effect [] k v := by
  intro h
  obtain ⟨before, op, after, h, -⟩ := h
  exact absurd h.symm (by simp)

theorem lastWrite_concat {ops : List Op} {op : Op} :
    LastWrite effect (ops ++ [op]) k v ↔
      effect op k = some (some v) ∨ effect op k = none ∧ LastWrite effect ops k v := by
  constructor
  · intro h
    obtain ⟨before, op₁, after, heq, hw, hafter⟩ := h
    -- the call is the writer itself, or it comes after the writer
    cases after using List.reverseRecOn with
    | nil =>
      obtain ⟨-, hlast⟩ := List.append_inj' heq rfl
      obtain rfl := List.singleton_inj.1 hlast
      exact .inl hw
    | append_singleton after last _ =>
      rw [← List.cons_append, ← List.append_assoc] at heq
      obtain ⟨rfl, hlast⟩ := List.append_inj' heq rfl
      obtain rfl := List.singleton_inj.1 hlast
      exact .inr ⟨hafter _ (by simp), before, op₁, after, rfl, hw,
        fun op' hop' => hafter op' (List.mem_append_left _ hop')⟩
  · intro h
    rcases h with hw | ⟨hkeep, before, op₁, after, rfl, hw, hafter⟩
    · exact ⟨ops, op, [], rfl, hw, by simp⟩
    · refine ⟨before, op₁, after ++ [op], by simp, hw, fun op' hop' => ?_⟩
      rcases List.mem_append.1 hop' with h | h
      · exact hafter op' h
      · rw [List.mem_singleton.1 h]; exact hkeep

/-- Each call gives the cells of the store what its effect says; so does the whole run. -/
theorem read_foldl {apply : Store → Op → Store} (read : Store → Cell → Option Val)
    (step : ∀ s op k, read (apply s op) k = (effect op k).getD (read s k)) {s : Store}
    (empty : ∀ k, read s k = none) (ops : List Op) :
    read (ops.foldl apply s) k = some v ↔ LastWrite effect ops k v := by
  induction ops using List.reverseRecOn with
  | nil =>
    rw [List.foldl_nil, empty]
    exact iff_of_false (by simp) not_lastWrite_nil
  | append_singleton ops op ih =>
    rw [List.foldl_append, List.foldl_cons, List.foldl_nil, step, lastWrite_concat]
    cases hop : effect op k with
    | none => rw [Option.getD_none, ih]; simp
    | some written => rw [Option.getD_some]; simp

end Overwrite
