import Mathlib.Data.List.Basic

/-!
# Runs of a deterministic system

`Trace step ok s₀ h s`: from `s₀`, a finite sequence of steps leads to `s`; `h` lists the steps
taken, the latest first, each with the state it was taken in, and every step satisfies `ok`.
A property of past states is a property of `h`, so invariants that speak of the past need no
ghost variables: `Trace.invariant` is the induction rule for them, `Trace.of_mem_states` and
`Trace.of_mem` go back to a past state or step. `Trace.states_iff` is the rule for what holds in all
states of a run exactly when all steps meet a condition. `exec` runs a list of events.
-/

namespace Runs

variable {σ ε φ : Type} {step : σ → ε → Except φ σ} {ok : σ → ε → Prop} {s₀ : σ}

inductive Trace (step : σ → ε → Except φ σ) (ok : σ → ε → Prop) (s₀ : σ) :
    List (σ × ε) → σ → Prop
  | nil : Trace step ok s₀ [] s₀
  | snoc {h : List (σ × ε)} {s s' : σ} {e : ε} :
      Trace step ok s₀ h s → ok s e → step s e = .ok s' → Trace step ok s₀ ((s, e) :: h) s'

/-- The states of a run, the latest first. -/
def states (h : List (σ × ε)) (s : σ) : List σ := s :: h.map Prod.fst

theorem mem_states_self (h : List (σ × ε)) (s : σ) : s ∈ states h s := List.mem_cons_self

theorem mem_states_cons {h : List (σ × ε)} {s s' x : σ} {e : ε} :
    x ∈ states ((s, e) :: h) s' ↔ x = s' ∨ x ∈ states h s := by
  simp [states]

theorem mem_states_of_mem {h : List (σ × ε)} {s s' x : σ} {e : ε} (hx : x ∈ states h s) :
    x ∈ states ((s, e) :: h) s' := mem_states_cons.2 (.inr hx)

namespace Trace

/-- **Induction over a run**: a property of the past and the present that holds at the start and
is kept by every allowed step holds of every run. -/
theorem invariant {I : List (σ × ε) → σ → Prop} (h0 : I [] s₀)
    (hs : ∀ h s e s', Trace step ok s₀ h s → I h s → ok s e → step s e = .ok s' →
      I ((s, e) :: h) s') :
    ∀ {h : List (σ × ε)} {s : σ}, Trace step ok s₀ h s → I h s := by
  intro h s ht
  induction ht with
  | nil => exact h0
  | snoc ht hok hstep ih => exact hs _ _ _ _ ht ih hok hstep

/-- The rule for a property of the present alone. -/
theorem invariant_state {I : σ → Prop} (h0 : I s₀)
    (hs : ∀ s e s', I s → ok s e → step s e = .ok s' → I s') {h : List (σ × ε)} {s : σ}
    (ht : Trace step ok s₀ h s) : I s :=
  ht.invariant (I := fun _ s => I s) h0 fun _ s e s' _ hI hok hstep => hs s e s' hI hok hstep

/-- **When all states of a run are right**: an invariant makes the state right, a good step keeps it,
and a bad step leads to a state that is not right. -/
theorem states_iff {I R : σ → Prop} {G : σ → ε → Prop} (h0 : I s₀) (hR : ∀ s, I s → R s)
    (hs : ∀ s e s', I s → ok s e → step s e = .ok s' → (G s e → I s') ∧ (¬ G s e → ¬ R s'))
    {h : List (σ × ε)} {s : σ} (ht : Trace step ok s₀ h s) :
    (∀ y ∈ states h s, R y) ↔ ∀ x ∈ h, G x.1 x.2 := by
  have hinv : ((∀ y ∈ states h s, R y) ↔ ∀ x ∈ h, G x.1 x.2) ∧
      ((∀ x ∈ h, G x.1 x.2) → I s) := by
    refine ht.invariant (I := fun h s => ((∀ y ∈ states h s, R y) ↔ ∀ x ∈ h, G x.1 x.2) ∧
      ((∀ x ∈ h, G x.1 x.2) → I s)) ⟨?_, fun _ => h0⟩ fun h s e s' _ ih hok hstep => ?_
    · refine iff_of_true (fun y hy => ?_) (by simp)
      obtain rfl : y = s₀ := by simpa [states] using hy
      exact hR y h0
    · obtain ⟨hiff, hpast⟩ := ih
      rw [List.forall_mem_cons]
      refine ⟨⟨fun hall => ?_, fun hall y hy => ?_⟩, fun hall => ?_⟩
      · have hgood := hiff.1 fun y hy => hall y (mem_states_of_mem hy)
        refine ⟨?_, hgood⟩
        by_contra hbad
        exact (hs s e s' (hpast hgood) hok hstep).2 hbad (hall _ (mem_states_self _ _))
      · rcases mem_states_cons.1 hy with rfl | hy
        · exact hR _ ((hs s e _ (hpast hall.2) hok hstep).1 hall.1)
        · exact hiff.2 hall.2 y hy
      · exact (hs s e s' (hpast hall.2) hok hstep).1 hall.1
  exact hinv.1

/-- A run is one of every weaker condition. -/
theorem weaken {ok' : σ → ε → Prop} (hw : ∀ s e, ok s e → ok' s e) {h : List (σ × ε)} {s : σ}
    (ht : Trace step ok s₀ h s) : Trace step ok' s₀ h s := by
  induction ht with
  | nil => exact .nil
  | snoc _ hok hstep ih => exact ih.snoc (hw _ _ hok) hstep

/-! ## Going back -/

/-- A past state was reached by a run whose past is part of the past. -/
theorem of_mem_states {h : List (σ × ε)} {s x : σ} (ht : Trace step ok s₀ h s)
    (hx : x ∈ states h s) : ∃ h₀, Trace step ok s₀ h₀ x ∧ (∀ z ∈ h₀, z ∈ h) ∧
      ∀ z ∈ states h₀ x, z ∈ states h s := by
  induction ht with
  | nil =>
    obtain rfl : x = s₀ := by simpa [states] using hx
    exact ⟨[], .nil, fun _ hz => hz, fun _ hz => hz⟩
  | @snoc h s s' e ht hok hstep ih =>
    rcases mem_states_cons.1 hx with rfl | hx
    · exact ⟨_, ht.snoc hok hstep, fun _ hz => hz, fun _ hz => hz⟩
    · obtain ⟨h₀, ht₀, hsub, hst⟩ := ih hx
      exact ⟨h₀, ht₀, fun z hz => List.mem_cons_of_mem _ (hsub z hz),
        fun z hz => mem_states_of_mem (hst z hz)⟩

/-- A past step: the run that led to it, the state it led to, and, of any other state of the run,
whether it is before or after the step. -/
theorem of_mem {h : List (σ × ε)} {s y : σ} {e : ε} (ht : Trace step ok s₀ h s)
    (hm : (y, e) ∈ h) : ∃ h₀ y', Trace step ok s₀ h₀ y ∧ ok y e ∧ step y e = .ok y' ∧
      (∀ z ∈ states h₀ y, z ∈ states h s) ∧ y' ∈ states h s ∧
      ∀ x ∈ states h s, x ∈ states h₀ y ∨ ∃ h', Trace step ok s₀ h' x ∧ y' ∈ states h' x := by
  induction ht with
  | nil => cases hm
  | @snoc h s s' e' ht hok hstep ih =>
    have now := ht.snoc hok hstep
    rcases List.mem_cons.1 hm with heq | hm
    · cases heq
      refine ⟨h, s', ht, hok, hstep, fun _ => mem_states_of_mem, mem_states_self _ _,
        fun x hx => ?_⟩
      rcases mem_states_cons.1 hx with rfl | hx
      · exact .inr ⟨_, now, mem_states_self _ _⟩
      · exact .inl hx
    · obtain ⟨h₀, y', ht₀, hok₀, hstep₀, hsub, hy', hpos⟩ := ih hm
      refine ⟨h₀, y', ht₀, hok₀, hstep₀, fun z hz => mem_states_of_mem (hsub z hz),
        mem_states_of_mem hy', fun x hx => ?_⟩
      rcases mem_states_cons.1 hx with rfl | hx
      · exact .inr ⟨_, now, mem_states_of_mem hy'⟩
      · exact hpos x hx

end Trace

/-! ## Execution -/

section
variable (step : σ → ε → Except φ σ) (ok : σ → ε → Prop) [∀ s e, Decidable (ok s e)]

/-- Runs the events from `s` with past `h`; `none` when a step faults or is not allowed. -/
def exec (h : List (σ × ε)) (s : σ) : List ε → Option (List (σ × ε) × σ)
  | [] => some (h, s)
  | e :: es =>
    if ok s e then
      match step s e with
      | .ok s' => exec ((s, e) :: h) s' es
      | .error _ => none
    else
      none

variable {step ok}

theorem Trace.of_exec {h h' : List (σ × ε)} {s s' : σ} {es : List ε}
    (ht : Trace step ok s₀ h s) (hx : exec step ok h s es = some (h', s')) :
    Trace step ok s₀ h' s' := by
  induction es generalizing h s with
  | nil => cases hx; exact ht
  | cons e es ih =>
    simp only [exec] at hx
    split at hx
    · rename_i hok
      split at hx
      · rename_i s₁ hstep
        exact ih (ht.snoc hok hstep) hx
      · cases hx
    · cases hx

variable (step ok)

/-- The run of a list of events, with what is checked of it. -/
theorem exists_trace (s₀ : σ) (es : List ε) {P : List (σ × ε) → σ → Prop}
    (hx : ∃ r ∈ exec step ok [] s₀ es, P r.1 r.2) : ∃ h s, Trace step ok s₀ h s ∧ P h s := by
  obtain ⟨⟨h, s⟩, hr, hP⟩ := hx
  exact ⟨h, s, Trace.nil.of_exec hr, hP⟩

end

end Runs
