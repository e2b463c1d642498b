import Mathlib.Data.List.TakeWhile
import Runos.Controller.Proof.Loader

/-!
# Chains of applications that are not good

What is good is initialized (`initializeService_good`). A call for what is not goes from each
application to its first dependency that is not good: this is the chain (`OnChain`), which ends at
an application that is not registered, or comes back to itself (`Loops`). All of it stays
`initializing`, with the dependencies in front initialized, and the loader aborts when the chain
meets itself or something else that is `initializing` (`initializeService_blocked`).
-/

namespace Loader

open AppState Outcome Relation

variable {α : Type} [DecidableEq α] {registry : List (Application α)} {s s' s₁ s₂ : LoaderImpl α}
  {a d x : α} {fuel : Nat} {r : Outcome} {app : Application α} {ds : List α}
  {call : LoaderImpl α → α → Outcome × LoaderImpl α}

/-! ## Chains -/

variable (registry) in
/-- The dependencies of an application, in the order of its list. -/
def needs (a : α) : List α := ((find registry a).map (·.dependsOn)).getD []

open Classical in
variable (registry) in
/-- The dependencies in front of the first one that is not good. -/
noncomputable def leading (a : α) : List α := (needs registry a).takeWhile (Good registry ·)

open Classical in
variable (registry) in
/-- The first dependency that is not good. -/
noncomputable def firstBad (a : α) : Option α :=
  ((needs registry a).dropWhile (Good registry ·)).head?

variable (registry) in
/-- `x` is on the chain of `a`, which follows the first dependencies that are not good, as far as
they are registered. -/
inductive OnChain : α → α → Prop
  | self {a : α} : find registry a ≠ none → ¬ Good registry a → OnChain a a
  | next {a d x : α} : firstBad registry a = some d → OnChain d x → OnChain a x

variable (registry) in
/-- The chain of `a` comes back to itself. -/
def Loops (a : α) : Prop :=
  ∃ x d, OnChain registry a x ∧ firstBad registry x = some d ∧ OnChain registry d x

theorem needs_eq (hfound : find registry a = some app) : needs registry a = app.dependsOn := by
  rw [needs, hfound]
  rfl

theorem good_of_mem_leading (h : x ∈ leading registry a) : Good registry x := by
  have hg := List.mem_takeWhile_imp h
  simpa using hg

theorem mem_needs (h : x ∈ needs registry a) : Dep registry a x := by
  cases hfound : find registry a with
  | none =>
    rw [needs, hfound] at h
    cases h
  | some app => exact ⟨app, hfound, by rwa [needs_eq hfound] at h⟩

/-- The dependencies, around the first that is not good. -/
theorem firstBad_spec (h : firstBad registry a = some d) : ¬ Good registry d ∧ Dep registry a d ∧
    ∃ rest, needs registry a = leading registry a ++ d :: rest := by
  classical
  obtain ⟨rest, hrest⟩ := List.head?_eq_some_iff.1 h
  have hsplit : needs registry a = leading registry a ++ d :: rest := by
    rw [← hrest, leading, List.takeWhile_append_dropWhile]
  refine ⟨?_, mem_needs ?_, rest, hsplit⟩
  · have hnot := List.head?_dropWhile_not (fun x => decide (Good registry x)) (needs registry a)
    rw [show ((needs registry a).dropWhile _).head? = some d from h] at hnot
    exact of_decide_eq_false hnot
  · rw [hsplit]
    exact List.mem_append_right _ List.mem_cons_self

theorem exists_firstBad (hfound : find registry a ≠ none) (hb : ¬ Good registry a) :
    ∃ d, firstBad registry a = some d := by
  classical
  obtain ⟨app, hfound⟩ := Option.ne_none_iff_exists'.1 hfound
  cases hfirst : firstBad registry a with
  | some d => exact ⟨d, rfl⟩
  | none =>
    refine absurd (Good.of_deps hfound fun d hd => ?_) hb
    rw [firstBad, List.head?_eq_none_iff, List.dropWhile_eq_nil_iff, needs_eq hfound] at hfirst
    exact of_decide_eq_true (hfirst d hd)

theorem firstBad_found (h : firstBad registry a = some d) : find registry a ≠ none := by
  obtain ⟨app, hfound, -⟩ := (firstBad_spec h).2.1
  rw [hfound]
  exact Option.some_ne_none app

theorem firstBad_not_good (h : firstBad registry a = some d) : ¬ Good registry a := by
  obtain ⟨hd, hdep, -⟩ := firstBad_spec h
  exact fun hg => hd (hg.reach (.single hdep))

namespace OnChain

theorem not_good (h : OnChain registry a x) : ¬ Good registry a := by
  cases h with
  | self _ hb => exact hb
  | next hd _ => exact firstBad_not_good hd

theorem not_good_end (h : OnChain registry a x) : ¬ Good registry x := by
  induction h with
  | self _ hb => exact hb
  | next _ _ ih => exact ih

theorem found (h : OnChain registry a x) : find registry a ≠ none := by
  cases h with
  | self hfound _ => exact hfound
  | next hd _ => exact firstBad_found hd

theorem trans (h : OnChain registry a d) (h' : OnChain registry d x) : OnChain registry a x := by
  induction h with
  | self _ _ => exact h'
  | next hd _ ih => exact .next hd (ih h')

end OnChain

theorem onChain_iff (hd : firstBad registry a = some d) :
    OnChain registry a x ↔ x = a ∨ OnChain registry d x := by
  constructor
  · intro h
    cases h with
    | self _ _ => exact .inl rfl
    | next hd' h =>
      cases hd.symm.trans hd'
      exact .inr h
  · rintro (rfl | h)
    · exact .self (firstBad_found hd) (firstBad_not_good hd)
    · exact .next hd h

theorem loops_iff (hd : firstBad registry a = some d) :
    Loops registry a ↔ OnChain registry d a ∨ Loops registry d := by
  constructor
  · rintro ⟨x, d', hx, hd', hloop⟩
    rcases (onChain_iff hd).1 hx with rfl | hx
    · cases hd.symm.trans hd'
      exact .inl hloop
    · exact .inr ⟨x, d', hx, hd', hloop⟩
  · rintro (hloop | ⟨x, d', hx, hd', hloop⟩)
    · exact ⟨a, d, (onChain_iff hd).2 (.inl rfl), hd, hloop⟩
    · exact ⟨x, d', .next hd hx, hd', hloop⟩

theorem Loops.not_good (h : Loops registry a) : ¬ Good registry a := by
  obtain ⟨x, -, hx, -⟩ := h
  exact hx.not_good

/-! ## Calls for what is good -/

/-- The same applications are `initializing`. -/
def SameStuck (s s' : LoaderImpl α) : Prop :=
  ∀ x, s'.state x = initializing ↔ s.state x = initializing

variable (registry) in
/-- Nothing good that `a` needs is `initializing`. -/
def Clear (s : LoaderImpl α) (a : α) : Prop :=
  ∀ x, Reach registry a x → Good registry x → s.state x ≠ initializing

theorem setState_initializing :
    (s.setState a initializing).state x = initializing ↔ x = a ∨ s.state x = initializing := by
  rw [state_setState]
  split
  · rename_i heq
    exact iff_of_true rfl (.inl heq)
  · rename_i hne
    rw [or_iff_right hne]

omit [DecidableEq α] in
theorem dependencies_append {l : List α} (h : dependencies call s l = (.info, s₁)) (ds : List α) :
    dependencies call s (l ++ ds) = dependencies call s₁ ds := by
  induction l generalizing s with
  | nil =>
    cases h
    rfl
  | cons e l ih =>
    rw [List.cons_append, dependencies]
    rw [dependencies] at h
    rcases hres : call s e with ⟨r, s'⟩
    rw [hres] at h
    cases r with
    | info =>
      dsimp only at h ⊢
      by_cases hni : s'.state e = initializing
      · rw [if_pos hni] at h
        cases h
      · rw [if_neg hni] at h ⊢
        exact ih h
    | null | cyclic | outOfFuel => cases h

/-- Dependencies that are good are initialized. -/
theorem dependencies_good
    (hcall : ∀ s a, pending registry s < fuel → Called registry s a (call s a).1 (call s a).2)
    (hgood : ∀ s a, pending registry s < fuel → Ordered registry s → Good registry a →
      Clear registry s a → (call s a).1 = .info ∧ SameStuck s (call s a).2)
    (hfuel : pending registry s < fuel) (ho : Ordered registry s)
    (hds : ∀ d ∈ ds, Good registry d) (hclear : ∀ d ∈ ds, Clear registry s d) :
    (dependencies call s ds).1 = .info ∧ SameStuck s (dependencies call s ds).2 := by
  induction ds generalizing s with
  | nil => exact ⟨rfl, fun _ => Iff.rfl⟩
  | cons e ds ih =>
    have he := hds e List.mem_cons_self
    have hspec := hcall s e hfuel
    obtain ⟨hr, hsame⟩ := hgood s e hfuel ho he (hclear e List.mem_cons_self)
    unfold dependencies
    rcases hres : call s e with ⟨r, s₁⟩
    rw [hres] at hspec hr hsame
    cases hr
    have hni : s₁.state e ≠ initializing := by
      rw [Ne, hsame e]
      exact hclear e List.mem_cons_self e .refl he
    simp only [if_neg hni]
    obtain ⟨hr, hsame'⟩ := ih (Nat.lt_of_le_of_lt hspec.toStep.pending_le hfuel) (hspec.ordered ho)
      (fun d hd => hds d (List.mem_cons_of_mem _ hd))
      (fun d hd x hx hg hst => hclear d (List.mem_cons_of_mem _ hd) x hx hg ((hsame x).1 hst))
    exact ⟨hr, fun x => (hsame' x).trans (hsame x)⟩

/-- **What is good is initialized.** -/
theorem initializeService_good (hfuel : pending registry s < fuel) (ho : Ordered registry s)
    (hg : Good registry a) (hclear : Clear registry s a) :
    (initializeService registry fuel s a).1 = .info ∧
      SameStuck s (initializeService registry fuel s a).2 := by
  induction fuel generalizing s a with
  | zero => exact absurd hfuel (Nat.not_lt_zero _)
  | succ fuel ih =>
    obtain ⟨app, hfound⟩ := Option.ne_none_iff_exists'.1 (hg.1 a .refl)
    simp only [initializeService, hfound]
    split
    · exact ⟨rfl, fun _ => Iff.rfl⟩
    · rename_i hreg
      have ha : s.state a = registered := Decidable.not_not.1 hreg
      have hlt := pending_setState_lt hfound ha
      have hdeps : ∀ d ∈ app.dependsOn, Dep registry a d := fun d hd => ⟨app, hfound, hd⟩
      obtain ⟨hr, hsame⟩ := dependencies_good (s := s.setState a initializing)
        (fun s a hlt => initializeService_spec hlt) (fun s a hlt => ih hlt)
        (show pending registry (s.setState a initializing) < fuel by omega)
        (ho.setState ha (by rw [hfound]; exact Option.some_ne_none app))
        (fun d hd => hg.reach (.single (hdeps d hd)))
        (fun d hd x hx hgx hst => by
          rcases setState_initializing.1 hst with rfl | hst
          · exact hg.not_reach (hdeps d hd) hx
          · exact hclear x (.head (hdeps d hd) hx) hgx hst)
      rcases hres : dependencies (initializeService registry fuel) (s.setState a initializing)
        app.dependsOn with ⟨r, s₂⟩
      rw [hres] at hr hsame
      cases hr
      refine ⟨rfl, fun x => ?_⟩
      show (s₂.initApp a).state x = initializing ↔ _
      rw [LoaderImpl.initApp, state_setState]
      split
      · rename_i heq
        rw [heq, ha]
        exact iff_of_false (by decide) (by decide)
      · rename_i hne
        exact (hsame x).trans (setState_initializing.trans (or_iff_right hne))

/-! ## Calls for what is not good -/

variable (registry) in
/-- The chain of `a` meets an application that is `initializing`. -/
def Hits (s : LoaderImpl α) (a : α) : Prop := ∃ x, OnChain registry a x ∧ s.state x = initializing

variable (registry) in
/-- What is `initializing` when `a` is asked for has its good dependencies initialized up to the
first that is not good; this is `initializing` too, or is `a`. -/
structure Underway (s : LoaderImpl α) (a : α) : Prop where
  closed : ∀ x d, s.state x = initializing → firstBad registry x = some d →
    find registry d ≠ none → d = a ∨ s.state d = initializing
  leading : ∀ x, s.state x = initializing → ∀ e ∈ leading registry x, s.state e = initialized

variable (registry) in
/-- What a call for an application that is not good comes to: it follows the chain. -/
structure Blocked (s : LoaderImpl α) (a : α) (r : Outcome) (s' : LoaderImpl α) : Prop where
  hit : Hits registry s a ∨ Loops registry a → r = cyclic
  miss : ¬ (Hits registry s a ∨ Loops registry a) → r = .null
  stays : ∀ x, OnChain registry a x → s'.state x = initializing
  only : ∀ x, s'.state x = initializing → s.state x = initializing ∨ OnChain registry a x
  leading : ∀ x, OnChain registry a x → ∀ e ∈ leading registry x, s'.state e = initialized
  brought : ∀ x, s'.state x = initialized → s.state x = initialized ∨
    ∃ y, OnChain registry a y ∧ ∃ e ∈ Loader.leading registry y, Reach registry e x

/-- The chain of something that is `initializing` is. -/
theorem Underway.stays (h : Underway registry s a) (ha : s.state a = initializing)
    (hx : OnChain registry a x) : s.state x = initializing := by
  have hchain : ∀ y z, OnChain registry y z → s.state y = initializing →
      s.state z = initializing := by
    intro y z hz
    induction hz with
    | self _ _ => exact id
    | next hd hz ih =>
      intro hy
      rcases h.closed _ _ hy hd hz.found with rfl | hd
      · exact ih ha
      · exact ih hd
  exact hchain a x hx ha

/-- When the dependencies in front of the first that is not good have been initialized, the chain
meets what is `initializing` or comes back to itself just as the chain of that dependency does. -/
theorem hits_or_loops_iff (hd : firstBad registry a = some d) (ha : s.state a = registered)
    (hsame : SameStuck (s.setState a initializing) s₁) :
    Hits registry s₁ d ∨ Loops registry d ↔ Hits registry s a ∨ Loops registry a := by
  have hstuck : ∀ x, s₁.state x = initializing ↔ x = a ∨ s.state x = initializing :=
    fun x => (hsame x).trans setState_initializing
  have hna : s.state a ≠ initializing := by
    rw [ha]
    decide
  rw [loops_iff hd]
  constructor
  · rintro (⟨x, hx, hst⟩ | hloop)
    · rcases (hstuck x).1 hst with rfl | hst
      · exact .inr (.inl hx)
      · exact .inl ⟨x, .next hd hx, hst⟩
    · exact .inr (.inr hloop)
  · rintro (⟨x, hx, hst⟩ | hx | hloop)
    · rcases (onChain_iff hd).1 hx with rfl | hx
      · exact absurd hst hna
      · exact .inl ⟨x, hx, (hstuck x).2 (.inr hst)⟩
    · exact .inl ⟨a, hx, (hstuck a).2 (.inl rfl)⟩
    · exact .inr hloop

/-- The dependencies in front of the first that is not good have been initialized. -/
structure Led (registry : List (Application α)) (s : LoaderImpl α) (a d : α) (s₁ : LoaderImpl α) :
    Prop where
  first : firstBad registry a = some d
  state : s.state a = registered
  spec : Looped registry (s.setState a initializing) (leading registry a) .info s₁
  same : SameStuck (s.setState a initializing) s₁
  ordered : Ordered registry s₁
  done : ∀ e ∈ leading registry a, s₁.state e = initialized

namespace Led

variable (h : Led registry s a d s₁)
include h

theorem stuck : s₁.state x = initializing ↔ x = a ∨ s.state x = initializing :=
  (h.same x).trans setState_initializing

theorem kept (hx : s.state x = initialized) : s₁.state x = initialized := by
  have hreg : s.state x ≠ registered := by
    rw [hx]
    decide
  rw [(h.spec.toStep.frame_setState h.state hreg).2, hx]

theorem brought (hx : s₁.state x = initialized) : s.state x = initialized ∨
    ∃ y, OnChain registry a y ∧ ∃ e ∈ leading registry y, Reach registry e x := by
  by_cases hr : ∃ e ∈ leading registry a, Reach registry e x
  · exact .inr ⟨a, (onChain_iff h.first).2 (.inl rfl), hr⟩
  · have hsame := h.spec.within x fun e he hx => hr ⟨e, he, hx⟩
    rw [hx, state_setState] at hsame
    split at hsame
    · cases hsame
    · exact .inl hsame.symm

theorem underway (hs : Underway registry s a) : Underway registry s₁ d where
  closed x d' hx hd' hfound := by
    rcases h.stuck.1 hx with rfl | hx
    · exact .inl (Option.some.inj (hd'.symm.trans h.first))
    · rcases hs.closed x d' hx hd' hfound with rfl | hst
      · exact .inr (h.stuck.2 (.inl rfl))
      · exact .inr (h.stuck.2 (.inr hst))
  leading x hx e he := by
    rcases h.stuck.1 hx with rfl | hx
    · exact h.done e he
    · exact h.kept (hs.leading x hx e he)

theorem clear (hclear : Clear registry s a) : Clear registry s₁ d := by
  intro x hx hg hst
  rcases h.stuck.1 hst with rfl | hst
  · exact firstBad_not_good h.first hg
  · exact hclear x (.head (firstBad_spec h.first).2.1 hx) hg hst

/-- The dependency is met again. -/
theorem blocked_met (hs : Underway registry s a) (hst : s₁.state d = initializing) :
    Blocked registry s a cyclic s₁ := by
  have hdfound := h.ordered.found d (by rw [hst]; decide)
  have hchain : OnChain registry d d := .self hdfound (firstBad_spec h.first).1
  have hiff := hits_or_loops_iff h.first h.state h.same
  have hstays : ∀ x, OnChain registry a x → s₁.state x = initializing := by
    intro x hx
    rcases (onChain_iff h.first).1 hx with rfl | hx
    · exact h.stuck.2 (.inl rfl)
    · exact (h.underway hs).stays hst hx
  refine ⟨fun _ => rfl, fun hno => ?_, hstays, fun x hx => ?_, fun x hx => ?_,
    fun x hx => h.brought hx⟩
  · exact absurd (hiff.1 (.inl ⟨d, hchain, hst⟩)) hno
  · rcases h.stuck.1 hx with rfl | hx
    · exact .inr ((onChain_iff h.first).2 (.inl rfl))
    · exact .inl hx
  · exact (h.underway hs).leading x (hstays x hx)

/-- The call for the dependency is blocked, and so is this one. -/
theorem blocked (hstep : Step registry s₁ s₂ r) (hb : Blocked registry s₁ d r s₂) :
    Blocked registry s a r s₂ := by
  have hiff := hits_or_loops_iff h.first h.state h.same
  refine ⟨fun hh => hb.hit (hiff.2 hh), fun hno => hb.miss fun hh => hno (hiff.1 hh),
    fun x hx => ?_, fun x hx => ?_, fun x hx e he => ?_, fun x hx => ?_⟩
  · rcases (onChain_iff h.first).1 hx with rfl | hx
    · have hst : s₁.state x = initializing := h.stuck.2 (.inl rfl)
      rw [hstep.frame x (by rw [hst]; decide), hst]
    · exact hb.stays x hx
  · rcases hb.only x hx with hx | hx
    · rcases h.stuck.1 hx with rfl | hx
      · exact .inr ((onChain_iff h.first).2 (.inl rfl))
      · exact .inl hx
    · exact .inr (.next h.first hx)
  · rcases (onChain_iff h.first).1 hx with rfl | hx
    · have hst := h.done e he
      rw [hstep.frame e (by rw [hst]; decide), hst]
    · exact hb.leading x hx e he
  · rcases hb.brought x hx with hx | ⟨y, hy, hr⟩
    · exact h.brought hx
    · exact .inr ⟨y, .next h.first hy, hr⟩

end Led

/-- A call for what has been asked for changes nothing. -/
theorem initializeService_of_ne (hfuel : 0 < fuel) (hfound : find registry a ≠ none)
    (ha : s.state a ≠ registered) : initializeService registry fuel s a = (.info, s) := by
  obtain ⟨fuel, rfl⟩ := Nat.exists_eq_succ_of_ne_zero (Nat.pos_iff_ne_zero.1 hfuel)
  obtain ⟨app, hfound⟩ := Option.ne_none_iff_exists'.1 hfound
  simp only [initializeService, hfound, if_pos ha]

/-- **A call for what is not good follows the chain.** -/
theorem initializeService_blocked (hfuel : pending registry s < fuel) (ho : Ordered registry s)
    (hb : ¬ Good registry a) (hst : s.state a ≠ initializing) (hclear : Clear registry s a)
    (hs : Underway registry s a) : Blocked registry s a (initializeService registry fuel s a).1
      (initializeService registry fuel s a).2 := by
  induction fuel generalizing s a with
  | zero => exact absurd hfuel (Nat.not_lt_zero _)
  | succ fuel ih =>
    cases hfound : find registry a with
    | none =>
      simp only [initializeService, hfound]
      have hno : ∀ x, ¬ OnChain registry a x := fun x hx => hx.found hfound
      refine ⟨fun hh => ?_, fun _ => rfl, fun x hx => absurd hx (hno x), fun x hx => .inl hx,
        fun x hx => absurd hx (hno x), fun x hx => .inl hx⟩
      rcases hh with ⟨x, hx, -⟩ | ⟨x, -, hx, -⟩
      · exact absurd hx (hno x)
      · exact absurd hx (hno x)
    | some app =>
      have ha : s.state a = registered := by
        by_contra hreg
        exact hb (ho.good (ho.initialized_of hreg hst))
      have hsome : find registry a ≠ none := by
        rw [hfound]
        exact Option.some_ne_none app
      obtain ⟨d, hd⟩ := exists_firstBad hsome hb
      obtain ⟨hbd, -, rest, hsplit⟩ := firstBad_spec hd
      have hlt : pending registry (s.setState a initializing) < fuel := by
        have := pending_setState_lt hfound ha
        omega
      have ho₁ := ho.setState ha hsome
      -- the dependencies in front of the first that is not good
      have hspec := dependencies_spec (fun s a => initializeService_spec (a := a) (s := s))
        (leading registry a) hlt
      obtain ⟨hr, hsame⟩ := dependencies_good (fun s a => initializeService_spec (a := a) (s := s))
        (fun s a => initializeService_good) hlt ho₁ (fun e he => good_of_mem_leading he)
        (fun e he x hx hg hst => by
          rcases setState_initializing.1 hst with rfl | hst
          · exact hb hg
          · have hmem : e ∈ needs registry a := by
              rw [hsplit]
              exact List.mem_append_left _ he
            exact hclear x (.head (mem_needs hmem) hx) hg hst)
      rcases hres : dependencies (initializeService registry fuel) (s.setState a initializing)
        (leading registry a) with ⟨r, s₁⟩
      rw [hres] at hspec hr hsame
      cases hr
      have hled : Led registry s a d s₁ :=
        ⟨hd, ha, hspec, hsame, hspec.ordered ho₁, hspec.info rfl ho₁⟩
      have hloop : dependencies (initializeService registry fuel) (s.setState a initializing)
          app.dependsOn = dependencies (initializeService registry fuel) s₁ (d :: rest) := by
        rw [← needs_eq hfound, hsplit]
        exact dependencies_append hres _
      have hpending := Nat.lt_of_le_of_lt hspec.toStep.pending_le hlt
      simp only [initializeService, hfound, hloop]
      rw [if_neg (not_not.2 ha)]
      by_cases hst₁ : s₁.state d = initializing
      · -- the call for the dependency returns it
        have hne : s₁.state d ≠ registered := by
          rw [hst₁]
          decide
        have hmet := initializeService_of_ne (Nat.zero_lt_of_lt hpending)
          (hled.ordered.found d hne) hne
        simp only [dependencies, hmet, if_pos hst₁]
        exact hled.blocked_met hs hst₁
      · have hcalled := initializeService_spec (a := d) hpending
        have hblocked := ih hpending hled.ordered hbd hst₁ (hled.clear hclear) (hled.underway hs)
        rcases hcall : initializeService registry fuel s₁ d with ⟨r, s₂⟩
        rw [hcall] at hcalled hblocked
        have hr : r = cyclic ∨ r = .null := by
          by_cases hh : Hits registry s₁ d ∨ Loops registry d
          · exact .inl (hblocked.hit hh)
          · exact .inr (hblocked.miss hh)
        have hres₂ := hled.blocked hcalled.toStep hblocked
        rcases hr with rfl | rfl
        · simpa only [dependencies, hcall] using hres₂
        · simpa only [dependencies, hcall] using hres₂

end Loader
