import Mathlib.Logic.Relation
import Runos.Lib.Lists
import Runos.Controller.Loader

/-!
# The order of initialization

`init` is called at most once for an application, and after all of its dependencies (`Ordered`),
whatever happens. So what is initialized is good (`Good`): all it needs is registered, and it can
reach no cycle (`Ordered.good`). Every call ends, since an application is asked for once
(`pending`), and leaves what had been asked for as it was (`initializeService_spec`).
-/

namespace Loader

open AppState Outcome Relation

variable {α : Type} [DecidableEq α] {registry : List (Application α)} {s s' s₁ s₂ : LoaderImpl α}
  {a d x u : α} {fuel : Nat} {r r' : Outcome} {app : Application α} {ds : List α}

/-! ## Dependencies -/

variable (registry) in
/-- `a` depends on `d`. -/
def Dep (a d : α) : Prop := ∃ app, find registry a = some app ∧ d ∈ app.dependsOn

variable (registry) in
abbrev Reach : α → α → Prop := ReflTransGen (Dep registry)

variable (registry) in
/-- No cycle can be reached from `a`. -/
def Acyclic (a : α) : Prop := ∀ x, Reach registry a x → ¬ TransGen (Dep registry) x x

variable (registry) in
/-- All that `a` needs is registered, and there is no cycle in it. -/
def Good (a : α) : Prop := (∀ x, Reach registry a x → find registry x ≠ none) ∧ Acyclic registry a

theorem Acyclic.reach (h : Acyclic registry a) (hd : Reach registry a d) : Acyclic registry d :=
  fun x hx => h x (hd.trans hx)

theorem Good.reach (h : Good registry a) (hd : Reach registry a d) : Good registry d :=
  ⟨fun x hx => h.1 x (hd.trans hx), h.2.reach hd⟩

theorem Good.not_reach (h : Good registry a) (hd : Dep registry a d) : ¬ Reach registry d a :=
  fun hr => h.2 a .refl (.head' hd hr)

/-- An application whose dependencies are good is good. -/
theorem Good.of_deps (hfound : find registry a = some app)
    (h : ∀ d ∈ app.dependsOn, Good registry d) : Good registry a := by
  have hdep : ∀ d, Dep registry a d → Good registry d := by
    intro d hd
    obtain ⟨app', hfound', hm⟩ := hd
    cases hfound.symm.trans hfound'
    exact h d hm
  constructor
  · intro x hx
    rcases hx.cases_head with rfl | ⟨d, hd, hx⟩
    · rw [hfound]
      exact Option.some_ne_none app
    · exact (hdep d hd).1 x hx
  · intro x hx hcycle
    rcases hx.cases_head with rfl | ⟨d, hd, hx⟩
    · obtain ⟨d, hd, hr⟩ := TransGen.head'_iff.1 hcycle
      exact (hdep d hd).2 a hr hcycle
    · exact (hdep d hd).2 x hx hcycle

/-! ## States -/

variable (registry) in
/-- What has been initialized: once, and after its dependencies. -/
structure Ordered (s : LoaderImpl α) : Prop where
  nodup : s.inits.Nodup
  mem : ∀ x, x ∈ s.inits ↔ s.state x = initialized
  before : ∀ l₁ a l₂, s.inits = l₁ ++ a :: l₂ → ∀ d, Dep registry a d → d ∈ l₁
  found : ∀ x, s.state x ≠ registered → find registry x ≠ none
  notStarted : ∀ x, s.state x ≠ started

theorem Ordered.init : Ordered registry (init : LoaderImpl α) where
  nodup := .nil
  mem _ := iff_of_false nofun nofun
  before l₁ _ _ h := by cases l₁ <;> cases h
  found _ h := absurd rfl h
  notStarted _ := nofun

/-- With an application, all it needs is initialized. -/
theorem Ordered.reach (h : Ordered registry s) (ha : s.state a = initialized)
    (hx : Reach registry a x) : s.state x = initialized := by
  induction hx with
  | refl => exact ha
  | tail _ hdep ih =>
    obtain ⟨l₁, l₂, heq⟩ := List.append_of_mem ((h.mem _).2 ih)
    refine (h.mem _).1 ?_
    rw [heq]
    exact List.mem_append_left _ (h.before l₁ _ l₂ heq _ hdep)

/-- What is needed was initialized before. -/
theorem Ordered.before_of_transGen (h : Ordered registry s) {l₁ l₂ : List α}
    (heq : s.inits = l₁ ++ a :: l₂) (hx : TransGen (Dep registry) a x) : x ∈ l₁ := by
  induction hx with
  | single hdep => exact h.before l₁ a l₂ heq _ hdep
  | tail _ hdep ih =>
    obtain ⟨l, l', rfl⟩ := List.append_of_mem ih
    refine List.mem_append_left _ (h.before l _ (l' ++ a :: l₂) ?_ _ hdep)
    rw [heq, List.append_assoc, List.cons_append]

/-- **What is initialized is good.** -/
theorem Ordered.good (h : Ordered registry s) (ha : s.state a = initialized) :
    Good registry a := by
  refine ⟨fun x hx => h.found x ?_, fun x hx hcycle => ?_⟩
  · rw [h.reach ha hx]
    nofun
  · obtain ⟨l₁, l₂, heq⟩ := List.append_of_mem ((h.mem x).2 (h.reach ha hx))
    have hmem := h.before_of_transGen heq hcycle
    have hnodup := h.nodup
    rw [heq] at hnodup
    exact (List.nodup_append.1 hnodup).2.2 x hmem x List.mem_cons_self rfl

theorem state_setState {st : AppState} :
    (s.setState a st).state x = if x = a then st else s.state x := Function.update_apply ..

theorem state_setState_of_ne {st : AppState} (hx : x ≠ a) :
    (s.setState a st).state x = s.state x := by rw [state_setState, if_neg hx]

theorem state_setState_self {st : AppState} : (s.setState a st).state a = st := by
  rw [state_setState, if_pos rfl]

/-- An application that has been asked for and does not stay `initializing` is initialized. -/
theorem Ordered.initialized_of (h : Ordered registry s) (hreg : s.state a ≠ registered)
    (hni : s.state a ≠ initializing) : s.state a = initialized := by
  cases hst : s.state a with
  | registered => exact absurd hst hreg
  | initializing => exact absurd hst hni
  | initialized => rfl
  | started => exact absurd hst (h.notStarted a)

theorem Ordered.setState (h : Ordered registry s) (ha : s.state a = registered)
    (hfound : find registry a ≠ none) : Ordered registry (s.setState a initializing) where
  nodup := h.nodup
  mem x := by
    rw [state_setState]
    split
    · rename_i heq
      subst heq
      refine iff_of_false (fun hx => ?_) nofun
      rw [(h.mem _).1 hx] at ha
      cases ha
    · exact h.mem x
  before := h.before
  found x hx := by
    rw [state_setState] at hx
    split at hx
    · rename_i heq
      rwa [heq]
    · exact h.found x hx
  notStarted x := by
    rw [state_setState]
    split
    · nofun
    · exact h.notStarted x

/-- `init` is called after the dependencies. -/
theorem Ordered.initApp (h : Ordered registry s) (ha : s.state a = initializing)
    (hdeps : ∀ d, Dep registry a d → s.state d = initialized) : Ordered registry (s.initApp a) where
  nodup := by
    have hnot : a ∉ s.inits := by
      intro hm
      rw [(h.mem a).1 hm] at ha
      cases ha
    exact List.nodup_append.2 ⟨h.nodup, List.pairwise_singleton _ a, fun x hx y hy heq =>
      hnot (by rwa [← List.mem_singleton.1 hy, ← heq])⟩
  mem x := by
    show x ∈ s.inits ++ [a] ↔ _
    rw [LoaderImpl.initApp, state_setState, List.mem_append, List.mem_singleton]
    split
    · rename_i heq
      exact iff_of_true (.inr heq) rfl
    · rename_i hne
      rw [or_iff_left hne]
      exact h.mem x
  before l₁ b l₂ heq d hd := by
    have heq' : s.inits ++ [a] = l₁ ++ b :: l₂ := heq
    have hlast : b = a → d ∈ s.inits := by
      rintro rfl
      exact (h.mem d).2 (hdeps d hd)
    rcases List.append_eq_append_iff.1 heq' with ⟨l, rfl, hl⟩ | ⟨l, hl₁, hl⟩
    · refine List.mem_append_left _ (hlast ?_)
      cases l with
      | nil => exact (List.cons.inj hl).1.symm
      | cons y l => exact absurd (congrArg List.length hl) (by simp)
    · cases l with
      | nil =>
        rw [List.append_nil] at hl₁
        exact hl₁ ▸ hlast (List.cons.inj hl).1
      | cons y l =>
        obtain ⟨rfl, -⟩ := List.cons.inj hl
        exact h.before l₁ _ l hl₁ d hd
  found x hx := by
    rw [LoaderImpl.initApp, state_setState] at hx
    split at hx
    · rename_i heq
      rw [heq]
      exact h.found a (by rw [ha]; nofun)
    · exact h.found x hx
  notStarted x := by
    rw [LoaderImpl.initApp, state_setState]
    split
    · nofun
    · exact h.notStarted x

/-! ## Fuel -/

variable (registry) in
/-- The applications that have not been asked for. -/
def pending (s : LoaderImpl α) : Nat :=
  registry.countP fun app => s.state app.provides = registered

omit [DecidableEq α] in
theorem pending_le (h : ∀ x, s'.state x = registered → s.state x = registered) :
    pending registry s' ≤ pending registry s :=
  List.countP_mono_left fun _ _ hx => decide_eq_true (h _ (of_decide_eq_true hx))

theorem find_spec (h : find registry a = some app) : app ∈ registry ∧ app.provides = a :=
  ⟨List.mem_of_find?_eq_some h, by simpa using List.find?_some h⟩

/-- An application is asked for once. -/
theorem pending_setState_lt (hfound : find registry a = some app) (ha : s.state a = registered) :
    pending registry (s.setState a initializing) < pending registry s := by
  obtain ⟨hm, rfl⟩ := find_spec hfound
  refine List.countP_lt (fun x _ hx => ?_) hm (decide_eq_true ha) ?_
  · have hx' := of_decide_eq_true hx
    rw [state_setState] at hx'
    split at hx'
    · cases hx'
    · exact decide_eq_true hx'
  · rw [state_setState_self]
    nofun

/-! ## What a call leaves -/

variable (registry) in
/-- What holds of any call: only applications that had not been asked for change. -/
structure Step (s s' : LoaderImpl α) (r : Outcome) : Prop where
  returns : r ≠ outOfFuel
  ordered : Ordered registry s → Ordered registry s'
  frame : ∀ x, s.state x ≠ registered → s'.state x = s.state x

theorem Step.refl (s : LoaderImpl α) (h : r ≠ outOfFuel) : Step registry s s r :=
  ⟨h, id, fun _ _ => rfl⟩

theorem Step.trans (h : Step registry s s₁ r) (h' : Step registry s₁ s₂ r') :
    Step registry s s₂ r' where
  returns := h'.returns
  ordered ho := h'.ordered (h.ordered ho)
  frame x hx := by
    have heq := h.frame x hx
    rw [h'.frame x (by rwa [heq]), heq]

theorem Step.pending_le (h : Step registry s s' r) : pending registry s' ≤ pending registry s :=
  Loader.pending_le fun x hx => by
    by_contra hne
    rw [h.frame x hne] at hx
    exact hne hx

variable (registry) in
/-- What holds of a call of `initializeService`. -/
structure Called (s : LoaderImpl α) (a : α) (r : Outcome) (s' : LoaderImpl α) : Prop
    extends Step registry s s' r where
  info : r = .info → s'.state a ≠ registered
  within : ∀ x, ¬ Reach registry a x → s'.state x = s.state x

variable (registry) in
/-- What holds of the loop over dependencies. -/
structure Looped (s : LoaderImpl α) (ds : List α) (r : Outcome) (s' : LoaderImpl α) : Prop
    extends Step registry s s' r where
  info : r = .info → Ordered registry s → ∀ d ∈ ds, s'.state d = initialized
  within : ∀ x, (∀ d ∈ ds, ¬ Reach registry d x) → s'.state x = s.state x

theorem dependencies_spec {call : LoaderImpl α → α → Outcome × LoaderImpl α}
    (hcall : ∀ s a, pending registry s < fuel → Called registry s a (call s a).1 (call s a).2)
    (ds : List α) (hfuel : pending registry s < fuel) :
    Looped registry s ds (dependencies call s ds).1 (dependencies call s ds).2 := by
  induction ds generalizing s with
  | nil => exact ⟨.refl s nofun, fun _ _ => nofun, fun _ _ => rfl⟩
  | cons d ds ih =>
    have hd := hcall s d hfuel
    have hwithin : ∀ x, (∀ y ∈ d :: ds, ¬ Reach registry y x) →
        (call s d).2.state x = s.state x := fun x hx => hd.within x (hx d List.mem_cons_self)
    unfold dependencies
    rcases hres : call s d with ⟨r, s₁⟩
    rw [hres] at hd hwithin
    cases r with
    | info =>
      simp only
      split
      · exact ⟨⟨nofun, hd.ordered, hd.frame⟩, nofun, hwithin⟩
      · rename_i hni
        have hrest := ih (s := s₁) (Nat.lt_of_le_of_lt hd.toStep.pending_le hfuel)
        refine ⟨hd.toStep.trans hrest.toStep, fun hr ho x hx => ?_, fun x hx => ?_⟩
        · rcases List.mem_cons.1 hx with rfl | hx
          · have hreg := hd.info rfl
            rw [hrest.frame x hreg]
            exact (hd.ordered ho).initialized_of hreg hni
          · exact hrest.info hr (hd.ordered ho) x hx
        · rw [hrest.within x fun y hy => hx y (List.mem_cons_of_mem _ hy)]
          exact hwithin x hx
    | null => exact ⟨hd.toStep, nofun, hwithin⟩
    | cyclic => exact ⟨hd.toStep, nofun, hwithin⟩
    | outOfFuel => exact absurd rfl hd.returns

/-- What a call asks for on behalf of `a` does not change what had been asked for before `a`. -/
theorem Step.frame_setState (h : Step registry (s.setState a initializing) s₂ r)
    (ha : s.state a = registered) (hx : s.state x ≠ registered) :
    x ≠ a ∧ s₂.state x = s.state x := by
  have hxa : x ≠ a := by
    rintro rfl
    exact hx ha
  have hold : (s.setState a initializing).state x = s.state x := state_setState_of_ne hxa
  exact ⟨hxa, by rw [h.frame x (by rwa [hold]), hold]⟩

/-- What is under way stays so. -/
theorem Step.state_setState (h : Step registry (s.setState a initializing) s₂ r) :
    s₂.state a = initializing := by
  have hstart : (s.setState a initializing).state a = initializing := state_setState_self
  rw [h.frame a (by rw [hstart]; nofun), hstart]

/-- Only what `a` needs changes. -/
theorem Looped.within_setState (hfound : find registry a = some app)
    (h : Looped registry (s.setState a initializing) app.dependsOn r s₂)
    (hx : ¬ Reach registry a x) : x ≠ a ∧ s₂.state x = s.state x := by
  have hxa : x ≠ a := by
    rintro rfl
    exact hx .refl
  refine ⟨hxa, ?_⟩
  rw [h.within x fun d hd hr => hx (.head ⟨app, hfound, hd⟩ hr)]
  exact state_setState_of_ne hxa

/-- After the dependencies, the application is initialized. -/
theorem Looped.called (hfound : find registry a = some app) (ha : s.state a = registered)
    (h : Looped registry (s.setState a initializing) app.dependsOn r s₂) (hr : r = .info) :
    Called registry s a .info (s₂.initApp a) := by
  subst hr
  refine ⟨⟨nofun, fun ho => ?_, fun x hx => ?_⟩, fun _ => ?_, fun x hx => ?_⟩
  · have ho₁ := ho.setState ha (by rw [hfound]; nofun)
    refine (h.ordered ho₁).initApp h.toStep.state_setState fun d hd => ?_
    obtain ⟨app', happ', hm⟩ := hd
    cases hfound.symm.trans happ'
    exact h.info rfl ho₁ d hm
  · obtain ⟨hxa, hold⟩ := h.toStep.frame_setState ha hx
    exact (state_setState_of_ne hxa).trans hold
  · rw [LoaderImpl.initApp, state_setState_self]
    nofun
  · obtain ⟨hxa, hold⟩ := h.within_setState hfound hx
    exact (state_setState_of_ne hxa).trans hold

/-- A dependency was not there, or was met again: the application stays `initializing`. -/
theorem Looped.called_failed (hfound : find registry a = some app) (ha : s.state a = registered)
    (h : Looped registry (s.setState a initializing) app.dependsOn r s₂) (hr : r ≠ .info) :
    Called registry s a r s₂ := by
  refine ⟨⟨h.returns, fun ho => ?_, fun x hx => ?_⟩, fun hinfo => absurd hinfo hr, fun x hx => ?_⟩
  · exact h.ordered (ho.setState ha (by rw [hfound]; nofun))
  · exact (h.toStep.frame_setState ha hx).2
  · exact (h.within_setState hfound hx).2

/-- **What holds of any call**, when there is fuel for all applications. -/
theorem initializeService_spec (hfuel : pending registry s < fuel) :
    Called registry s a (initializeService registry fuel s a).1
      (initializeService registry fuel s a).2 := by
  induction fuel generalizing s a with
  | zero => exact absurd hfuel (Nat.not_lt_zero _)
  | succ fuel ih =>
    unfold initializeService
    cases hfound : find registry a with
    | none => exact ⟨.refl s nofun, nofun, fun _ _ => rfl⟩
    | some app =>
      simp only
      split
      · rename_i hreg
        exact ⟨.refl s nofun, fun _ => hreg, fun _ _ => rfl⟩
      · rename_i hreg
        have ha : s.state a = registered := Decidable.not_not.1 hreg
        have hlt := pending_setState_lt hfound ha
        have hdeps := dependencies_spec (fun s a hlt => ih hlt) app.dependsOn
          (show pending registry (s.setState a initializing) < fuel by omega)
        rcases hres : dependencies (initializeService registry fuel) (s.setState a initializing)
          app.dependsOn with ⟨r, s₂⟩
        rw [hres] at hdeps
        cases r with
        | info => exact hdeps.called hfound ha rfl
        | null => exact hdeps.called_failed hfound ha nofun
        | cyclic => exact hdeps.called_failed hfound ha nofun
        | outOfFuel => exact absurd rfl hdeps.returns

end Loader
