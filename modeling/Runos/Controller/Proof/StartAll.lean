import Runos.Controller.Proof.LoaderChains

/-!
# Which service makes the loader abort

A service that is not good leaves its chain `initializing`, and when this is met again, by itself or
by the chain of a later service, the loader takes it for a cycle (`Aborts`). The calls up to there
have initialized what is good and was asked for on the way (`Brings`, `Loaded`). `startAll_iff`: all
is as it should be when no service makes the loader abort, or a cycle can be reached and the
services that are good have been initialized by then.
-/

namespace Loader

open AppState Outcome Relation

variable {α : Type} [DecidableEq α] {registry : List (Application α)} {s s₁ : LoaderImpl α}
  {x f g : α} {fuel : Nat} {r : Outcome}

/-! ## The services -/

variable (registry) in
/-- Asking for `f` initializes `x`. -/
def Brings (f x : α) : Prop :=
  Good registry f ∧ Reach registry f x ∨
    ∃ y, OnChain registry f y ∧ ∃ e ∈ leading registry y, Reach registry e x

variable (registry) in
/-- The service `g` is on no chain of the services in front of it, but its own chain meets one or
comes back to itself. -/
def Aborts (services : List α) (g : α) : Prop :=
  (∀ f ∈ services, ¬ OnChain registry f g) ∧
    ((∃ f ∈ services, ∃ x, OnChain registry g x ∧ OnChain registry f x) ∨ Loops registry g)

theorem Aborts.not_good {services : List α} (h : Aborts registry services g) :
    ¬ Good registry g := by
  rcases h.2 with ⟨f, -, x, hx, -⟩ | hloop
  · exact hx.not_good
  · exact hloop.not_good

theorem Brings.of_onChain (h : OnChain registry f g) (hg : Brings registry g x) :
    Brings registry f x := by
  rcases hg with ⟨hg, -⟩ | ⟨y, hy, hr⟩
  · exact absurd hg h.not_good_end
  · exact .inr ⟨y, h.trans hy, hr⟩

variable (registry) in
/-- What the calls for `services` have left. -/
structure Loaded (services : List α) (s : LoaderImpl α) : Prop where
  ordered : Ordered registry s
  stuck : ∀ x, s.state x = initializing ↔ ∃ f ∈ services, OnChain registry f x
  inits : ∀ x, s.state x = initialized ↔ ∃ f ∈ services, Brings registry f x

theorem Loaded.init : Loaded registry [] (init : LoaderImpl α) where
  ordered := .init
  stuck _ := iff_of_false nofun nofun
  inits _ := iff_of_false nofun nofun

theorem exists_mem_concat {β : Type} {l : List β} {y : β} {P : β → Prop} :
    (∃ f ∈ l ++ [y], P f) ↔ (∃ f ∈ l, P f) ∨ P y := by
  simp only [List.mem_append, List.mem_singleton, or_and_right, exists_or, exists_eq_left]

namespace Loaded

variable {services : List α} (h : Loaded registry services s)
include h

theorem clear (g : α) : Clear registry s g := by
  intro x _ hg hst
  obtain ⟨f, -, hf⟩ := (h.stuck x).1 hst
  exact hf.not_good_end hg

theorem underway (g : α) : Underway registry s g where
  closed x d hx hd hfound := by
    obtain ⟨f, hf, hfx⟩ := (h.stuck x).1 hx
    refine .inr ((h.stuck d).2 ⟨f, hf, hfx.trans (.next hd (.self hfound ?_))⟩)
    exact (firstBad_spec hd).1
  leading x hx e he := by
    obtain ⟨f, hf, hfx⟩ := (h.stuck x).1 hx
    exact (h.inits e).2 ⟨f, hf, .inr ⟨x, hfx, e, he, .refl⟩⟩

/-- The next service is good. -/
theorem good (hfuel : pending registry s < fuel) (hg : Good registry g) :
    (initializeService registry fuel s g).1 = .info ∧
      Loaded registry (services ++ [g]) (initializeService registry fuel s g).2 := by
  have hspec := initializeService_spec (a := g) hfuel
  obtain ⟨hr, hsame⟩ := initializeService_good hfuel h.ordered hg (h.clear g)
  rcases hres : initializeService registry fuel s g with ⟨r, s₁⟩
  rw [hres] at hspec hr hsame
  cases hr
  have ho := hspec.ordered h.ordered
  have hno : ∀ x, ¬ OnChain registry g x := fun x hx => hx.not_good hg
  have hinit : s₁.state g = initialized := by
    refine ho.initialized_of (hspec.info rfl) fun hst => ?_
    exact h.clear g g .refl hg ((hsame g).1 hst)
  refine ⟨rfl, ho, fun x => ?_, fun x => ?_⟩
  · rw [hsame, h.stuck, exists_mem_concat, or_iff_left (hno x)]
  · rw [exists_mem_concat, ← h.inits]
    constructor
    · intro hx
      by_cases hreach : Reach registry g x
      · exact .inr (.inl ⟨hg, hreach⟩)
      · rw [hspec.within x hreach] at hx
        exact .inl hx
    · rintro (hx | ⟨-, hreach⟩ | ⟨y, hy, -⟩)
      · rw [hspec.frame x (by rw [hx]; decide), hx]
      · exact ho.reach hinit hreach
      · exact absurd hy (hno y)

/-- The next service is `initializing`. -/
theorem met (hst : s.state g = initializing) :
    Loaded registry (services ++ [g]) s ∧ ¬ Aborts registry services g := by
  obtain ⟨f, hf, hfg⟩ := (h.stuck g).1 hst
  refine ⟨⟨h.ordered, fun x => ?_, fun x => ?_⟩, fun ha => ha.1 f hf hfg⟩
  · rw [h.stuck, exists_mem_concat, or_iff_left_of_imp]
    exact fun hx => ⟨f, hf, hfg.trans hx⟩
  · rw [h.inits, exists_mem_concat, or_iff_left_of_imp]
    exact fun hx => ⟨f, hf, hx.of_onChain hfg⟩

/-- The call for the next service is blocked. -/
theorem blocked (hb : ¬ Good registry g) (hst : s.state g ≠ initializing)
    (hcalled : Called registry s g r s₁) (hbl : Blocked registry s g r s₁) :
    Loaded registry (services ++ [g]) s₁ ∧ (Aborts registry services g → r = cyclic) ∧
      (¬ Aborts registry services g → r = .null) := by
  have ho := hcalled.ordered h.ordered
  have hiff : Hits registry s g ∨ Loops registry g ↔ Aborts registry services g := by
    have hoff : ∀ f ∈ services, ¬ OnChain registry f g :=
      fun f hf hfg => hst ((h.stuck g).2 ⟨f, hf, hfg⟩)
    rw [Aborts, and_iff_right hoff]
    refine or_congr_left ⟨?_, ?_⟩
    · rintro ⟨x, hx, hxs⟩
      obtain ⟨f, hf, hfx⟩ := (h.stuck x).1 hxs
      exact ⟨f, hf, x, hx, hfx⟩
    · rintro ⟨f, hf, x, hx, hfx⟩
      exact ⟨x, hx, (h.stuck x).2 ⟨f, hf, hfx⟩⟩
  refine ⟨⟨ho, fun x => ?_, fun x => ?_⟩, fun ha => hbl.hit (hiff.2 ha), fun hno => ?_⟩
  · rw [exists_mem_concat, ← h.stuck]
    constructor
    · exact hbl.only x
    · rintro (hx | hx)
      · rw [hcalled.frame x (by rw [hx]; decide), hx]
      · exact hbl.stays x hx
  · rw [exists_mem_concat, ← h.inits]
    constructor
    · exact fun hx => (hbl.brought x hx).imp_right .inr
    · rintro (hx | ⟨hg, -⟩ | ⟨y, hy, e, he, hreach⟩)
      · rw [hcalled.frame x (by rw [hx]; decide), hx]
      · exact absurd hg hb
      · exact ho.reach (hbl.leading y hy e he) hreach
  · exact hbl.miss fun hh => hno (hiff.1 hh)

/-- **The call for the next service.** -/
theorem next (hfuel : pending registry s < fuel) (g : α) :
    Loaded registry (services ++ [g]) (initializeService registry fuel s g).2 ∧
      ((initializeService registry fuel s g).1 = cyclic ∧ Aborts registry services g ∨
        ((initializeService registry fuel s g).1 = .info ∨
          (initializeService registry fuel s g).1 = .null) ∧ ¬ Aborts registry services g) := by
  by_cases hg : Good registry g
  · obtain ⟨hr, hl⟩ := h.good hfuel hg
    exact ⟨hl, .inr ⟨.inl hr, fun ha => ha.not_good hg⟩⟩
  by_cases hst : s.state g = initializing
  · have hne : s.state g ≠ registered := by
      rw [hst]
      decide
    obtain ⟨hl, hno⟩ := h.met hst
    rw [initializeService_of_ne (Nat.zero_lt_of_lt hfuel) (h.ordered.found g hne) hne]
    exact ⟨hl, .inr ⟨.inl rfl, hno⟩⟩
  · obtain ⟨hl, hcyclic, hnull⟩ := h.blocked hg hst (initializeService_spec hfuel)
      (initializeService_blocked hfuel h.ordered hg hst (h.clear g) (h.underway g))
    refine ⟨hl, ?_⟩
    by_cases ha : Aborts registry services g
    · exact .inl ⟨hcyclic ha, ha⟩
    · exact .inr ⟨.inr (hnull ha), ha⟩

end Loaded

variable (registry) in
/-- What the calls for `services` come to after those for `pre`: all return, or the call for the
first service that aborts does not. -/
inductive Loading (pre services : List α) : Outcome → LoaderImpl α → Prop
  | all {s : LoaderImpl α} : Loaded registry (pre ++ services) s →
      (∀ l₁ g l₂, services = l₁ ++ g :: l₂ → ¬ Aborts registry (pre ++ l₁) g) →
      Loading pre services .info s
  | abort {s : LoaderImpl α} {l₁ l₂ : List α} {g : α} : services = l₁ ++ g :: l₂ →
      Aborts registry (pre ++ l₁) g → Loaded registry (pre ++ (l₁ ++ [g])) s →
      (∀ m₁ x m₂, services = m₁ ++ x :: m₂ → Aborts registry (pre ++ m₁) x →
        l₁ ++ [g] <+: m₁ ++ [x]) → Loading pre services cyclic s

/-- One more service in front, for which the call returns. -/
theorem Loading.cons {pre services : List α} (hno : ¬ Aborts registry pre g)
    (h : Loading registry (pre ++ [g]) services r s) :
    Loading registry pre (g :: services) r s := by
  have hsplit : ∀ m₁ x m₂, g :: services = m₁ ++ x :: m₂ → Aborts registry (pre ++ m₁) x →
      ∃ m, m₁ = g :: m ∧ services = m ++ x :: m₂ ∧ Aborts registry (pre ++ [g] ++ m) x := by
    intro m₁ x m₂ heq ha
    cases m₁ with
    | nil =>
      obtain ⟨rfl, -⟩ := List.cons.inj heq
      rw [List.append_nil] at ha
      exact absurd ha hno
    | cons y m =>
      obtain ⟨rfl, htail⟩ := List.cons.inj heq
      exact ⟨m, rfl, htail, by simpa using ha⟩
  cases h with
  | all hl hnone =>
    refine .all (by simpa using hl) fun m₁ x m₂ heq ha => ?_
    obtain ⟨m, -, heq', ha'⟩ := hsplit m₁ x m₂ heq ha
    exact hnone m x m₂ heq' ha'
  | @abort _ l₁ l₂ y heq ha hl hfirst =>
    have hfront : g :: services = (g :: l₁) ++ y :: l₂ := by rw [heq]; rfl
    refine .abort hfront (by simpa using ha) (by simpa using hl) ?_
    intro m₁ x m₂ heq' ha'
    obtain ⟨m, rfl, heq', ha'⟩ := hsplit m₁ x m₂ heq' ha'
    exact (List.prefix_cons_inj g).2 (hfirst m x m₂ heq' ha')

theorem initializeAll_spec (pre services : List α) (hfuel : pending registry s < fuel)
    (h : Loaded registry pre s) : Loading registry pre services
      (initializeAll registry fuel s services).1 (initializeAll registry fuel s services).2 := by
  induction services generalizing s pre with
  | nil =>
    refine .all (by simpa [initializeAll] using h) fun l₁ g l₂ heq => ?_
    cases l₁ <;> cases heq
  | cons g services ih =>
    have hspec := initializeService_spec (a := g) hfuel
    obtain ⟨hl, hcase⟩ := h.next hfuel g
    unfold initializeAll
    rcases hres : initializeService registry fuel s g with ⟨r, s₁⟩
    rw [hres] at hspec hl hcase
    have hrest := ih (pre ++ [g]) (Nat.lt_of_le_of_lt hspec.toStep.pending_le hfuel) hl
    rcases hcase with ⟨hr, ha⟩ | ⟨hr | hr, hno⟩
    · cases hr
      have hfront : g :: services = [] ++ g :: services := rfl
      refine .abort hfront (by simpa using ha) hl fun m₁ x m₂ heq _ => ?_
      cases m₁ with
      | nil =>
        obtain ⟨rfl, -⟩ := List.cons.inj heq
        exact List.prefix_rfl
      | cons y m₁ =>
        obtain ⟨rfl, -⟩ := List.cons.inj heq
        exact ⟨m₁ ++ [x], rfl⟩
    · cases hr
      exact hrest.cons hno
    · cases hr
      exact hrest.cons hno

/-! ## Starting -/

variable (registry) in
/-- What the start of the services is to come to. -/
structure Right (services : List α) (r : Outcome) (s : LoaderImpl α) : Prop where
  ends : r = .info ∨ r = cyclic
  once : s.inits.Nodup
  before : ∀ l₁ a l₂, s.inits = l₁ ++ a :: l₂ → ∀ d, Dep registry a d → d ∈ l₁
  ready : ∀ a ∈ services, Good registry a → a ∈ s.inits ∧ (r = .info → s.state a = started)
  reachable : r = cyclic → ∃ a ∈ services, ¬ Acyclic registry a

omit [DecidableEq α] in
theorem pending_init (registry : List (Application α)) :
    pending registry init < registry.length + 1 :=
  Nat.lt_succ_of_le List.countP_le_length

/-- **The start of the services**: as it should be, exactly when no service makes the loader abort,
or a cycle can be reached and the good services behind have been initialized by then. -/
theorem startAll_iff (registry : List (Application α)) (services : List α) :
    Right registry services (startAll registry services).1 (startAll registry services).2 ↔
      ∀ l₁ g l₂, services = l₁ ++ g :: l₂ → Aborts registry l₁ g →
        (∃ a ∈ services, ¬ Acyclic registry a) ∧
          ∀ a ∈ l₂, Good registry a → ∃ f ∈ l₁ ++ [g], Brings registry f a := by
  have hload := initializeAll_spec [] services (pending_init registry) .init
  unfold startAll
  rcases hres : initializeAll registry (registry.length + 1) init services with ⟨r, s⟩
  rw [hres] at hload
  cases hload with
  | all hl hnone =>
    refine iff_of_true ⟨.inl rfl, hl.ordered.nodup, hl.ordered.before, fun a ha hg => ?_, nofun⟩
      fun l₁ g l₂ heq ha => absurd ha (hnone l₁ g l₂ heq)
    have hst := (hl.inits a).2 ⟨a, ha, .inl ⟨hg, .refl⟩⟩
    exact ⟨(hl.ordered.mem a).2 hst, fun _ => if_pos hst⟩
  | @abort _ l₁ l₂ g heq ha hl hfirst =>
    constructor
    · intro h m₁ x m₂ heq' ha'
      refine ⟨h.reachable rfl, fun a hm hg => ?_⟩
      have hmem : a ∈ services := by
        rw [heq']
        exact List.mem_append_right _ (List.mem_cons_of_mem _ hm)
      obtain ⟨f, hf, hbrings⟩ := (hl.inits a).1 ((hl.ordered.mem a).1 (h.ready a hmem hg).1)
      exact ⟨f, (hfirst m₁ x m₂ heq' ha').subset hf, hbrings⟩
    · intro h
      obtain ⟨hcycle, hbehind⟩ := h l₁ g l₂ heq ha
      refine ⟨.inr rfl, hl.ordered.nodup, hl.ordered.before, fun a hm hg => ⟨?_, nofun⟩,
        fun _ => hcycle⟩
      refine (hl.ordered.mem a).2 ((hl.inits a).2 ?_)
      rw [List.nil_append]
      rw [heq] at hm
      rcases List.mem_append.1 hm with hm | hm
      · exact ⟨a, List.mem_append_left [g] hm, .inl ⟨hg, .refl⟩⟩
      · rcases List.mem_cons.1 hm with rfl | hm
        · exact absurd hg ha.not_good
        · exact hbehind a hm hg

/-- The services are 0 and 1; 0 depends on 2, which is not registered, and 1 on 0. -/
def missing : List (Application Nat) := [⟨0, [2]⟩, ⟨1, [0]⟩]

theorem dep_missing {a d : Nat} (h : Dep missing a d) : a = 0 ∧ d = 2 ∨ a = 1 ∧ d = 0 := by
  obtain ⟨app, hfound, hd⟩ := h
  obtain ⟨hm, rfl⟩ := find_spec hfound
  rcases List.mem_cons.1 hm with rfl | hm
  · exact .inl ⟨rfl, List.mem_singleton.1 hd⟩
  · obtain rfl := List.mem_singleton.1 hm
    exact .inr ⟨rfl, List.mem_singleton.1 hd⟩

/-- The missing application is reported as a cycle. -/
theorem startAll_missing : ¬ ∀ (registry : List (Application Nat)) (services : List Nat),
    Right registry services (startAll registry services).1 (startAll registry services).2 := by
  intro hall
  obtain ⟨a, -, hcyc⟩ := (hall missing [0, 1]).reachable rfl
  refine hcyc fun x _ hx => ?_
  -- from 1 to 0 and from 0 to 2
  have hstep : ∀ a d, Dep missing a d →
      (if d = 2 then 0 else d + 1) < if a = 2 then 0 else a + 1 := by
    intro a d hd
    rcases dep_missing hd with ⟨rfl, rfl⟩ | ⟨rfl, rfl⟩ <;> decide
  have hlt : ∀ b, TransGen (Dep missing) x b →
      (if b = 2 then 0 else b + 1) < if x = 2 then 0 else x + 1 := by
    intro b hb
    induction hb with
    | single hd => exact hstep _ _ hd
    | tail _ hd ih => exact Nat.lt_trans (hstep _ _ hd) ih
  exact absurd (hlt x hx) (Nat.lt_irrefl _)

end Loader
