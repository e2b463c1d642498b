import Mathlib.Data.List.Infix
import Runos.Lib.Majority

/-!
# Logs that come from leaders

The general part of the argument that a replicated log is safe. A log is a list of entries, each
with a term. `Led t l` says that the leader of term `t` had the log `l` at some time; the logs of
one leader form a chain (`Chain`). A log is `Sourced` when each of its entries, with everything
below it, is in a log of the leader of the entry's term.

* `matching`: sourced logs that agree in the term at an index agree up to that index.
* `upToDate_carries`: a candidate whose log is no shorter and ends in no earlier term than a
  voter's has what the voter has, or some leader between has lost it.
* `complete`: what a majority held in term `T`, every leader of a later term has.
* `Committed.comparable`: any two committed logs are prefixes of one another.
-/

namespace LeaderLogs

open Majority

variable {ε ι : Type} (term : ε → Nat) (Led : Nat → List ε → Prop)

/-- The term of the last entry, `0` for the empty log. -/
def lastTerm (l : List ε) : Nat := (l.getLast?.map term).getD 0

/-- The logs of one term's leader are prefixes of one another. -/
def Chain : Prop := ∀ t l l', Led t l → Led t l' → l <+: l' ∨ l' <+: l

/-- Every entry, with what is below it, comes from a log of the leader of its term. -/
def Sourced (l : List ε) : Prop :=
  ∀ k e, l[k]? = some e → ∃ l', Led (term e) l' ∧ l.take (k + 1) <+: l'

/-- Terms never decrease along the log. -/
def Ordered (l : List ε) : Prop := l.Pairwise (term · ≤ term ·)

variable {term Led} {Led' : Nat → List ε → Prop} {l l' lv lc P : List ε} {T : Nat}

/-! ## Sourced logs -/

theorem Sourced.nil : Sourced term Led [] := fun k e h => by simp at h

theorem Sourced.mono (h : Sourced term Led l) (hm : ∀ t l, Led t l → Led' t l) :
    Sourced term Led' l := fun k e hk =>
  let ⟨l', h1, h2⟩ := h k e hk
  ⟨l', hm _ _ h1, h2⟩

/-- The leader of a term adds an entry of that term. -/
theorem Sourced.snoc {e : ε} (h : Sourced term Led l) (he : Led (term e) (l ++ [e])) :
    Sourced term Led (l ++ [e]) := by
  intro k x hx
  rcases Nat.lt_or_ge k l.length with hk | hk
  · rw [List.getElem?_append_left hk] at hx
    obtain ⟨l', h1, h2⟩ := h k x hx
    exact ⟨l', h1, by rwa [List.take_append_of_le_length (by omega)]⟩
  · rw [List.getElem?_append_right hk] at hx
    have hk0 : k - l.length = 0 := by
      have := (List.getElem?_eq_some_iff.1 hx).1
      simp at this; omega
    simp only [hk0, List.getElem?_cons_zero, Option.some.injEq] at hx
    subst hx
    exact ⟨_, he, List.take_prefix _ _⟩

/-- The last entry of a sourced log: the whole log is in a log of its term's leader. -/
theorem Sourced.last (h : Sourced term Led l) (hl : l ≠ []) :
    ∃ l', Led (lastTerm term l) l' ∧ l <+: l' := by
  have hpos := List.length_pos_iff.2 hl
  obtain ⟨l', h1, h2⟩ := h (l.length - 1) (l.getLast hl)
    (by rw [← List.getLast?_eq_getElem?, List.getLast?_eq_getLast_of_ne_nil hl])
  refine ⟨l', ?_, ?_⟩
  · simpa [lastTerm, List.getLast?_eq_getLast_of_ne_nil hl] using h1
  · rwa [List.take_of_length_le (by omega)] at h2

/-- **Log matching** for sourced logs. -/
theorem matching (hc : Chain Led) {l₁ l₂ : List ε} (h₁ : Sourced term Led l₁)
    (h₂ : Sourced term Led l₂) {k : Nat} {e₁ e₂ : ε} (g₁ : l₁[k]? = some e₁)
    (g₂ : l₂[k]? = some e₂) (ht : term e₁ = term e₂) : l₁.take (k + 1) = l₂.take (k + 1) := by
  obtain ⟨m₁, hm₁, hp₁⟩ := h₁ k e₁ g₁
  obtain ⟨m₂, hm₂, hp₂⟩ := h₂ k e₂ g₂
  have hk₁ := (List.getElem?_eq_some_iff.1 g₁).1
  have hk₂ := (List.getElem?_eq_some_iff.1 g₂).1
  have hlen : (l₁.take (k + 1)).length = (l₂.take (k + 1)).length := by
    rw [List.length_take, List.length_take]; omega
  rw [← ht] at hm₂
  rcases hc _ _ _ hm₁ hm₂ with h | h
  · exact (List.prefix_of_prefix_length_le (hp₁.trans h) hp₂ hlen.le).eq_of_length hlen
  · exact (List.prefix_of_prefix_length_le hp₁ (hp₂.trans h) hlen.le).eq_of_length hlen

/-! ## Ordered logs -/

theorem Ordered.le (h : Ordered term l) {i j : Nat} {a b : ε} (ha : l[i]? = some a)
    (hb : l[j]? = some b) (hij : i ≤ j) : term a ≤ term b := by
  rcases Nat.lt_or_eq_of_le hij with hlt | rfl
  · obtain ⟨hi, rfl⟩ := List.getElem?_eq_some_iff.1 ha
    obtain ⟨hj, rfl⟩ := List.getElem?_eq_some_iff.1 hb
    exact List.pairwise_iff_getElem.1 h i j hi hj hlt
  · rw [ha] at hb
    rw [Option.some.inj hb]

/-- The last entry of a prefix is in the log. -/
theorem getElem?_of_prefix (term : ε → Nat) (hP : P ≠ []) (hp : P <+: l) :
    ∃ e, l[P.length - 1]? = some e ∧ term e = lastTerm term P := by
  have hpos := List.length_pos_iff.2 hP
  refine ⟨P.getLast hP, ?_, by simp [lastTerm, List.getLast?_eq_getLast_of_ne_nil hP]⟩
  have hlt : P.length - 1 < P.length := by omega
  rw [List.getLast_eq_getElem hP, hp.getElem hlt]
  exact List.getElem?_eq_getElem _

theorem Ordered.lastTerm_le (h : Ordered term l) (hP : P ≠ []) (hp : P <+: l) :
    lastTerm term P ≤ lastTerm term l := by
  obtain ⟨e, he, ht⟩ := getElem?_of_prefix term hP hp
  have hl : l ≠ [] := by rintro rfl; exact hP (List.prefix_nil.1 hp)
  obtain ⟨e', he', ht'⟩ := getElem?_of_prefix term hl (List.prefix_refl l)
  rw [← ht, ← ht']
  exact h.le he he' (by have := hp.length_le; omega)

/-! ## Up-to-date logs -/

/-- A log no shorter than the voter's that ends in no earlier term has every prefix of the voter's
log, or comes from the log of a later leader that has not. -/
theorem upToDate_carries (hc : Chain Led) (hv : Sourced term Led lv) (hcd : Sourced term Led lc)
    (ho : Ordered term lv) (hP : P ≠ []) (hp : P <+: lv) (hlen : lv.length ≤ lc.length)
    (hterm : lastTerm term lv ≤ lastTerm term lc) :
    P <+: lc ∨ lastTerm term P < lastTerm term lc ∧
      ∃ l', Led (lastTerm term lc) l' ∧ ¬ P <+: l' := by
  have hpl := hp.length_le
  have hne : lc ≠ [] := by
    rintro rfl
    have := List.length_pos_iff.2 hP
    simp at hlen; subst hlen
    exact hP (List.prefix_nil.1 hp)
  obtain ⟨L, hL, hlcL⟩ := hcd.last hne
  have hle := (ho.lastTerm_le hP hp).trans hterm
  by_cases hPL : P <+: L
  · exact .inl (List.prefix_of_prefix_length_le hPL hlcL (by omega))
  refine .inr ⟨lt_of_le_of_ne hle fun heq => hPL ?_, L, hL, hPL⟩
  -- equal last terms: both logs come from one leader's chain
  obtain ⟨e, he, ht⟩ := getElem?_of_prefix term hP hp
  obtain ⟨M, hM, hPM⟩ := hv _ e he
  have hpos := List.length_pos_iff.2 hP
  rw [show P.length - 1 + 1 = P.length by omega, ← List.prefix_iff_eq_take.1 hp] at hPM
  rw [ht, heq] at hM
  rcases hc _ _ _ hM hL with h | h
  · exact hPM.trans h
  · exact ((List.prefix_of_prefix_length_le hPM (hlcL.trans h) (by omega)).trans hlcL)

/-! ## Completeness -/

variable [DecidableEq ι] {members : List ι} {Holds Voted : ι → Nat → List ε → Prop}

/-- A majority held `P` in term `T`. -/
def Committed (members : List ι) (Holds : ι → Nat → List ε → Prop) (T : Nat) (P : List ε) :
    Prop :=
  ∃ Q, IsMajority members Q ∧ ∀ q ∈ Q, Holds q T P

/-- **Leader completeness.** If a voter's earlier holdings are in the log of the candidate it
votes for unless a leader in between has lost them, and every leader was elected by a majority,
then every leader of a later term has what a majority held. -/
theorem complete (Led : Nat → List ε → Prop) (Voted : ι → Nat → List ε → Prop)
    (hvote : ∀ p T P U L, Holds p T P → Voted p U L → T < U →
      P <+: L ∨ ∃ V L', T < V ∧ V < U ∧ Led V L' ∧ ¬ P <+: L')
    (hled : ∀ U L, Led U L → ∃ Q, IsMajority members Q ∧ ∀ q ∈ Q, ∃ L₀, L₀ <+: L ∧ Voted q U L₀)
    (hP : Committed members Holds T P) :
    ∀ U L, T < U → Led U L → P <+: L := by
  obtain ⟨Q, hQ, hh⟩ := hP
  intro U
  induction U using Nat.strong_induction_on with
  | _ U ih =>
    intro L hU hL
    obtain ⟨Q', hQ', hv⟩ := hled U L hL
    obtain ⟨q, hq, hq'⟩ := hQ.inter hQ'
    obtain ⟨L₀, hL₀, hvq⟩ := hv q hq'
    rcases hvote q T P U L₀ (hh q hq) hvq hU with h | ⟨V, L', hTV, hVU, hL', hn⟩
    · exact h.trans hL₀
    · exact absurd (ih V hVU L' hTV hL') hn

theorem Committed.comparable (hc : Chain Led)
    (hcomp : ∀ T P, Committed members Holds T P → ∀ U L, T < U → Led U L → P <+: L)
    (hsrc : ∀ p T P, Holds p T P → ∃ L, Led T L ∧ P <+: L) {T' : Nat} {P' : List ε}
    (h : Committed members Holds T P) (h' : Committed members Holds T' P') :
    P <+: P' ∨ P' <+: P := by
  have source : ∀ {T P}, Committed members Holds T P → ∃ L, Led T L ∧ P <+: L := by
    rintro T P ⟨Q, hQ, hh⟩
    obtain ⟨q, hq, -⟩ := hQ.inter hQ
    exact hsrc q T P (hh q hq)
  obtain ⟨L, hL, hPL⟩ := source h
  obtain ⟨L', hL', hPL'⟩ := source h'
  rcases Nat.lt_trichotomy T T' with hlt | rfl | hlt
  · exact List.prefix_or_prefix_of_prefix (hcomp T P h T' L' hlt hL') hPL'
  · rcases hc T L L' hL hL' with hp | hp
    · exact List.prefix_or_prefix_of_prefix (hPL.trans hp) hPL'
    · exact List.prefix_or_prefix_of_prefix hPL (hPL'.trans hp)
  · exact List.prefix_or_prefix_of_prefix hPL (hcomp T' P' h' T L hlt hL)

end LeaderLogs
