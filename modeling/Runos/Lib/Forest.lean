import Mathlib.Data.List.Perm.Subperm
import Mathlib.Logic.Relation
import Runos.Lib.Multigraph

/-!
# Forests in multigraphs

`Connected es u v`: the edges `es` lead from `u` to `v`. `Acyclic es`: every edge is the only way
between its ends, so there are neither loops nor parallel edges. `SpanningForest es tree`: a choice
among the edges without cycles that connects what they connect.
-/

namespace Multigraph

variable {ε : Type} {es es' tree : List (Edge ε)} {u v : Nat}

/-- There is a path along the edges, in either direction of each. -/
def Connected (es : List (Edge ε)) : Nat → Nat → Prop :=
  Relation.EqvGen fun u v => ∃ e ∈ es, e.u = u ∧ e.v = v

def Acyclic (es : List (Edge ε)) : Prop :=
  ∀ e rest, es.Perm (e :: rest) → ¬ Connected rest e.u e.v

structure SpanningForest (es tree : List (Edge ε)) : Prop where
  subperm : tree.Subperm es
  acyclic : Acyclic tree
  spans : ∀ u v, Connected es u v → Connected tree u v

theorem Connected.of_mem {e : Edge ε} (he : e ∈ es) : Connected es e.u e.v :=
  .rel _ _ ⟨e, he, rfl, rfl⟩

/-- Edges whose ends are connected connect no more. -/
theorem Connected.of_edges (h : ∀ e ∈ es, Connected es' e.u e.v) (hc : Connected es u v) :
    Connected es' u v := by
  induction hc with
  | rel u v hr =>
    obtain ⟨e, he, rfl, rfl⟩ := hr
    exact h e he
  | refl u => exact .refl u
  | symm u v _ ih => exact .symm _ _ ih
  | trans u v w _ _ ih ih' => exact .trans _ _ _ ih ih'

theorem Connected.mono (h : es ⊆ es') (hc : Connected es u v) : Connected es' u v :=
  hc.of_edges fun _ he => .of_mem (h he)

/-- A path that leads elsewhere starts and ends with an edge. -/
theorem Connected.eq_or_exists_mem (hc : Connected es u v) :
    u = v ∨ (∃ e ∈ es, e.u = u ∨ e.v = u) ∧ ∃ e ∈ es, e.u = v ∨ e.v = v := by
  induction hc with
  | rel u v hr =>
    obtain ⟨e, he, hu, hv⟩ := hr
    exact .inr ⟨⟨e, he, .inl hu⟩, ⟨e, he, .inr hv⟩⟩
  | refl u => exact .inl rfl
  | symm u v _ ih =>
    rcases ih with rfl | ⟨hu, hv⟩
    · exact .inl rfl
    · exact .inr ⟨hv, hu⟩
  | trans u v w _ _ ih ih' =>
    rcases ih with rfl | ⟨hu, hv⟩
    · exact ih'
    · rcases ih' with rfl | ⟨-, hw⟩
      · exact .inr ⟨hu, hv⟩
      · exact .inr ⟨hu, hw⟩

theorem Acyclic.perm (h : Acyclic es) (hp : es.Perm es') : Acyclic es' :=
  fun e rest he => h e rest (hp.trans he)

namespace SpanningForest

theorem subset (h : SpanningForest es tree) : tree ⊆ es := h.subperm.subset

theorem connected_iff (h : SpanningForest es tree) : Connected tree u v ↔ Connected es u v :=
  ⟨fun hc => hc.mono h.subset, h.spans u v⟩

/-- Both ends of an edge that is no loop are ends of edges of the forest. -/
theorem exists_mem_of_ne (h : SpanningForest es tree) {e : Edge ε} (he : e ∈ es) (hne : e.u ≠ e.v) :
    (∃ t ∈ tree, t.u = e.u ∨ t.v = e.u) ∧ ∃ t ∈ tree, t.u = e.v ∨ t.v = e.v := by
  rcases (h.spans _ _ (.of_mem he)).eq_or_exists_mem with heq | hends
  · exact absurd heq hne
  · exact hends

end SpanningForest

end Multigraph
