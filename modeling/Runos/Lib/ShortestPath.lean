import Mathlib.Combinatorics.SimpleGraph.Metric
import Runos.Lib.Multigraph

/-!
# Shortest paths in multigraphs

`Multigraph.simple` forgets how many edges join two vertices. `PredecessorMap G root p`: from every
vertex that reaches the root, `p` goes to a neighbour that is one step closer; it stays where it is
at the root and at the vertices that do not reach it. `breadthFirst` computes such a map.
-/

/-- A walk by predecessors is a shortest path to the root. -/
structure PredecessorMap {V : Type} (G : SimpleGraph V) (root : V) (p : V → V) : Prop where
  at_root : p root = root
  unreachable : ∀ v, ¬ G.Reachable v root → p v = v
  adj : ∀ v, G.Reachable v root → v ≠ root → G.Adj v (p v)
  dist : ∀ v, G.Reachable v root → v ≠ root → G.dist v root = G.dist (p v) root + 1

/-- Two graphs that are mapped to each other and back have the same distances. -/
theorem dist_eq_of_hom {V W : Type} {G : SimpleGraph V} {H : SimpleGraph W} (f : G →g H)
    (f' : H →g G) {u v : V} (hu : f' (f u) = u) (hv : f' (f v) = v) (h : G.Reachable u v) :
    H.dist (f u) (f v) = G.dist u v := by
  obtain ⟨p, hp⟩ := h.exists_walk_length_eq_dist
  obtain ⟨q, hq⟩ := (h.map f).exists_walk_length_eq_dist
  apply le_antisymm
  · rw [← hp, ← SimpleGraph.Walk.length_map f p]
    exact SimpleGraph.dist_le _
  · have hback : G.dist (f' (f u)) (f' (f v)) ≤ q.length := by
      rw [← SimpleGraph.Walk.length_map f' q]
      exact SimpleGraph.dist_le _
    rwa [hu, hv, hq] at hback

namespace Multigraph

variable {ν ε : Type} {g : Multigraph ν ε} {root u v : Nat}

theorem Edge.Joins.symm {e : Edge ε} (h : e.Joins u v) : e.Joins v u :=
  h.elim (fun h => .inr h) fun h => .inl h

/-- Different vertices that an edge joins are neighbours. -/
def simple (g : Multigraph ν ε) : SimpleGraph Nat where
  Adj u v := u ≠ v ∧ ∃ e ∈ g.edges, e.Joins u v
  symm := ⟨fun _ _ h => ⟨h.1.symm, h.2.imp fun _ he => ⟨he.1, he.2.symm⟩⟩⟩
  loopless := ⟨fun _ h => h.1 rfl⟩

/-- A shortest path uses an edge once. -/
theorem dist_le_length_edges (h : g.simple.Reachable u v) :
    g.simple.dist u v ≤ g.edges.length := by
  obtain ⟨p, hp, hlen⟩ := h.exists_path_of_dist
  rw [← hlen, ← SimpleGraph.Walk.length_edges, ← List.length_map fun e : Edge ε => s(e.u, e.v)]
  refine (List.subperm_of_subset hp.isTrail.edges_nodup fun x hx => ?_).length_le
  have hadj := p.edges_subset_edgeSet hx
  induction x with
  | _ a b =>
    obtain ⟨-, e, he, hj⟩ := (SimpleGraph.mem_edgeSet _).1 hadj
    refine List.mem_map.2 ⟨e, he, ?_⟩
    rcases hj with ⟨rfl, rfl⟩ | ⟨rfl, rfl⟩
    · rfl
    · exact Sym2.eq_swap

/-- The other end of an edge. -/
def Edge.other? (e : Edge ε) (v : Nat) (ok : Nat → Bool) : Option Nat :=
  if e.u = v ∧ ok e.v then some e.v
  else if e.v = v ∧ ok e.u then some e.u
  else none

/-- The vertex is at most so many steps from the root. -/
def layer (g : Multigraph ν ε) (root : Nat) : Nat → Nat → Bool
  | 0, v => v == root
  | n + 1, v => layer g root n v || g.edges.any fun e => (e.other? v (layer g root n)).isSome

/-- The predecessor that a breadth-first search from the root finds. -/
def breadthFirst (g : Multigraph ν ε) (root v : Nat) : Nat :=
  match (List.range (g.edges.length + 1)).find? fun n => layer g root n v with
  | none | some 0 => v
  | some (n + 1) => (g.edges.findSome? fun e => e.other? v (layer g root n)).getD v

theorem Edge.other?_eq_some {e : Edge ε} {ok : Nat → Bool} (h : e.other? v ok = some u) :
    e.Joins v u ∧ ok u = true := by
  unfold Edge.other? at h
  split at h
  · rename_i hc
    cases h
    exact ⟨.inl ⟨hc.1, rfl⟩, hc.2⟩
  · split at h
    · rename_i hc
      cases h
      exact ⟨.inr ⟨rfl, hc.1⟩, hc.2⟩
    · cases h

theorem Edge.other?_ne_none {e : Edge ε} {ok : Nat → Bool} (h : e.Joins v u) (hok : ok u = true) :
    e.other? v ok ≠ none := by
  unfold Edge.other?
  split
  · simp
  · rename_i hfst
    split
    · simp
    · rename_i hsnd
      rcases h with ⟨hu, hv⟩ | ⟨hu, hv⟩
      · exact absurd ⟨hu, by rw [hv]; exact hok⟩ hfst
      · exact absurd ⟨hv, by rw [hu]; exact hok⟩ hsnd

theorem layer_iff (g : Multigraph ν ε) (root : Nat) : ∀ n v,
    layer g root n v = true ↔ g.simple.Reachable v root ∧ g.simple.dist v root ≤ n
  | 0, v => by
    simp only [layer, beq_iff_eq, Nat.le_zero]
    constructor
    · intro h
      subst h
      exact ⟨.refl v, SimpleGraph.dist_self⟩
    · exact fun h => h.1.dist_eq_zero_iff.1 h.2
  | n + 1, v => by
    have ih := layer_iff g root n
    simp only [layer, Bool.or_eq_true, List.any_eq_true]
    constructor
    · intro h
      rcases h with h | ⟨e, he, h⟩
      · obtain ⟨hr, hd⟩ := (ih v).1 h
        exact ⟨hr, Nat.le_succ_of_le hd⟩
      · obtain ⟨w, hw⟩ := Option.isSome_iff_exists.1 h
        obtain ⟨hj, hok⟩ := Edge.other?_eq_some hw
        obtain ⟨hr, hd⟩ := (ih w).1 hok
        by_cases hvw : v = w
        · subst hvw
          exact ⟨hr, Nat.le_succ_of_le hd⟩
        · have hadj : g.simple.Adj v w := ⟨hvw, e, he, hj⟩
          obtain ⟨p, hp⟩ := hr.exists_walk_length_eq_dist
          have hle := SimpleGraph.dist_le (p.cons hadj)
          rw [SimpleGraph.Walk.length_cons, hp] at hle
          exact ⟨hadj.reachable.trans hr, by omega⟩
    · intro h
      obtain ⟨hr, hd⟩ := h
      by_cases hle : g.simple.dist v root ≤ n
      · exact .inl ((ih v).2 ⟨hr, hle⟩)
      · obtain ⟨p, hp⟩ := hr.exists_walk_length_eq_dist
        cases p with
        | nil => simp at hle
        | @cons _ w _ hadj p =>
          rw [SimpleGraph.Walk.length_cons] at hp
          have hlen := SimpleGraph.dist_le p
          obtain ⟨-, e, he, hj⟩ := hadj
          have hok : layer g root n w = true := (ih w).2 ⟨p.reachable, by omega⟩
          exact .inr ⟨e, he, Option.isSome_iff_ne_none.2 (Edge.other?_ne_none hj hok)⟩

/-- **The search finds shortest paths.** -/
theorem breadthFirst_spec (g : Multigraph ν ε) (root : Nat) :
    PredecessorMap g.simple root (breadthFirst g root) := by
  have hfind : ∀ v, g.simple.Reachable v root →
      ((List.range (g.edges.length + 1)).find? fun n => layer g root n v) =
        some (g.simple.dist v root) := by
    intro v hr
    rw [List.find?_range_eq_some]
    refine ⟨(layer_iff g root _ v).2 ⟨hr, le_rfl⟩, List.mem_range.2 ?_, fun n hn => ?_⟩
    · exact Nat.lt_succ_of_le (dist_le_length_edges hr)
    · simp only [Bool.not_eq_true', ← Bool.not_eq_true, layer_iff]
      exact fun h => absurd h.2 (by omega)
  -- the neighbour that is found
  have hstep : ∀ v, g.simple.Reachable v root → v ≠ root →
      g.simple.Adj v (breadthFirst g root v) ∧
        g.simple.dist v root = g.simple.dist (breadthFirst g root v) root + 1 := by
    intro v hr hne
    obtain ⟨n, hn⟩ : ∃ n, g.simple.dist v root = n + 1 :=
      Nat.exists_eq_succ_of_ne_zero fun h => hne (hr.dist_eq_zero_iff.1 h)
    have hlast : layer g root (n + 1) v = true := (layer_iff g root _ v).2 ⟨hr, hn.le⟩
    have hearly : layer g root n v = false := by
      rw [← Bool.not_eq_true, layer_iff]
      exact fun h => absurd h.2 (by omega)
    simp only [layer, hearly, Bool.false_or, List.any_eq_true] at hlast
    obtain ⟨w, hw⟩ := Option.isSome_iff_exists.1 (List.findSome?_isSome_iff.2 hlast)
    obtain ⟨e, he, hother⟩ := List.exists_of_findSome?_eq_some hw
    obtain ⟨hj, hok⟩ := Edge.other?_eq_some hother
    obtain ⟨hrw, hdw⟩ := (layer_iff g root n w).1 hok
    have hbf : breadthFirst g root v = w := by
      unfold breadthFirst
      simp only [hfind v hr, hn, hw, Option.getD_some]
    have hadj : g.simple.Adj v w := by
      refine ⟨fun hvw => ?_, e, he, hj⟩
      rw [← hvw] at hdw
      omega
    obtain ⟨p, hp⟩ := hrw.exists_walk_length_eq_dist
    have hle := SimpleGraph.dist_le (p.cons hadj)
    rw [SimpleGraph.Walk.length_cons, hp] at hle
    rw [hbf]
    exact ⟨hadj, by omega⟩
  constructor
  · unfold breadthFirst
    rw [hfind root (.refl root), SimpleGraph.dist_self]
  · intro v hr
    unfold breadthFirst
    cases hf : (List.range (g.edges.length + 1)).find? fun n => layer g root n v with
    | none => rfl
    | some n =>
      have hn : layer g root n v = true := List.find?_some (p := fun n => layer g root n v) hf
      exact absurd ((layer_iff g root n v).1 hn).1 hr
  · exact fun v hr hne => (hstep v hr hne).1
  · exact fun v hr hne => (hstep v hr hne).2

end Multigraph
