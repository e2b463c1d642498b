import Mathlib.Tactic
import Runos.Lib.Signals
import Runos.Topology.Graph

/-!
# The graph of switches, by links

* `TopologyImpl.Ok`: the vertex of a switch carries its dpid, and every edge joins the vertices of
  the switches of its link.
* `vertex_spec`: `vertex` keeps this, returns the vertex of the switch and changes no edge.
* `joins_iff`: an edge joins the vertices of two switches when its link joins the switches. So
  `links_removeEdge`: removing the edge between two vertices removes every link between the two
  switches.
* `found_mem`, `found_ne_none`: looking up the edge between the switches of a link gives one of the
  links between them, if there is one.
-/

namespace Topology

open Signal

/-- The two links join the same two switches. -/
def SameSwitches (k k' : PortPair) : Prop :=
  k.1.dpid = k'.1.dpid ∧ k.2.dpid = k'.2.dpid ∨ k.1.dpid = k'.2.dpid ∧ k.2.dpid = k'.1.dpid

instance (k k' : PortPair) : Decidable (SameSwitches k k') := inferInstanceAs (Decidable (_ ∨ _))

theorem SameSwitches.refl (k : PortPair) : SameSwitches k k := .inl ⟨rfl, rfl⟩

/-- The links have no port in common. -/
def Apart (k k' : PortPair) : Prop := k.1 ≠ k'.1 ∧ k.1 ≠ k'.2 ∧ k.2 ≠ k'.1 ∧ k.2 ≠ k'.2

instance (k k' : PortPair) : Decidable (Apart k k') := inferInstanceAs (Decidable (_ ∧ _))

theorem Apart.symm {k k' : PortPair} (h : Apart k k') : Apart k' k :=
  ⟨h.1.symm, h.2.2.1.symm, h.2.1.symm, h.2.2.2.symm⟩

/-- A port of a link that is apart from another is no port of the other. -/
theorem Apart.not_port {k k' : PortPair} {x : SwitchAndPort} (h : Apart k k')
    (hx : x = k.1 ∨ x = k.2) : ¬ (x = k'.1 ∨ x = k'.2) := by
  obtain ⟨h11, h12, h21, h22⟩ := h
  rcases hx with rfl | rfl
  · exact fun hx' => hx'.elim h11 h12
  · exact fun hx' => hx'.elim h21 h22

/-- No other live link joins the switches of a link that breaks. -/
def Single (l : List (Signal PortPair)) : Signal PortPair → Prop
  | .up _ => True
  | .down k => ∀ k', Live l k' → SameSwitches k' k → k' = k

instance (l : List (Signal PortPair)) : DecidablePred (Single l)
  | .up _ => .isTrue trivial
  | .down k => inferInstanceAs (Decidable (∀ k', Live l k' → (SameSwitches k' k → k' = k)))

namespace TopologyImpl

/-- Every vertex in `vertex_map` carries its own dpid. -/
def Labelled (m : TopologyImpl) : Prop :=
  ∀ d v, m.vertexMap d = some v → m.graph.vertices[v]? = some d

structure Ok (m : TopologyImpl) : Prop where
  labelled : m.Labelled
  ends : ∀ e ∈ m.graph.edges, m.vertexMap e.property.source.dpid = some e.u ∧
    m.vertexMap e.property.target.dpid = some e.v

theorem Ok.init : Ok .init where
  labelled _ _ h := by cases h
  ends _ h := by cases h

section
variable {m : TopologyImpl} {ndebug : Bool} {d d' : UInt64} {u v : Nat}

theorem Labelled.inj (h : m.Labelled) (hd : m.vertexMap d = some v)
    (hd' : m.vertexMap d' = some v) : d = d' := by
  have h₁ := h d v hd
  rw [h d' v hd'] at h₁
  exact (Option.some.inj h₁).symm

theorem vertex_some (h : m.Labelled) (hd : m.vertexMap d = some v) :
    m.vertex ndebug d = .ok (m, v) := by
  simp [vertex, hd, h d v hd]

theorem vertex_none (hd : m.vertexMap d = none) :
    m.vertex ndebug d = .ok (⟨{ m.graph with vertices := m.graph.vertices ++ [d] },
      Function.update m.vertexMap d (some m.graph.vertices.length)⟩, m.graph.vertices.length) := by
  rw [vertex, hd]
  rfl

/-- **The vertex of a switch.** -/
theorem vertex_spec (h : m.Ok) (ndebug : Bool) (d : UInt64) :
    ∃ m' v, m.vertex ndebug d = .ok (m', v) ∧ m'.Ok ∧ m'.graph.edges = m.graph.edges ∧
      m'.vertexMap d = some v ∧ ∀ d' v', m.vertexMap d' = some v' → m'.vertexMap d' = some v' := by
  cases hd : m.vertexMap d with
  | some v => exact ⟨m, v, vertex_some h.labelled hd, h, rfl, hd, fun _ _ h => h⟩
  | none =>
    have hkeep : ∀ d' v', m.vertexMap d' = some v' →
        Function.update m.vertexMap d (some m.graph.vertices.length) d' = some v' := by
      intro d' v' hd'
      rw [Function.update_of_ne _ _ _]
      · exact hd'
      · intro heq
        subst heq
        cases hd.symm.trans hd'
    refine ⟨_, _, vertex_none hd, ⟨?_, ?_⟩, rfl, Function.update_self .., hkeep⟩
    · intro d' v' hd'
      simp only [Function.update_apply] at hd'
      show (m.graph.vertices ++ [d])[v']? = some d'
      split at hd'
      · cases hd'
        simp_all
      · have hv := h.labelled d' v' hd'
        rw [List.getElem?_append_left]
        · exact hv
        · exact (List.getElem?_eq_some_iff.1 hv).1
    · intro e he
      obtain ⟨hs, ht⟩ := h.ends e he
      exact ⟨hkeep _ _ hs, hkeep _ _ ht⟩

/-- The vertices of two switches, one after the other. -/
theorem vertices_spec (h : m.Ok) (ndebug : Bool) (d d' : UInt64) :
    ∃ m₁ m' u v, m.vertex ndebug d = .ok (m₁, u) ∧ m₁.vertex ndebug d' = .ok (m', v) ∧ m'.Ok ∧
      m'.graph.edges = m.graph.edges ∧ m'.vertexMap d = some u ∧ m'.vertexMap d' = some v ∧
      ∀ x v', m.vertexMap x = some v' → m'.vertexMap x = some v' := by
  obtain ⟨m₁, u, hu, h₁, he₁, hd, hkeep₁⟩ := vertex_spec h ndebug d
  obtain ⟨m', v, hv, h', he', hd', hkeep⟩ := vertex_spec h₁ ndebug d'
  exact ⟨m₁, m', u, v, hu, hv, h', he'.trans he₁, hkeep d u hd, hd',
    fun x v' hx => hkeep x v' (hkeep₁ x v' hx)⟩

theorem links_congr {m' : TopologyImpl} (h : m'.graph.edges = m.graph.edges) :
    m'.links = m.links := by
  rw [links, links, h]

/-! ## Edges and links -/

theorem mem_links {e : Multigraph.Edge LinkProperty} (he : e ∈ m.graph.edges) :
    e.property.ports ∈ m.links := List.mem_map_of_mem he

theorem joins_iff (h : m.Ok) {k : PortPair} (hu : m.vertexMap k.1.dpid = some u)
    (hv : m.vertexMap k.2.dpid = some v) {e : Multigraph.Edge LinkProperty}
    (he : e ∈ m.graph.edges) : e.Joins u v ↔ SameSwitches e.property.ports k := by
  obtain ⟨hs, ht⟩ := h.ends e he
  have heq : ∀ {d d' : UInt64} {x y : Nat}, m.vertexMap d = some x → m.vertexMap d' = some y →
      (x = y ↔ d = d') := by
    intro d d' x y hx hy
    constructor
    · intro hxy
      subst hxy
      exact h.labelled.inj hx hy
    · intro hdd
      subst hdd
      exact Option.some.inj (hx.symm.trans hy)
  rw [Multigraph.Edge.Joins, heq hs hu, heq ht hv, heq hs hv, heq ht hu]
  rfl

theorem links_addEdge (m : TopologyImpl) (u v : Nat) (l : LinkProperty) :
    links { m with graph := m.graph.addEdge u v l } = m.links ++ [l.ports] := by
  simp [links, Multigraph.addEdge]

theorem Ok.addEdge (h : m.Ok) {l : LinkProperty} (hu : m.vertexMap l.source.dpid = some u)
    (hv : m.vertexMap l.target.dpid = some v) :
    Ok { m with graph := m.graph.addEdge u v l } where
  labelled := h.labelled
  ends e he := by
    rcases List.mem_append.1 he with he | he
    · exact h.ends e he
    · obtain rfl := List.mem_singleton.1 he
      exact ⟨hu, hv⟩

/-- **Every link between the two switches is removed.** -/
theorem links_removeEdge (h : m.Ok) {k : PortPair} (hu : m.vertexMap k.1.dpid = some u)
    (hv : m.vertexMap k.2.dpid = some v) :
    links { m with graph := m.graph.removeEdge u v } =
      m.links.filter fun k' => ¬ SameSwitches k' k := by
  rw [links, links, List.filter_map]
  show List.map _ (m.graph.edges.filter _) = _
  congr 1
  apply List.filter_congr
  intro e he
  simp [joins_iff h hu hv he]

theorem Ok.removeEdge (h : m.Ok) (u v : Nat) :
    Ok { m with graph := m.graph.removeEdge u v } where
  labelled := h.labelled
  ends e he := h.ends e (List.mem_of_mem_filter he)

theorem mem_between_ports (h : m.Ok) {k : PortPair} (hu : m.vertexMap k.1.dpid = some u)
    (hv : m.vertexMap k.2.dpid = some v) {k' : PortPair} :
    (∃ l ∈ m.graph.between u v, l.ports = k') ↔ k' ∈ m.links ∧ SameSwitches k' k := by
  constructor
  · intro hl
    obtain ⟨l, hl, hk⟩ := hl
    obtain ⟨e, he, hj, rfl⟩ := Multigraph.mem_between.1 hl
    subst hk
    exact ⟨List.mem_map.2 ⟨e, he, rfl⟩, (joins_iff h hu hv he).1 hj⟩
  · intro hk
    obtain ⟨hk, hs⟩ := hk
    obtain ⟨e, he, rfl⟩ := List.mem_map.1 hk
    exact ⟨_, Multigraph.mem_between.2 ⟨e, he, (joins_iff h hu hv he).2 hs, rfl⟩, rfl⟩

/-! ## Looking up a link -/

/-- The link a lookup of the edge between the two switches of `k` gives. -/
def found (choice : EdgeChoice LinkProperty) (m : TopologyImpl) (k : PortPair) :
    Option LinkProperty :=
  match m.vertexMap k.1.dpid, m.vertexMap k.2.dpid with
  | some u, some v => m.graph.edge choice u v
  | _, _ => none

section
variable {choice : EdgeChoice LinkProperty} {k : PortPair} {l : LinkProperty}

theorem found_mem (h : m.Ok) (hf : m.found choice k = some l) :
    l.ports ∈ m.links ∧ SameSwitches l.ports k := by
  unfold found at hf
  split at hf
  · rename_i u v hu hv
    exact (mem_between_ports h hu hv).1 ⟨l, Multigraph.edge_mem hf, rfl⟩
  · cases hf

theorem found_ne_none (choice : EdgeChoice LinkProperty) (h : m.Ok) (hk : k ∈ m.links) :
    m.found choice k ≠ none := by
  intro hf
  obtain ⟨e, he, rfl⟩ := List.mem_map.1 hk
  obtain ⟨hu, hv⟩ := h.ends e he
  have hedge : m.graph.edge choice e.u e.v = none := by
    simpa [found, LinkProperty.ports, hu, hv] using hf
  obtain ⟨l, hl, -⟩ := (mem_between_ports h (k := e.property.ports) hu hv).2 ⟨hk, .refl _⟩
  rw [Multigraph.edge_eq_none hedge] at hl
  cases hl

/-- The lookup once the vertices of the two switches are there. -/
theorem edge_eq_found (choice : EdgeChoice LinkProperty) (h : m.Ok) {m' : TopologyImpl} (h' : m'.Ok)
    (he : m'.graph.edges = m.graph.edges) (hu : m'.vertexMap k.1.dpid = some u)
    (hv : m'.vertexMap k.2.dpid = some v)
    (hkeep : ∀ x v', m.vertexMap x = some v' → m'.vertexMap x = some v') :
    m'.graph.edge choice u v = m.found choice k := by
  have hsame : m'.graph.edge choice u v = m.graph.edge choice u v := by
    simp only [Multigraph.edge, Multigraph.between, he]
  cases hs : m.graph.edge choice u v with
  | none =>
    cases hf : m.found choice k with
    | none => rw [hsame, hs]
    | some l =>
      -- the vertices were there, and are the same
      unfold found at hf
      split at hf
      · rename_i u₀ v₀ hu₀ hv₀
        cases (hkeep _ _ hu₀).symm.trans hu
        cases (hkeep _ _ hv₀).symm.trans hv
        cases hs.symm.trans hf
      · cases hf
  | some l =>
    obtain ⟨hl, hss⟩ := (mem_between_ports h' hu hv).1 ⟨l, Multigraph.edge_mem (hsame.trans hs), rfl⟩
    -- a link between the switches is in the graph, so their vertices were there
    rw [links_congr he] at hl
    obtain ⟨e, hem, hp⟩ := List.mem_map.1 hl
    obtain ⟨hs₀, ht₀⟩ := h.ends e hem
    rw [show e.property.source = l.source from congrArg Prod.fst hp] at hs₀
    rw [show e.property.target = l.target from congrArg Prod.snd hp] at ht₀
    have hkeys : ∃ u₀ v₀, m.vertexMap k.1.dpid = some u₀ ∧ m.vertexMap k.2.dpid = some v₀ := by
      rcases hss with ⟨h₁, h₂⟩ | ⟨h₁, h₂⟩
      · exact ⟨_, _, h₁ ▸ hs₀, h₂ ▸ ht₀⟩
      · exact ⟨_, _, h₂ ▸ ht₀, h₁ ▸ hs₀⟩
    obtain ⟨u₀, v₀, hu₀, hv₀⟩ := hkeys
    cases (hkeep _ _ hu₀).symm.trans hu
    cases (hkeep _ _ hv₀).symm.trans hv
    rw [hsame, found, hu₀, hv₀]

end

end

end TopologyImpl

end Topology
