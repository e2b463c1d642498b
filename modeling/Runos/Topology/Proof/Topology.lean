import Runos.Lib.Trace
import Runos.Topology.Topology
import Runos.Topology.Proof.Graph

/-!
# One edge for each live link

Runs of `Topology` in which the signals about a link alternate (`Alternates`). A link that breaks
takes with it every edge between its two switches, but only one object of `topo`. So the graph,
the objects and the live links agree (`OneEdgePerLink`) as long as a link breaks only when no other
live link joins its two switches (`Single`), and are told apart by the first that breaks otherwise:
`one_edge_per_link`.

`Kept` is the invariant: in such a run edges and objects list the same links, in the same order.
-/

namespace Topology

open Signal Runs

/-! ## The two signals -/

/-- A link is discovered, whatever went before. -/
theorem exists_linkDiscovered {s : Topology} (h : s.m.Ok) (ndebug : Bool) (k : PortPair) :
    ∃ s', s.linkDiscovered ndebug k.1 k.2 = .ok s' ∧ s'.m.Ok ∧
      s'.m.links = (if k.1.dpid = k.2.dpid then s.m.links else s.m.links ++ [k]) ∧
      (∀ e ∈ s'.m.graph.edges, e ∈ s.m.graph.edges ∨ e.property.weight = 1) ∧
      (k.1.dpid ≠ k.2.dpid →
        s'.topo = s.topo ++ [(s.heap, ⟨k.1, k.2, 5⟩)] ∧ s'.heap = s.heap + 1) := by
  unfold linkDiscovered
  split
  · rename_i hself
    exact ⟨s, rfl, h, rfl, fun _ he => .inl he, fun hd => absurd hself hd⟩
  · obtain ⟨m₁, m, u, v, hu, hv, hok, he, hmu, hmv, -⟩ :=
      TopologyImpl.vertices_spec h ndebug k.1.dpid k.2.dpid
    simp only [hu, hv, bind, Except.bind]
    refine ⟨_, rfl, hok.addEdge hmu hmv, ?_, fun e hmem => ?_, fun _ => ⟨rfl, rfl⟩⟩
    · rw [TopologyImpl.links_addEdge, TopologyImpl.links_congr he]
      rfl
    · rcases List.mem_append.1 hmem with hmem | hmem
      · exact .inl (he ▸ hmem)
      · rw [List.mem_singleton.1 hmem]
        exact .inr rfl

/-- A link breaks, whatever went before. -/
theorem exists_linkBroken {s : Topology} (h : s.m.Ok) (ndebug : Bool) (k : PortPair) :
    ∃ s', s.linkBroken ndebug k.1 k.2 = .ok s' ∧ s'.m.Ok ∧
      s'.m.links = s.m.links.filter (fun k' => ¬ SameSwitches k' k) ∧
      (∀ e ∈ s'.m.graph.edges, e ∈ s.m.graph.edges) ∧
      s'.topo = s.topo.filter (fun l => some l.1 ≠ s.getLink k.1 k.2) ∧ s'.heap = s.heap := by
  obtain ⟨m₁, m, u, v, hu, hv, hok, he, hmu, hmv, -⟩ :=
    TopologyImpl.vertices_spec h ndebug k.1.dpid k.2.dpid
  unfold linkBroken
  simp only [hu, hv, bind, Except.bind]
  refine ⟨_, rfl, hok.removeEdge u v, ?_, fun e hmem => ?_, rfl, rfl⟩
  · rw [TopologyImpl.links_removeEdge hok hmu hmv, TopologyImpl.links_congr he]
  · exact he ▸ List.mem_of_mem_filter hmem

/-! ## Runs -/

/-- The topology with the signals it has received, the latest first. -/
structure System where
  app : Topology
  seen : List (Signal PortPair)

namespace System

def init : System := ⟨.init, []⟩

def step (ndebug : Bool) (s : System) (x : Signal PortPair) : Except Fault System := do
  let app ← s.app.receive ndebug x
  .ok ⟨app, x :: s.seen⟩

end System

/-- The signals alternate for every link, and links join two switches. -/
def Alternates (s : System) (x : Signal PortPair) : Prop :=
  x.subject.1.dpid ≠ x.subject.2.dpid ∧ Alternating (x :: s.seen)

instance (s : System) (x : Signal PortPair) : Decidable (Alternates s x) :=
  inferInstanceAs (Decidable (_ ∧ _))

/-- The links of the objects in `topo`. -/
def objects (s : Topology) : List PortPair := s.topo.map (·.2.ports)

/-- The edges, the objects and the live links coincide, and every vertex in `vertex_map` carries
its own dpid. -/
structure OneEdgePerLink (s : System) : Prop where
  same : s.app.m.links.Perm s.app.objects
  nodup : s.app.m.links.Nodup
  live : ∀ k, k ∈ s.app.m.links ↔ Live s.seen k
  labelled : s.app.m.Labelled

structure Kept (s : System) : Prop where
  ok : s.app.m.Ok
  same : s.app.m.links = s.app.objects
  nodup : s.app.m.links.Nodup
  live : ∀ k, k ∈ s.app.m.links ↔ Live s.seen k
  /-- The objects are at different addresses. -/
  addresses : (s.app.topo.map Prod.fst).Nodup
  allocated : ∀ l ∈ s.app.topo, l.1 < s.app.heap

theorem Kept.init : Kept .init where
  ok := .init
  same := rfl
  nodup := List.nodup_nil
  live k := by simp [System.init, Topology.init, TopologyImpl.init, TopologyImpl.links,
    Multigraph.empty]
  addresses := List.nodup_nil
  allocated l h := by cases h

section
variable {s s' : System} {ndebug : Bool} {k : PortPair}

theorem Kept.oneEdgePerLink (h : Kept s) : OneEdgePerLink s where
  same := .of_eq h.same
  nodup := h.nodup
  live := h.live
  labelled := h.ok.labelled

/-! ## A link is discovered -/

theorem Kept.linkDiscovered (h : Kept s) (hd : k.1.dpid ≠ k.2.dpid) (hk : ¬ Live s.seen k) :
    ∃ s', s.step ndebug (.up k) = .ok s' ∧ Kept s' := by
  obtain ⟨app, happ, hok, hlinks, -, hobj⟩ := exists_linkDiscovered h.ok ndebug k
  obtain ⟨htopo, hheap⟩ := hobj hd
  rw [if_neg hd] at hlinks
  have hnew : k ∉ s.app.m.links := fun hmem => hk ((h.live k).1 hmem)
  refine ⟨⟨app, .up k :: s.seen⟩, ?_, hok, ?_, ?_, ?_, ?_, ?_⟩
  · simp only [System.step, receive, happ, bind, Except.bind]
  · rw [hlinks, h.same, objects, objects, htopo, List.map_append]
    rfl
  · rw [hlinks, ← List.concat_eq_append]
    exact List.Nodup.concat hnew h.nodup
  · intro k'
    rw [hlinks, List.mem_append, h.live, List.mem_singleton, live_up]
    exact or_comm
  · rw [htopo, List.map_append, List.map_singleton, ← List.concat_eq_append]
    refine List.Nodup.concat ?_ h.addresses
    intro hmem
    obtain ⟨l, hl, heq⟩ := List.mem_map.1 hmem
    have := h.allocated l hl
    omega
  · intro l hl
    rw [htopo] at hl
    rw [hheap]
    rcases List.mem_append.1 hl with hl | hl
    · have := h.allocated l hl
      omega
    · obtain rfl := List.mem_singleton.1 hl
      exact Nat.lt_succ_self _

/-! ## A link breaks -/

/-- The object of a live link that is the only one between its switches. -/
theorem Kept.getLink (h : Kept s) (hk : Live s.seen k) (hs : Single s.seen (.down k)) :
    ∃ l ∈ s.app.topo, s.app.getLink k.1 k.2 = some l.1 ∧ l.2.ports = k := by
  have hmem : k ∈ s.app.objects := h.same ▸ (h.live k).2 hk
  obtain ⟨l₀, hl₀, hports⟩ := List.mem_map.1 hmem
  let p : Nat × Link → Bool := fun l => l.2.source = k.1 ∧ l.2.target = k.2 ∨
    l.2.source = k.2 ∧ l.2.target = k.1
  have hp₀ : p l₀ = true := by
    subst hports
    simp [p, Link.ports]
  cases hf : s.app.topo.find? p with
  | none => exact absurd hp₀ (List.find?_eq_none.1 hf l₀ hl₀)
  | some l =>
    have hl := List.mem_of_find?_eq_some hf
    have hlive : Live s.seen l.2.ports := by
      rw [← h.live, h.same]
      exact List.mem_map.2 ⟨l, hl, rfl⟩
    refine ⟨l, hl, by rw [Topology.getLink, hf]; rfl, hs _ hlive ?_⟩
    have hp := List.find?_some hf
    simp only [p, decide_eq_true_eq] at hp
    rcases hp with ⟨hs, ht⟩ | ⟨hs, ht⟩
    · exact .inl ⟨congrArg _ hs, congrArg _ ht⟩
    · exact .inr ⟨congrArg _ hs, congrArg _ ht⟩

/-- Addresses and links tell the objects apart alike. -/
theorem Kept.address_iff (h : Kept s) {l l' : Nat × Link} (hl : l ∈ s.app.topo)
    (hl' : l' ∈ s.app.topo) : l.1 = l'.1 ↔ l.2.ports = l'.2.ports := by
  have hports : s.app.objects.Nodup := h.same ▸ h.nodup
  constructor
  · intro heq
    rw [List.inj_on_of_nodup_map h.addresses hl hl' heq]
  · intro heq
    rw [List.inj_on_of_nodup_map hports hl hl' heq]

theorem Kept.linkBroken (h : Kept s) (hk : Live s.seen k) (hs : Single s.seen (.down k)) :
    ∃ s', s.step ndebug (.down k) = .ok s' ∧ Kept s' := by
  obtain ⟨app, happ, hok, hlinks, -, htopo, hheap⟩ := exists_linkBroken h.ok ndebug k
  obtain ⟨l₀, hl₀, hget, hports⟩ := h.getLink hk hs
  -- both lists lose exactly the link
  have hrest : app.m.links = s.app.m.links.filter (fun k' => k' ≠ k) := by
    rw [hlinks]
    apply List.filter_congr
    intro k' hk'
    have hiff : SameSwitches k' k ↔ k' = k := by
      constructor
      · exact hs k' ((h.live k').1 hk')
      · intro heq
        rw [heq]
        exact .refl k
    simp [hiff]
  have hobjects : app.objects = s.app.objects.filter (fun k' => k' ≠ k) := by
    rw [objects, objects, List.filter_map, htopo, hget]
    congr 1
    apply List.filter_congr
    intro l hl
    have := h.address_iff hl hl₀
    simp [this, hports]
  refine ⟨⟨app, .down k :: s.seen⟩, ?_, hok, ?_, ?_, ?_, ?_, ?_⟩
  · simp only [System.step, receive, happ, bind, Except.bind]
  · rw [hrest, hobjects, h.same]
  · rw [hrest]
    exact h.nodup.filter _
  · intro k'
    rw [hrest, live_down, ← h.live]
    simp [and_comm]
  · rw [htopo]
    exact h.addresses.sublist (List.filter_sublist.map _)
  · intro l hl
    rw [htopo] at hl
    rw [hheap]
    exact h.allocated l (List.mem_of_mem_filter hl)

/-! ## Runs -/

theorem step_single {x : Signal PortPair} (ndebug : Bool) (h : Kept s) (ha : Alternates s x)
    (hs : Single s.seen x) : ∃ s', s.step ndebug x = .ok s' ∧ Kept s' := by
  cases x with
  | up k => exact h.linkDiscovered ha.1 ha.2.1
  | down k => exact h.linkBroken ha.2.1 hs

/-- After a link between two switches broke, none is left in the graph. -/
theorem single_of_step {x : Signal PortPair} (h : Kept s) (hstep : s.step ndebug x = .ok s')
    (ho : OneEdgePerLink s') : Single s.seen x := by
  cases x with
  | up k => trivial
  | down k =>
    intro k' hk' hsame
    by_contra hne
    obtain ⟨app, happ, -, hlinks, -⟩ := exists_linkBroken h.ok ndebug k
    simp only [System.step, receive, happ, bind, Except.bind, Except.ok.injEq] at hstep
    subst hstep
    have hmem : k' ∈ app.m.links := by
      rw [ho.live, live_down]
      exact ⟨hne, hk'⟩
    simp [hlinks, hsame] at hmem

/-- **One edge for each live link** in every run in which links break alone between their
switches; and after the next signal the graph, the objects and the live links agree exactly when it
is so again. -/
theorem one_edge_per_link {h : List (System × Signal PortPair)}
    (hr : Trace (System.step ndebug) (fun s x => Alternates s x ∧ Single s.seen x) .init h s) :
    OneEdgePerLink s ∧ ∀ x, Alternates s x →
      ((∃ s', s.step ndebug x = .ok s' ∧ OneEdgePerLink s') ↔ Single s.seen x) := by
  have hk : Kept s := by
    refine hr.invariant_state .init ?_
    intro s x s' hk hok hstep
    obtain ⟨s₁, hs₁, hk'⟩ := step_single ndebug hk hok.1 hok.2
    cases hstep.symm.trans hs₁
    exact hk'
  refine ⟨hk.oneEdgePerLink, fun x ha => ⟨?_, ?_⟩⟩
  · intro hs'
    obtain ⟨s', hstep, ho⟩ := hs'
    exact single_of_step hk hstep ho
  · intro hs
    obtain ⟨s', hstep, hk'⟩ := step_single ndebug hk ha hs
    exact ⟨s', hstep, hk'.oneEdgePerLink⟩

end

/-- Two links between other switches are discovered, and the first breaks. -/
theorem one_edge_per_link_broken : ∃ h s,
    Trace (System.step false) (fun s x => Alternates s x ∧ Single s.seen x) .init h s ∧
    s.app.m.links = [(⟨2, 2⟩, ⟨3, 1⟩)] ∧ OneEdgePerLink s := by
  obtain ⟨h, s, hr, hlinks⟩ := exists_trace (System.step false)
    (fun s x => Alternates s x ∧ Single s.seen x) .init
    [.up (⟨1, 1⟩, ⟨2, 1⟩), .up (⟨2, 2⟩, ⟨3, 1⟩), .down (⟨1, 1⟩, ⟨2, 1⟩)]
    (P := fun _ s => s.app.m.links = [(⟨2, 2⟩, ⟨3, 1⟩)])
    (by decide +kernel)
  exact ⟨h, s, hr, hlinks, (one_edge_per_link hr).1⟩

/-- Two links between the same switches are discovered, and the first breaks: both edges are gone,
while the object of the second is kept. -/
theorem one_edge_per_link_parallel : ∃ h s, Trace (System.step false) Alternates .init h s ∧
    s.app.m.links = [] ∧ s.app.objects = [(⟨1, 2⟩, ⟨2, 2⟩)] ∧ ¬ OneEdgePerLink s := by
  obtain ⟨h, s, hr, hlinks, hobj⟩ := exists_trace (System.step false) Alternates .init
    [.up (⟨1, 1⟩, ⟨2, 1⟩), .up (⟨1, 2⟩, ⟨2, 2⟩), .down (⟨1, 1⟩, ⟨2, 1⟩)]
    (P := fun _ s => s.app.m.links = [] ∧ s.app.objects = [(⟨1, 2⟩, ⟨2, 2⟩)])
    (by decide +kernel)
  refine ⟨h, s, hr, hlinks, hobj, fun ho => ?_⟩
  have hperm := ho.same
  rw [hlinks, hobj] at hperm
  exact absurd hperm.length_eq (by decide)

end Topology
