import Runos.Lib.ShortestPath
import Runos.Topology.Proof.Topology
import Runos.Topology.Route

/-!
# Routes are shortest paths

`switchGraph links`: the switches, neighbours when a link joins them. It is the graph of `Topology`
without the numbers of the vertices, so the distances are the same (`dist_vertices`). A route that
`computeRoute` returns is a walk along links (`IsRoute`) of the least length, if Dijkstra's algorithm
finds shortest paths (`computeRoute_spec`); where there is no walk it is empty
(`computeRoute_unreachable`). In every topology that the signals lead to (`Reached`) these are the
only cases (`computeRoute_shortest`).
-/

namespace Topology

/-- Dijkstra's algorithm finds shortest paths, where every edge has the weight 1. -/
def Boost.Shortest (boost : Boost) : Prop :=
  ∀ (g : Multigraph UInt64 LinkProperty) (root : Nat), (∀ e ∈ g.edges, e.property.weight = 1) →
    PredecessorMap g.simple root (boost.dijkstra g root)

/-- The switches, joined by the links. -/
def switchGraph (links : List PortPair) : SimpleGraph UInt64 where
  Adj d d' := d ≠ d' ∧ ∃ k ∈ links, k.1.dpid = d ∧ k.2.dpid = d' ∨ k.1.dpid = d' ∧ k.2.dpid = d
  symm := ⟨fun _ _ h => ⟨h.1.symm, h.2.imp fun _ hk => ⟨hk.1, hk.2.symm⟩⟩⟩
  loopless := ⟨fun _ h => h.1 rfl⟩

/-- From a switch along links to `d`: the ports, out and in. -/
inductive IsRoute (links : List PortPair) (d : UInt64) : UInt64 → List SwitchAndPort → Prop
  | nil : IsRoute links d d []
  | cons {out in_ : SwitchAndPort} {route : List SwitchAndPort} :
      (out, in_) ∈ links ∨ (in_, out) ∈ links → IsRoute links d in_.dpid route →
      IsRoute links d out.dpid (out :: in_ :: route)

namespace TopologyImpl

variable {m : TopologyImpl} {d d' : UInt64} {u v : Nat}

/-! ## Vertices and switches -/

/-- The switch of a vertex. -/
def switchOf (h : m.Ok) : m.graph.simple →g switchGraph m.links where
  toFun v := (m.graph.vertices[v]?).getD 0
  map_rel' := by
    intro u v hadj
    obtain ⟨hne, e, he, hj⟩ := hadj
    obtain ⟨hs, ht⟩ := h.ends e he
    have hswitches : ((m.graph.vertices[e.u]?).getD 0, (m.graph.vertices[e.v]?).getD 0) =
        (e.property.source.dpid, e.property.target.dpid) := by
      rw [h.labelled _ _ hs, h.labelled _ _ ht]
      rfl
    obtain ⟨hu, hv⟩ := Prod.mk.inj hswitches
    have hdiff : e.property.source.dpid = e.property.target.dpid → e.u = e.v := by
      intro heq
      rw [heq, ht] at hs
      exact (Option.some.inj hs).symm
    have hk := mem_links he
    rcases hj with ⟨rfl, rfl⟩ | ⟨rfl, rfl⟩
    · exact ⟨fun heq => hne (hdiff (hu.symm.trans (heq.trans hv))), _, hk, .inl ⟨hu.symm, hv.symm⟩⟩
    · exact ⟨fun heq => hne (hdiff (hu.symm.trans (heq.symm.trans hv))).symm, _, hk,
        .inr ⟨hu.symm, hv.symm⟩⟩

/-- The vertex of a switch. -/
def vertexOf (h : m.Ok) : switchGraph m.links →g m.graph.simple where
  toFun d := (m.vertexMap d).getD 0
  map_rel' := by
    intro d d' hadj
    obtain ⟨hne, k, hk, hj⟩ := hadj
    obtain ⟨e, he, rfl⟩ := List.mem_map.1 hk
    obtain ⟨hs, ht⟩ := h.ends e he
    have hdiff : e.u = e.v → e.property.source.dpid = e.property.target.dpid := by
      intro heq
      rw [heq] at hs
      exact h.labelled.inj hs ht
    rcases hj with ⟨rfl, rfl⟩ | ⟨rfl, rfl⟩
    · show _ ≠ _ ∧ _
      simp only [LinkProperty.ports, hs, ht, Option.getD_some]
      exact ⟨fun heq => hne (hdiff heq), e, he, .inl ⟨rfl, rfl⟩⟩
    · show _ ≠ _ ∧ _
      simp only [LinkProperty.ports, hs, ht, Option.getD_some]
      exact ⟨fun heq => hne (hdiff heq.symm).symm, e, he, .inr ⟨rfl, rfl⟩⟩

theorem vertexOf_eq (h : m.Ok) (hd : m.vertexMap d = some v) : vertexOf h d = v := by
  show (m.vertexMap d).getD 0 = v
  rw [hd]
  rfl

theorem switchOf_eq (h : m.Ok) (hd : m.vertexMap d = some v) : switchOf h v = d := by
  show (m.graph.vertices[v]?).getD 0 = d
  rw [h.labelled d v hd]
  rfl

/-- The vertices of two switches are as far apart as the switches. -/
theorem dist_vertices (h : m.Ok) (hu : m.vertexMap d = some u) (hv : m.vertexMap d' = some v)
    (hr : (switchGraph m.links).Reachable d d') :
    m.graph.simple.Reachable u v ∧
      m.graph.simple.dist u v = (switchGraph m.links).dist d d' := by
  have hreach := hr.map (vertexOf h)
  have hdist := dist_eq_of_hom (vertexOf h) (switchOf h) (u := d) (v := d')
    (by rw [vertexOf_eq h hu, switchOf_eq h hu]) (by rw [vertexOf_eq h hv, switchOf_eq h hv]) hr
  rw [vertexOf_eq h hu, vertexOf_eq h hv] at hreach hdist
  exact ⟨hreach, hdist⟩

/-- Vertices that are joined belong to switches that are. -/
theorem reachable_switches (h : m.Ok) (hu : m.vertexMap d = some u) (hv : m.vertexMap d' = some v)
    (hr : m.graph.simple.Reachable u v) : (switchGraph m.links).Reachable d d' := by
  have hmap := hr.map (switchOf h)
  rwa [switchOf_eq h hu, switchOf_eq h hv] at hmap

end TopologyImpl

/-! ## The loop -/

section
variable {m : TopologyImpl} {x d : UInt64} {v w root fuel : Nat} {p : Nat → Nat}
  {edge : EdgeChoice LinkProperty}

/-- The link to a neighbour is found, and no assertion fails. -/
theorem routeStep_spec (ndebug : Bool) (edge : EdgeChoice LinkProperty) (h : m.Ok)
    (hx : m.vertexMap x = some v) (hadj : m.graph.simple.Adj v w) :
    ∃ out in_, routeStep ndebug edge m.graph v w = .ok (out, in_) ∧ out.dpid = x ∧
      m.vertexMap in_.dpid = some w ∧ ((out, in_) ∈ m.links ∨ (in_, out) ∈ m.links) := by
  obtain ⟨hne, e₀, he₀, hj₀⟩ := hadj
  unfold routeStep
  cases hlink : m.graph.edge edge v w with
  | none =>
    have hnone := Multigraph.edge_eq_none hlink
    have hmem : e₀.property ∈ m.graph.between v w := Multigraph.mem_between.2 ⟨e₀, he₀, hj₀, rfl⟩
    rw [hnone] at hmem
    cases hmem
  | some link =>
    obtain ⟨e, he, hj, rfl⟩ := Multigraph.mem_between.1 (Multigraph.edge_mem hlink)
    obtain ⟨hs, ht⟩ := h.ends e he
    have hk := TopologyImpl.mem_links he
    simp only [h.labelled x v hx]
    rcases hj with ⟨rfl, rfl⟩ | ⟨rfl, rfl⟩
    · have hsx : e.property.source.dpid = x := h.labelled.inj hs hx
      rw [if_pos hsx, if_neg (by simp [h.labelled _ _ ht])]
      exact ⟨_, _, rfl, hsx, ht, .inl hk⟩
    · have htx : e.property.target.dpid = x := h.labelled.inj ht hx
      have hsx : e.property.source.dpid ≠ x := by
        intro heq
        rw [heq, hx] at hs
        exact hne (Option.some.inj hs)
      rw [if_neg hsx, if_neg (by simp [h.labelled _ _ hs, htx])]
      exact ⟨_, _, rfl, htx, hs, .inr hk⟩

/-- The loop follows the predecessors to the root. -/
theorem routeLoop_spec (ndebug : Bool) (edge : EdgeChoice LinkProperty) (h : m.Ok)
    (hp : PredecessorMap m.graph.simple root p) (hd : m.vertexMap d = some root) (n : Nat) :
    ∀ v x fuel, m.vertexMap x = some v → m.graph.simple.Reachable v root →
      m.graph.simple.dist v root = n → n < fuel →
      ∃ route, routeLoop ndebug edge m.graph p fuel v = some (.ok route) ∧
        IsRoute m.links d x route ∧ route.length = 2 * n := by
  induction n with
  | zero =>
    intro v x fuel hx hr hdist hfuel
    obtain ⟨fuel, rfl⟩ : ∃ k, fuel = k + 1 := ⟨fuel - 1, by omega⟩
    obtain rfl : v = root := hr.dist_eq_zero_iff.1 hdist
    obtain rfl : x = d := h.labelled.inj hx hd
    refine ⟨[], ?_, .nil, rfl⟩
    unfold routeLoop
    rw [if_pos hp.at_root.symm]
  | succ n ih =>
    intro v x fuel hx hr hdist hfuel
    obtain ⟨fuel, rfl⟩ : ∃ k, fuel = k + 1 := ⟨fuel - 1, by omega⟩
    have hne : v ≠ root := by
      intro heq
      subst heq
      rw [SimpleGraph.dist_self] at hdist
      omega
    have hadj := hp.adj v hr hne
    have hcloser := hp.dist v hr hne
    obtain ⟨out, in_, hstep, rfl, hin, hk⟩ := routeStep_spec ndebug edge h hx hadj
    obtain ⟨route, hroute, hwalk, hlen⟩ := ih (p v) in_.dpid fuel hin (hadj.symm.reachable.trans hr)
      (by omega) (by omega)
    refine ⟨out :: in_ :: route, ?_, .cons hk hwalk, by simp only [List.length_cons]; omega⟩
    unfold routeLoop
    rw [if_neg hadj.1, hstep]
    simp only [hroute, Option.map_some, Except.map]

end

/-! ## Routes -/

section
variable {links : List PortPair} {d x y : UInt64} {route : List SwitchAndPort}
  {out in_ : SwitchAndPort}

/-- The far end of a link is at most one step nearer. -/
theorem dist_le_of_link (hk : (out, in_) ∈ links ∨ (in_, out) ∈ links)
    (hr : (switchGraph links).Reachable in_.dpid d) :
    (switchGraph links).Reachable out.dpid d ∧
      (switchGraph links).dist out.dpid d ≤ (switchGraph links).dist in_.dpid d + 1 := by
  by_cases hne : out.dpid = in_.dpid
  · rw [hne]
    exact ⟨hr, Nat.le_succ _⟩
  · have hadj : (switchGraph links).Adj out.dpid in_.dpid := by
      refine ⟨hne, ?_⟩
      rcases hk with hk | hk
      · exact ⟨_, hk, .inl ⟨rfl, rfl⟩⟩
      · exact ⟨_, hk, .inr ⟨rfl, rfl⟩⟩
    obtain ⟨p, hp⟩ := hr.exists_walk_length_eq_dist
    have hle := SimpleGraph.dist_le (p.cons hadj)
    rw [SimpleGraph.Walk.length_cons, hp] at hle
    exact ⟨hadj.reachable.trans hr, hle⟩

/-- No route is shorter than the distance. -/
theorem IsRoute.dist_le (h : IsRoute links d x route) :
    (switchGraph links).Reachable x d ∧ 2 * (switchGraph links).dist x d ≤ route.length := by
  induction h with
  | nil => exact ⟨.refl d, by rw [SimpleGraph.dist_self]; exact Nat.zero_le _⟩
  | cons hk _ ih =>
    obtain ⟨hr, hlen⟩ := ih
    obtain ⟨hreach, hle⟩ := dist_le_of_link hk hr
    refine ⟨hreach, ?_⟩
    simp only [List.length_cons]
    omega

/-- The first link of a shortest route leads one step nearer. -/
theorem IsRoute.first (h : IsRoute links d x route)
    (hlen : route.length = 2 * (switchGraph links).dist x d) (hne : x ≠ d) :
    ∃ out in_ rest, route = out :: in_ :: rest ∧ out.dpid = x ∧
      ((out, in_) ∈ links ∨ (in_, out) ∈ links) ∧ (switchGraph links).Reachable in_.dpid d ∧
      (switchGraph links).dist x d = (switchGraph links).dist in_.dpid d + 1 := by
  cases h with
  | nil => exact absurd rfl hne
  | @cons out in_ rest hk hrest =>
    obtain ⟨hr, hle⟩ := hrest.dist_le
    obtain ⟨-, hstep⟩ := dist_le_of_link hk hr
    refine ⟨out, in_, rest, rfl, rfl, hk, hr, ?_⟩
    simp only [List.length_cons] at hlen
    omega

end

/-- **A route is a shortest path along links.** -/
theorem computeRoute_spec {boost : Boost} (hb : boost.Shortest) (ndebug : Bool) {s : Topology}
    (hok : s.m.Ok) (hw : ∀ e ∈ s.m.graph.edges, e.property.weight = 1) {x d : UInt64} {fuel : Nat}
    (hr : (switchGraph s.m.links).Reachable x d)
    (hf : (switchGraph s.m.links).dist x d < fuel) :
    ∃ s' route, s.computeRoute boost ndebug fuel x d = some (.ok (s', route)) ∧ s'.m.Ok ∧
      s'.m.graph.edges = s.m.graph.edges ∧ IsRoute s.m.links d x route ∧
      route.length = 2 * (switchGraph s.m.links).dist x d := by
  obtain ⟨m₁, m, v, root, hv, hroot, hok', he, hmv, hmr, -⟩ :=
    TopologyImpl.vertices_spec hok ndebug x d
  have hlinks : m.links = s.m.links := TopologyImpl.links_congr he
  rw [← hlinks] at hr hf ⊢
  obtain ⟨hreach, hdist⟩ := TopologyImpl.dist_vertices hok' hmv hmr hr
  have hp := hb m.graph root (by rw [he]; exact hw)
  obtain ⟨route, hroute, hwalk, hlen⟩ :=
    routeLoop_spec ndebug boost.edge hok' hp hmr _ v x fuel hmv hreach rfl (hdist ▸ hf)
  refine ⟨{ s with m }, route, ?_, hok', he, hwalk, hdist ▸ hlen⟩
  unfold computeRoute routeEnds
  simp only [hv, hroot, bind, Except.bind, hroute, Option.map_some, Except.map]

/-- Without a path there is no route. -/
theorem computeRoute_unreachable {boost : Boost} (hb : boost.Shortest) (ndebug : Bool)
    {s : Topology} (hok : s.m.Ok) (hw : ∀ e ∈ s.m.graph.edges, e.property.weight = 1)
    {x d : UInt64} (hr : ¬ (switchGraph s.m.links).Reachable x d) (fuel : Nat) :
    ∃ s', s.computeRoute boost ndebug (fuel + 1) x d = some (.ok (s', [])) := by
  obtain ⟨m₁, m, v, root, hv, hroot, hok', he, hmv, hmr, -⟩ :=
    TopologyImpl.vertices_spec hok ndebug x d
  have hp := hb m.graph root (by rw [he]; exact hw)
  have hstay : boost.dijkstra m.graph root v = v := by
    apply hp.unreachable v
    intro hvr
    apply hr
    rw [← TopologyImpl.links_congr he]
    exact TopologyImpl.reachable_switches hok' hmv hmr hvr
  refine ⟨{ s with m }, ?_⟩
  unfold computeRoute routeEnds
  simp only [hv, hroot, bind, Except.bind]
  unfold routeLoop
  rw [if_pos hstay.symm]
  rfl

/-- Whatever the route, the switches may be new but the edges are the same. -/
theorem computeRoute_frame {boost : Boost} {ndebug : Bool} {s s' : Topology} (hok : s.m.Ok)
    {x d : UInt64} {fuel : Nat} {route : List SwitchAndPort}
    (h : s.computeRoute boost ndebug fuel x d = some (.ok (s', route))) :
    s'.m.Ok ∧ s'.m.graph.edges = s.m.graph.edges := by
  obtain ⟨m₁, m, v, root, hv, hroot, hok', he, -⟩ := TopologyImpl.vertices_spec hok ndebug x d
  unfold computeRoute routeEnds at h
  simp only [hv, hroot, bind, Except.bind] at h
  obtain ⟨r, -, hr⟩ := Option.map_eq_some_iff.1 h
  cases r with
  | error fault => cases hr
  | ok route' =>
    cases hr
    exact ⟨hok', he⟩

/-! ## Every topology -/

/-- The topologies that the signals lead to, whatever routes are computed in between. -/
inductive Reached (boost : Boost) (ndebug : Bool) : Topology → Prop
  | init : Reached boost ndebug .init
  | receive {s s' : Topology} (x : Signal PortPair) :
      Reached boost ndebug s → s.receive ndebug x = .ok s' → Reached boost ndebug s'
  | computeRoute {s s' : Topology} {fuel : Nat} {x d : UInt64} {route : List SwitchAndPort} :
      Reached boost ndebug s → s.computeRoute boost ndebug fuel x d = some (.ok (s', route)) →
      Reached boost ndebug s'

/-- The vertices carry their switches, and every edge has the weight 1. -/
theorem Reached.ok {boost : Boost} {ndebug : Bool} {s : Topology} (h : Reached boost ndebug s) :
    s.m.Ok ∧ ∀ e ∈ s.m.graph.edges, e.property.weight = 1 := by
  induction h with
  | init => exact ⟨.init, fun e he => by cases he⟩
  | @receive s s' x _ hstep ih =>
    obtain ⟨hok, hw⟩ := ih
    cases x with
    | up k =>
      obtain ⟨s₁, hs₁, hok', -, hedges, -⟩ := exists_linkDiscovered hok ndebug k
      cases hstep.symm.trans hs₁
      exact ⟨hok', fun e he => (hedges e he).elim (hw e) id⟩
    | down k =>
      obtain ⟨s₁, hs₁, hok', -, hedges, -⟩ := exists_linkBroken hok ndebug k
      cases hstep.symm.trans hs₁
      exact ⟨hok', fun e he => hw e (hedges e he)⟩
  | computeRoute _ hroute ih =>
    obtain ⟨hok', he⟩ := computeRoute_frame ih.1 hroute
    exact ⟨hok', by rw [he]; exact ih.2⟩

/-- A shortest path needs no more links than there are. -/
theorem dist_le_links {s : Topology} (hok : s.m.Ok) {x d : UInt64}
    (hr : (switchGraph s.m.links).Reachable x d) :
    (switchGraph s.m.links).dist x d ≤ s.m.graph.edges.length := by
  obtain ⟨m₁, m, v, root, -, -, hok', he, hmv, hmr, -⟩ := TopologyImpl.vertices_spec hok true x d
  rw [← TopologyImpl.links_congr he] at hr ⊢
  obtain ⟨hreach, hdist⟩ := TopologyImpl.dist_vertices hok' hmv hmr hr
  rw [← hdist, ← he]
  exact Multigraph.dist_le_length_edges hreach

/-- **The route is a shortest path of live links**, and it is empty exactly when it starts where it
ends or there is no path. No assertion fails; a pass for each link, and one more, is enough. -/
theorem computeRoute_shortest {boost : Boost} (hb : boost.Shortest) {ndebug : Bool} {s : Topology}
    (hs : Reached boost ndebug s) (x d : UInt64) {fuel : Nat}
    (hf : s.m.graph.edges.length < fuel) :
    ∃ s' route, s.computeRoute boost ndebug fuel x d = some (.ok (s', route)) ∧
      ((∃ path, IsRoute s.m.links d x path) → IsRoute s.m.links d x route ∧
        ∀ path, IsRoute s.m.links d x path → route.length ≤ path.length) ∧
      (route = [] ↔ x = d ∨ ¬ ∃ path, IsRoute s.m.links d x path) := by
  obtain ⟨hok, hw⟩ := hs.ok
  by_cases hr : (switchGraph s.m.links).Reachable x d
  · have hdist : (switchGraph s.m.links).dist x d < fuel :=
      Nat.lt_of_le_of_lt (dist_le_links hok hr) hf
    obtain ⟨s', route, hroute, -, -, hwalk, hlen⟩ := computeRoute_spec hb ndebug hok hw hr hdist
    refine ⟨s', route, hroute, fun _ => ⟨hwalk, fun path hpath => ?_⟩, ?_⟩
    · rw [hlen]
      exact hpath.dist_le.2
    · constructor
      · intro hnil
        rw [hnil, List.length_nil] at hlen
        exact .inl (hr.dist_eq_zero_iff.1 (by omega))
      · intro h
        rcases h with rfl | h
        · rw [SimpleGraph.dist_self] at hlen
          exact List.length_eq_zero_iff.1 hlen
        · exact absurd ⟨route, hwalk⟩ h
  · have hno : ¬ ∃ path, IsRoute s.m.links d x path := by
      intro h
      obtain ⟨path, hpath⟩ := h
      exact hr hpath.dist_le.1
    obtain ⟨n, rfl⟩ : ∃ n, fuel = n + 1 := ⟨fuel - 1, by omega⟩
    obtain ⟨s', hroute⟩ := computeRoute_unreachable hb ndebug hok hw hr n
    exact ⟨s', [], hroute, fun h => absurd h hno, iff_of_true rfl (.inr hno)⟩

/-- Two switches are joined, and a third is not known. -/
theorem computeRoute_shortest_joined : ∃ s, Reached ⟨Multigraph.breadthFirst, .first⟩ false s ∧
    s.m.links = [(⟨1, 1⟩, ⟨2, 2⟩)] ∧ ∀ x d, ∃ s' route,
      s.computeRoute ⟨Multigraph.breadthFirst, .first⟩ false 2 x d = some (.ok (s', route)) ∧
      ((∃ path, IsRoute s.m.links d x path) → IsRoute s.m.links d x route ∧
        ∀ path, IsRoute s.m.links d x path → route.length ≤ path.length) ∧
      (route = [] ↔ x = d ∨ ¬ ∃ path, IsRoute s.m.links d x path) := by
  obtain ⟨s, hs, -, hlinks, -⟩ := exists_linkDiscovered (s := .init) .init false (⟨1, 1⟩, ⟨2, 2⟩)
  have hone : s.m.links = [(⟨1, 1⟩, ⟨2, 2⟩)] := hlinks
  have hedges : s.m.graph.edges.length < 2 := by
    have := congrArg List.length hone
    rw [TopologyImpl.links, List.length_map] at this
    rw [this]
    decide
  have hreached : Reached ⟨Multigraph.breadthFirst, .first⟩ false s :=
    .receive (.up (⟨1, 1⟩, ⟨2, 2⟩)) .init hs
  exact ⟨s, hreached, hone, fun x d =>
    computeRoute_shortest (fun g root _ => Multigraph.breadthFirst_spec g root) hreached x d hedges⟩

end Topology
