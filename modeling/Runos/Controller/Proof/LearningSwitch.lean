import Runos.Controller.LearningSwitch
import Runos.Topology.Proof.Route

/-!
# Hop by hop to a host

A packet to a host that the `HostsDatabase` knows leaves every switch by the port that the handler of
the switch decides on. Every handler computes a route of its own, and may choose among shortest paths
and parallel links as it likes, anew at every switch; only the first port of the route is used
(`forwarding_spec`). The next switch is one step nearer to the host, so the packet arrives
(`forwarding_arrives`).
-/

namespace Controller

open Topology

namespace LearningSwitch

/-- The port of a unicast decision. -/
def outPort (decision : Decision) : Option UInt32 :=
  match decision.data with
  | .unicast port => some (.ofNat port)
  | _ => none

/-- The other end of the link at a port. -/
def across (links : List PortPair) (x : SwitchAndPort) : Option SwitchAndPort :=
  links.findSome? fun k => if k.1 = x then some k.2 else if k.2 = x then some k.1 else none

/-- The ports by which a packet leaves the switches it visits: it comes in at a port, and goes over
`n` links. What Boost does may depend on the switch. -/
def departures (boost : Nat → Boost) (ndebug : Bool) (fuel : Nat) (ethSrc ethDst : EthAddr)
    (decision : Decision) : Nat → State → SwitchAndPort → Option (List SwitchAndPort)
  | n, s, x =>
    match forwarding (boost n) ndebug fuel s x.dpid ⟨x.port, ethSrc, ethDst⟩ decision with
    | some (.ok (s, made)) => do
      let port ← outPort made
      match n with
      | 0 => some [⟨x.dpid, port⟩]
      | n + 1 => do
        let next ← across s.topology.m.links ⟨x.dpid, port⟩
        let rest ← departures boost ndebug fuel ethSrc ethDst decision n s next
        some (⟨x.dpid, port⟩ :: rest)
    | _ => none

/-- Every port is in at most one of the links. -/
def PortsOnce (links : List PortPair) : Prop := ∀ k ∈ links, ∀ k' ∈ links, k ≠ k' → Apart k k'

instance (links : List PortPair) : Decidable (PortsOnce links) :=
  inferInstanceAs (Decidable (∀ k ∈ links, ∀ k' ∈ links, (k ≠ k' → Apart k k')))

/-- The topology with these links discovered. -/
def discoverAll (ndebug : Bool) (links : List PortPair) : Except Topology.Fault Topology :=
  links.foldlM (fun s k => s.linkDiscovered ndebug k.1 k.2) .init

/-! ## The topology -/

section
variable {links : List PortPair} {x y : SwitchAndPort} {ndebug : Bool}

/-- At the port of a link, the other end is reached. -/
theorem across_eq (hl : PortsOnce links) (hp : ∀ k ∈ links, k.1.dpid ≠ k.2.dpid)
    (hk : (x, y) ∈ links ∨ (y, x) ∈ links) : across links x = some y := by
  unfold across
  cases hf : links.findSome? fun k =>
      if k.1 = x then some k.2 else if k.2 = x then some k.1 else none with
  | none =>
    rw [List.findSome?_eq_none_iff] at hf
    rcases hk with hk | hk
    · simpa using hf _ hk
    · have := hf _ hk
      split at this
      · cases this
      · simp at this
  | some z =>
    obtain ⟨k, hmem, hz⟩ := List.exists_of_findSome?_eq_some hf
    -- the links have the port in common
    have hends : ∀ k' ∈ links, (x = k'.1 ∨ x = k'.2) → (x = k.1 ∨ x = k.2) → k' = k := by
      intro k' hk' hx' hx
      by_contra hne
      exact (hl k' hk' k hmem hne).not_port hx' hx
    have hproper := hp k hmem
    split at hz
    · rename_i hfst
      cases hz
      rcases hk with hk | hk
      · rw [← hends _ hk (.inl rfl) (.inl hfst.symm)]
      · have heq := hends _ hk (.inr rfl) (.inl hfst.symm)
        rw [← heq] at hfst hproper
        exact absurd (congrArg SwitchAndPort.dpid hfst) hproper
    · split at hz
      · rename_i hsnd
        cases hz
        rcases hk with hk | hk
        · have heq := hends _ hk (.inl rfl) (.inr hsnd.symm)
          rw [← heq] at hsnd hproper
          exact absurd (congrArg SwitchAndPort.dpid hsnd).symm hproper
        · rw [← hends _ hk (.inr rfl) (.inr hsnd.symm)]
      · cases hz

/-- The graph of the links: loops are left out, and every edge has the weight 1. -/
theorem discoverAll_spec (ndebug : Bool) (links : List PortPair) :
    ∃ s, discoverAll ndebug links = .ok s ∧ s.m.Ok ∧
      s.m.links = links.filter (fun k => k.1.dpid ≠ k.2.dpid) ∧
      ∀ e ∈ s.m.graph.edges, e.property.weight = 1 := by
  have hfold : ∀ (links : List PortPair) (s₀ : Topology), s₀.m.Ok →
      (∀ e ∈ s₀.m.graph.edges, e.property.weight = 1) →
      ∃ s, links.foldlM (fun s k => s.linkDiscovered ndebug k.1 k.2) s₀ = .ok s ∧ s.m.Ok ∧
        s.m.links = s₀.m.links ++ links.filter (fun k => k.1.dpid ≠ k.2.dpid) ∧
        ∀ e ∈ s.m.graph.edges, e.property.weight = 1 := by
    intro links
    induction links with
    | nil => exact fun s₀ hok hw => ⟨s₀, rfl, hok, by simp, hw⟩
    | cons k links ih =>
      intro s₀ hok hw
      obtain ⟨s₁, hs₁, hok₁, hlinks₁, hw₁, -⟩ := exists_linkDiscovered hok ndebug k
      obtain ⟨s, hs, hok', hlinks, hw'⟩ := ih s₁ hok₁ fun e he => (hw₁ e he).elim (hw e) id
      refine ⟨s, ?_, hok', ?_, hw'⟩
      · rw [List.foldlM_cons, hs₁]
        exact hs
      · rw [hlinks, hlinks₁]
        by_cases hk : k.1.dpid = k.2.dpid
        · simp [hk]
        · simp [hk]
  obtain ⟨s, hs, hok, hlinks, hw⟩ := hfold links .init .init fun e he => by cases he
  exact ⟨s, hs, hok, hlinks, hw⟩

/-! ## One switch -/

theorem query_learn {db : HostsDatabase} {mac : EthAddr} {t : SwitchAndPort}
    (h : db.query mac = some t) (dpid : UInt64) (inPort : UInt32) (mac' : EthAddr) :
    (db.learn dpid inPort mac').query mac = some t := by
  unfold HostsDatabase.learn
  split
  · exact h
  · split
    · exact h
    · rename_i hnew
      unfold HostsDatabase.query at h ⊢
      rw [Table.lookup_insert_eq, if_neg]
      · exact h
      · intro heq
        subst heq
        rw [h] at hnew
        exact hnew rfl

theorem outPort_unicast {decision : Decision} (hu : decision.data = .undefined) (port : UInt32)
    (idle hard : Nat) : ∃ made, timed idle hard (decision.unicast port.toNat) = .ok made ∧
      outPort made = some port := by
  unfold timed Decision.unicast
  simp only [hu]
  refine ⟨_, rfl, ?_⟩
  simp [outPort, Decision.withHardTimeout, Decision.withIdleTimeout]

variable {s : State} {boost : Boost} {decision : Decision} {ethDst : EthAddr} {d : UInt64}
  {p : UInt32} {fuel : Nat}

/-- A graph of links without loops, whose edges have the weight 1. -/
structure OnLinks (links : List PortPair) (s : Topology) : Prop where
  ok : s.m.Ok
  links : s.m.links = links
  weights : ∀ e ∈ s.m.graph.edges, e.property.weight = 1

/-- **The decision at a switch**: the port of the host, or the port of a link to a switch that is
one step nearer. -/
theorem forwarding_spec (hb : boost.Shortest) (ndebug : Bool) (ht : OnLinks links s.topology)
    (hq : s.db.query ethDst = some ⟨d, p⟩) (hu : decision.data = .undefined)
    (hr : (switchGraph links).Reachable x.dpid d) (hf : (switchGraph links).dist x.dpid d < fuel)
    (ethSrc : EthAddr) :
    ∃ s' made port,
      forwarding boost ndebug fuel s x.dpid ⟨x.port, ethSrc, ethDst⟩ decision =
        some (.ok (s', made)) ∧
      outPort made = some port ∧ OnLinks links s'.topology ∧ s'.db.query ethDst = some ⟨d, p⟩ ∧
      (x.dpid = d → port = p) ∧
      (x.dpid ≠ d → ∃ y, ((⟨x.dpid, port⟩, y) ∈ links ∨ (y, ⟨x.dpid, port⟩) ∈ links) ∧
        (switchGraph links).Reachable y.dpid d ∧
        (switchGraph links).dist x.dpid d = (switchGraph links).dist y.dpid d + 1) := by
  have hlinks := ht.links
  have hr' : (switchGraph s.topology.m.links).Reachable x.dpid d := by rwa [hlinks]
  have hf' : (switchGraph s.topology.m.links).dist x.dpid d < fuel := by rwa [hlinks]
  obtain ⟨topology, route, hroute, hok, he, hwalk, hlen⟩ :=
    computeRoute_spec hb ndebug ht.ok ht.weights hr' hf'
  rw [hlinks] at hwalk hlen
  have ht' : OnLinks links topology :=
    ⟨hok, (TopologyImpl.links_congr he).trans hlinks, by rw [he]; exact ht.weights⟩
  have hq' := query_learn hq x.dpid x.port ethSrc
  have hrun : ∀ made, forward x.dpid ⟨d, p⟩ route decision = .ok made →
      forwarding boost ndebug fuel s x.dpid ⟨x.port, ethSrc, ethDst⟩ decision =
        some (.ok (⟨topology, s.db.learn x.dpid x.port ethSrc⟩, made)) := by
    intro made hmade
    unfold forwarding
    simp only [hq', hroute, hmade, Except.map]
  by_cases hd : x.dpid = d
  · -- the route is empty
    have hnil : route = [] := by
      rw [hd, SimpleGraph.dist_self] at hlen
      exact List.length_eq_zero_iff.1 hlen
    obtain ⟨made, hmade, hport⟩ := outPort_unicast hu p 60 1800
    refine ⟨_, made, p, hrun made ?_, hport, ht', hq', fun _ => rfl, fun hne => absurd hd hne⟩
    unfold forward
    rw [hnil]
    simp only [hd, if_true]
    exact hmade
  · obtain ⟨out, in_, rest, heq, hout, hk, hreach, hdist⟩ := hwalk.first hlen hd
    obtain ⟨made, hmade, hport⟩ := outPort_unicast hu out.port 60 1800
    refine ⟨_, made, out.port, hrun made ?_, hport, ht', hq', fun h => absurd h hd, fun _ => ?_⟩
    · unfold forward
      rw [heq]
      exact hmade
    · rw [← hout]
      exact ⟨in_, hk, hreach, hout ▸ hdist⟩

/-- **The way to a host**: the distance to its switch goes down by one from switch to switch. -/
theorem departures_spec {boost : Nat → Boost} (hb : ∀ i, (boost i).Shortest) (ndebug : Bool)
    (hl : PortsOnce links) (hp : ∀ k ∈ links, k.1.dpid ≠ k.2.dpid) (hu : decision.data = .undefined)
    (ethSrc : EthAddr) (n : Nat) :
    ∀ (s : State) (x : SwitchAndPort), OnLinks links s.topology →
      s.db.query ethDst = some ⟨d, p⟩ → (switchGraph links).Reachable x.dpid d →
      (switchGraph links).dist x.dpid d = n → n < fuel →
      ∃ l, departures boost ndebug fuel ethSrc ethDst decision n s x = some l ∧
        l.map (fun y => (switchGraph links).dist y.dpid d) = (List.range (n + 1)).reverse ∧
        l.head?.map (·.dpid) = some x.dpid ∧ l.getLast? = some ⟨d, p⟩ := by
  induction n with
  | zero =>
    intro s x ht hq hr hdist hf
    obtain ⟨s', made, port, hrun, hport, -, -, hhost, -⟩ :=
      forwarding_spec (hb 0) ndebug ht hq hu hr (hdist ▸ hf) ethSrc
    have hd : x.dpid = d := hr.dist_eq_zero_iff.1 hdist
    refine ⟨[⟨x.dpid, port⟩], ?_, ?_, rfl, ?_⟩
    · unfold departures
      simp only [hrun, hport]
      rfl
    · simp [hdist]
    · rw [hhost hd, hd]
      rfl
  | succ n ih =>
    intro s x ht hq hr hdist hf
    obtain ⟨s', made, port, hrun, hport, ht', hq', -, hnext⟩ :=
      forwarding_spec (hb (n + 1)) ndebug ht hq hu hr (hdist ▸ hf) ethSrc
    have hd : x.dpid ≠ d := by
      intro heq
      rw [heq, SimpleGraph.dist_self] at hdist
      omega
    obtain ⟨y, hk, hreach, hstep⟩ := hnext hd
    obtain ⟨l, hl', hdists, hhead, hlast⟩ := ih s' y ht' hq' hreach (by omega) (by omega)
    refine ⟨⟨x.dpid, port⟩ :: l, ?_, ?_, rfl, ?_⟩
    · unfold departures
      simp only [hrun, hport, bind, Option.bind, ht'.links, across_eq hl hp hk, hl']
    · rw [List.map_cons, hdists, hdist, List.range_succ (n := n + 1), List.reverse_append]
      rfl
    · cases l with
      | nil => cases hlast
      | cons z l => rw [List.getLast?_cons_cons, hlast]

end

/-- **Forwarding arrives**: in every topology of links, from every switch that is connected to the
switch of a known host, a packet visits no switch twice, reaches the host's switch after as many
links as the distance, and leaves it by the host's port. -/
theorem forwarding_arrives {boost : Nat → Boost} (hb : ∀ i, (boost i).Shortest) {ndebug : Bool}
    {links : List PortPair} (hl : PortsOnce links) {topology : Topology}
    (ht : discoverAll ndebug links = .ok topology) {db : HostsDatabase} {ethDst : EthAddr}
    {d : UInt64} {p : UInt32} (hq : db.query ethDst = some ⟨d, p⟩) {decision : Decision}
    (hu : decision.data = .undefined) {x : SwitchAndPort} {fuel : Nat}
    (hr : (switchGraph topology.m.links).Reachable x.dpid d)
    (hf : (switchGraph topology.m.links).dist x.dpid d < fuel) (ethSrc : EthAddr) :
    ∃ l, departures boost ndebug fuel ethSrc ethDst decision
        ((switchGraph topology.m.links).dist x.dpid d) ⟨topology, db⟩ x = some l ∧
      l.length = (switchGraph topology.m.links).dist x.dpid d + 1 ∧
      (l.map (·.dpid)).Nodup ∧ l.head?.map (·.dpid) = some x.dpid ∧
      l.getLast? = some ⟨d, p⟩ := by
  obtain ⟨s, hs, hok, hlinks, hw⟩ := discoverAll_spec ndebug links
  cases hs.symm.trans ht
  have hl' : PortsOnce topology.m.links := by
    rw [hlinks]
    intro k hk k' hk' hne
    exact hl k (List.mem_of_mem_filter hk) k' (List.mem_of_mem_filter hk') hne
  have hp : ∀ k ∈ topology.m.links, k.1.dpid ≠ k.2.dpid := by
    rw [hlinks]
    intro k hk
    simpa using (List.mem_filter.1 hk).2
  obtain ⟨l, hrun, hdists, hhead, hlast⟩ := departures_spec hb ndebug hl' hp hu ethSrc _
    ⟨topology, db⟩ x ⟨hok, rfl, hw⟩ hq hr rfl hf
  refine ⟨l, hrun, ?_, ?_, hhead, hlast⟩
  · have := congrArg List.length hdists
    simpa using this
  · have hnodup : (l.map fun y => (switchGraph topology.m.links).dist y.dpid d).Nodup := by
      rw [hdists, List.nodup_reverse]
      exact List.nodup_range
    refine List.Nodup.of_map (fun d' => (switchGraph topology.m.links).dist d' d) ?_
    rwa [List.map_map]

/-- Breadth-first search, and the edge that was added first. -/
def searching : Boost := ⟨Multigraph.breadthFirst, .first⟩

theorem searching_shortest : searching.Shortest :=
  fun g root _ => Multigraph.breadthFirst_spec g root

/-- Three switches in a row. -/
def rowLinks : List PortPair := [(⟨1, 1⟩, ⟨2, 1⟩), (⟨2, 2⟩, ⟨3, 1⟩)]

theorem dist_row : (switchGraph rowLinks).Reachable 1 3 ∧ (switchGraph rowLinks).dist 1 3 < 3 := by
  have h12 : (switchGraph rowLinks).Adj 1 2 := ⟨by decide, _, List.mem_cons_self, .inl ⟨rfl, rfl⟩⟩
  have h23 : (switchGraph rowLinks).Adj 2 3 :=
    ⟨by decide, _, List.mem_cons_of_mem _ List.mem_cons_self, .inl ⟨rfl, rfl⟩⟩
  have hle := SimpleGraph.dist_le (.cons h12 (.cons h23 .nil))
  exact ⟨h12.reachable.trans h23.reachable, Nat.lt_succ_of_le hle⟩

/-- A host at the end of a row of switches is reached from the other end. -/
theorem forwarding_arrives_row : ∃ topology, discoverAll false rowLinks = .ok topology ∧
    ∃ l, departures (fun _ => searching) false 3 5 6 {}
        ((switchGraph topology.m.links).dist 1 3)
        ⟨topology, HostsDatabase.init.learn 3 7 6⟩ ⟨1, 9⟩ = some l ∧
      l.length = (switchGraph topology.m.links).dist 1 3 + 1 ∧
      (l.map (·.dpid)).Nodup ∧ l.head?.map (·.dpid) = some 1 ∧ l.getLast? = some ⟨3, 7⟩ := by
  obtain ⟨topology, ht, -, hlinks, -⟩ := discoverAll_spec false rowLinks
  have hrow : topology.m.links = rowLinks := hlinks
  exact ⟨topology, ht, forwarding_arrives (x := ⟨1, 9⟩) (fun _ => searching_shortest)
    (by decide) ht (by decide) rfl (hrow ▸ dist_row.1) (hrow ▸ dist_row.2) 5⟩

example : (discoverAll false rowLinks).toOption.bind (fun topology =>
    departures (fun _ => searching) false 3 5 6 {} 2
      ⟨topology, HostsDatabase.init.learn 3 7 6⟩ ⟨1, 9⟩) =
    some [⟨1, 1⟩, ⟨2, 2⟩, ⟨3, 7⟩] := by decide +kernel

end LearningSwitch

end Controller
