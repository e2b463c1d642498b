import Runos.Lib.Forest
import Runos.Topology.Proof.Stp
import Runos.Topology.Proof.Topology

/-!
# Flooding along a spanning forest

Runs of `Topology` and `STP` in which every signal reaches both before the next one
(`Network.Cabled`: the switches of a link are in `switch_list` when it is discovered, its links
break before a switch goes down, and a port is in one live link at most), and nothing is announced
as new that is not: a switch with live links (`NewSwitches`), a link that is live (`NewLinks`). The
edges of the graph are live links then, and the ports of a live link are marked as ports between
switches (`Agrees`): so the computation of the tree leaves just the edges of the tree flooded at
both ends, and none at one (`flooding_spanning_forest`). Without either it need not
(`not_flooding_spanning_forest`): `STP` throws the table of the switch away, and `Topology` adds a
second edge.
-/

namespace Topology

open Multigraph Signal Runs

/-- `Topology` and `STP`, with the signals that they have received. -/
structure Network where
  topology : Topology
  stp : STP
  /-- The signals of `LinkDiscovery`, the latest first. -/
  seen : List (Signal PortPair)

namespace Network

def init : Network := ⟨.init, .init, []⟩

inductive Event
  | switchDiscovered (dpid : UInt64)
  | switchUp (dpid : UInt64)
  | switchDown (dpid : UInt64)
  | portUp (dpid : UInt64) (portNo : UInt32)
  | link (signal : Signal PortPair)
  /-- The timer of `STP`, with the tree that Kruskal's algorithm finds. -/
  | timer (tree : List (Edge LinkProperty))

inductive Fault
  | topology (fault : Topology.Fault)
  | stp (fault : STP.Fault)
  deriving DecidableEq, Repr

def step (ndebug : Bool) (n : Network) : Event → Except Fault Network
  | .switchDiscovered dpid => .ok { n with stp := n.stp.onSwitchDiscovered dpid }
  | .switchUp dpid => .ok { n with stp := n.stp.onSwitchUp dpid }
  | .switchDown dpid => .ok { n with stp := n.stp.onSwitchDown dpid }
  | .portUp dpid portNo => do
    let stp ← (n.stp.onPortUp dpid portNo).mapError .stp
    .ok { n with stp }
  | .link signal => do
    let topology ← (n.topology.receive ndebug signal).mapError .topology
    let stp ← (n.stp.receive signal).mapError .stp
    .ok { n with topology, stp, seen := signal :: n.seen }
  | .timer tree => do
    let stp ← (n.stp.computeSpanningTree tree).mapError .stp
    .ok { n with stp }

/-- No live link has a port of the switch. -/
def Unlinked (n : Network) (dpid : UInt64) : Prop :=
  ∀ k, Live n.seen k → k.1.dpid ≠ dpid ∧ k.2.dpid ≠ dpid

/-- A port is in one live link, whose switches are in `switch_list` when it is discovered, and which
breaks before they go down. Kruskal's algorithm finds a spanning forest. -/
def Cabled (n : Network) : Event → Prop
  | .switchDown dpid => n.Unlinked dpid
  | .link (.up k) => n.stp.count k.1.dpid = true ∧ n.stp.count k.2.dpid = true ∧
      ∀ k', Live n.seen k' → k' ≠ k → Apart k' k
  | .timer tree => n.stp.computed = false → SpanningForest n.topology.m.graph.edges tree
  | _ => True

/-- A switch is discovered when it has no live links. -/
def NewSwitches (n : Network) : Event → Prop
  | .switchDiscovered dpid => n.Unlinked dpid
  | _ => True

/-- A link is discovered when it is not live. -/
def NewLinks (n : Network) : Event → Prop
  | .link (.up k) => ¬ Live n.seen k
  | _ => True

def Allowed (n : Network) (e : Event) : Prop := n.Cabled e ∧ n.NewSwitches e ∧ n.NewLinks e

/-- The edges that are flooded at both ends. -/
def floodedEdges (n : Network) : List (Edge LinkProperty) :=
  n.topology.m.graph.edges.filter fun e =>
    n.stp.enabled e.property.source && n.stp.enabled e.property.target

/-- Flooding follows a spanning forest of the graph, and reaches every port that no link was ever
found at. -/
structure FloodsForest (n : Network) : Prop where
  both : ∀ e ∈ n.topology.m.graph.edges,
    n.stp.enabled e.property.source = n.stp.enabled e.property.target
  acyclic : Acyclic n.floodedEdges
  spans : ∀ u v, Connected n.floodedEdges u v ↔ Connected n.topology.m.graph.edges u v
  others : ∀ x port, n.stp.port x = some port →
    (∀ k, .up k ∈ n.seen → x ≠ k.1 ∧ x ≠ k.2) → n.stp.enabled x = true

/-! ## The invariant -/

/-- The edges are live links, and `STP` knows the ports of the live links (module doc). -/
structure Agrees (n : Network) : Prop where
  ok : n.topology.m.Ok
  whole : n.stp.Whole
  live : ∀ k ∈ n.topology.m.links, Live n.seen k
  apart : n.topology.m.links.Pairwise Apart
  joined : ∀ k, Live n.seen k → ∀ x, x = k.1 ∨ x = k.2 →
    ∃ port, n.stp.port x = some port ∧ port.toSwitch = true
  flooded : ∀ x port, n.stp.port x = some port → port.toSwitch = false → port.broadcast = true
  found : ∀ x port, n.stp.port x = some port → port.toSwitch = true →
    ∃ k, .up k ∈ n.seen ∧ (x = k.1 ∨ x = k.2)

theorem Agrees.init : Agrees .init where
  ok := .init
  whole := .init
  live _ h := by cases h
  apart := .nil
  joined _ h := absurd h (live_nil _)
  flooded _ _ h := by cases h
  found _ _ h := by cases h

section
variable {n n' : Network} {ndebug : Bool} {d : UInt64} {k : PortPair} {x : SwitchAndPort}
  {tree : List (Edge LinkProperty)}

/-- The switches of a live link are in `switch_list`. -/
theorem Agrees.count_of_live (h : Agrees n) (hk : Live n.seen k) (hx : x = k.1 ∨ x = k.2) :
    n.stp.count x.dpid = true := by
  obtain ⟨port, hport, -⟩ := h.joined k hk x hx
  exact STP.count_of_port hport

theorem Agrees.unlinked (h : Agrees n) (hd : n.stp.count d ≠ true) : n.Unlinked d := by
  intro k hk
  constructor
  · intro heq
    exact hd (heq ▸ h.count_of_live hk (.inl rfl))
  · intro heq
    exact hd (heq ▸ h.count_of_live hk (.inr rfl))

theorem Agrees.apart_edges (h : Agrees n) : n.topology.m.graph.edges.Pairwise
    fun e e' => Apart e.property.ports e'.property.ports :=
  List.pairwise_map.1 h.apart

/-- A switch without live links loses its ports, or gets a table without ports. -/
theorem Agrees.without (h : Agrees n) {stp : STP} (hw : stp.Whole)
    (hp : ∀ y, stp.port y = if y.dpid = d then none else n.stp.port y) (hd : n.Unlinked d) :
    Agrees { n with stp } where
  ok := h.ok
  whole := hw
  live := h.live
  apart := h.apart
  joined k hlive x hx := by
    have hne : x.dpid ≠ d := by
      rcases hx with rfl | rfl
      · exact (hd k hlive).1
      · exact (hd k hlive).2
    simp only [hp, if_neg hne]
    exact h.joined k hlive x hx
  flooded x port hport := by
    simp only [hp] at hport
    split at hport
    · cases hport
    · exact h.flooded x port hport
  found x port hport := by
    simp only [hp] at hport
    split at hport
    · cases hport
    · exact h.found x port hport

theorem Agrees.switchDiscovered (h : Agrees n) (hd : n.Unlinked d) :
    Agrees { n with stp := n.stp.onSwitchDiscovered d } :=
  h.without (h.whole.put d .init) (n.stp.port_onSwitchDiscovered d) hd

/-- A switch that is not in `switch_list` has no live links. -/
theorem Agrees.switchUp (h : Agrees n) (d : UInt64) :
    Agrees { n with stp := n.stp.onSwitchUp d } := by
  unfold STP.onSwitchUp
  split
  · exact h
  · rename_i hc
    exact h.without (h.whole.put d .init) (n.stp.port_onSwitchDiscovered d) (h.unlinked hc)

theorem Agrees.switchDown (h : Agrees n) (hd : n.Unlinked d) :
    Agrees { n with stp := n.stp.onSwitchDown d } :=
  h.without (h.whole.onSwitchDown d) (n.stp.port_onSwitchDown d) hd

theorem Agrees.portUp (h : Agrees n) (d : UInt64) (p : UInt32) :
    ∃ stp, n.stp.onPortUp d p = .ok stp ∧ Agrees { n with stp } := by
  obtain ⟨stp, hstp, hw, -, -, hp⟩ := STP.onPortUp_spec h.whole d p
  refine ⟨stp, hstp, ⟨h.ok, hw, h.live, h.apart, fun k hk x hx => ?_, fun x port hport => ?_,
    fun x port hport => ?_⟩⟩
  · obtain ⟨port, hport, hto⟩ := h.joined k hk x hx
    rcases hp x with heq | ⟨hnone, -⟩
    · exact ⟨port, heq.trans hport, hto⟩
    · rw [hport] at hnone
      cases hnone
  · rcases hp x with heq | ⟨-, hnew⟩
    · exact h.flooded x port (heq.symm.trans hport)
    · cases hnew.symm.trans hport
      exact fun _ => rfl
  · rcases hp x with heq | ⟨-, hnew⟩
    · exact h.found x port (heq.symm.trans hport)
    · cases hnew.symm.trans hport
      exact fun hto => by cases hto

/-- A link is added to the live links and, unless it is a loop, to the graph. -/
theorem Agrees.linkDiscovered (h : Agrees n) (hx : n.stp.count k.1.dpid = true)
    (hy : n.stp.count k.2.dpid = true) (hk : ∀ k', Live n.seen k' → Apart k' k) :
    ∃ n', n.step ndebug (.link (.up k)) = .ok n' ∧ Agrees n' := by
  obtain ⟨topology, htop, hok, hlinks, -⟩ := exists_linkDiscovered h.ok ndebug k
  obtain ⟨stp, hstp, hw, -, -, hp⟩ := STP.onLinkDiscovered_spec h.whole hx hy
  refine ⟨⟨topology, stp, .up k :: n.seen⟩, ?_, ?_⟩
  · simp only [step, receive, STP.receive, htop, hstp, bind, Except.bind, Except.mapError]
  constructor
  · exact hok
  · exact hw
  · intro k' hk'
    rw [hlinks] at hk'
    split at hk'
    · exact .inr (h.live k' hk')
    · rcases List.mem_append.1 hk' with hk' | hk'
      · exact .inr (h.live k' hk')
      · exact .inl (List.mem_singleton.1 hk')
  · rw [hlinks]
    split
    · exact h.apart
    · refine List.pairwise_append.2 ⟨h.apart, List.pairwise_singleton _ _, fun k₁ hk₁ k₂ hk₂ => ?_⟩
      rw [List.mem_singleton.1 hk₂]
      exact hk k₁ (h.live k₁ hk₁)
  · intro k' hk' x hx'
    rw [hp]
    by_cases hnew : x = k.1 ∨ x = k.2
    · exact ⟨_, if_pos hnew, rfl⟩
    · rw [if_neg hnew]
      rcases live_up.1 hk' with rfl | hk'
      · exact absurd hx' hnew
      · exact h.joined k' hk' x hx'
  · intro x port hport hto
    rw [hp] at hport
    split at hport
    · cases hport
      cases hto
    · exact h.flooded x port hport hto
  · intro x port hport hto
    rw [hp] at hport
    split at hport
    · rename_i hnew
      exact ⟨k, List.mem_cons_self, hnew⟩
    · obtain ⟨k', hk', hx'⟩ := h.found x port hport hto
      exact ⟨k', List.mem_cons_of_mem _ hk', hx'⟩

/-- Links are taken from the live links, and more of them from the graph. -/
theorem Agrees.linkBroken (h : Agrees n) (k : PortPair) :
    ∃ n', n.step ndebug (.link (.down k)) = .ok n' ∧ Agrees n' := by
  obtain ⟨topology, htop, hok, hlinks, -⟩ := exists_linkBroken h.ok ndebug k
  refine ⟨⟨topology, n.stp.onLinkBroken, .down k :: n.seen⟩, ?_, ?_⟩
  · simp only [step, receive, STP.receive, htop, bind, Except.bind, Except.mapError]
  constructor
  · exact hok
  · exact h.whole
  · intro k' hk'
    rw [hlinks, List.mem_filter, decide_eq_true_eq] at hk'
    refine ⟨fun heq => hk'.2 ?_, h.live k' hk'.1⟩
    rw [heq]
    exact .refl k
  · rw [hlinks]
    exact h.apart.filter _
  · exact fun k' hk' => h.joined k' (live_down.1 hk').2
  · exact h.flooded
  · intro x port hport hto
    obtain ⟨k', hk', hx⟩ := h.found x port hport hto
    exact ⟨k', List.mem_cons_of_mem _ hk', hx⟩

/-! ## The timer -/

/-- A port of an edge of the tree is a port of a live link. -/
theorem Agrees.live_of_isEnd (h : Agrees n) (ht : tree ⊆ n.topology.m.graph.edges)
    (hx : STP.IsEnd tree x) : ∃ k, Live n.seen k ∧ (x = k.1 ∨ x = k.2) := by
  obtain ⟨e, he, hx⟩ := hx
  exact ⟨e.property.ports, h.live _ (TopologyImpl.mem_links (ht he)), hx⟩

/-- The computation returns, and keeps what is known of the ports. -/
theorem Agrees.timer (h : Agrees n) (ndebug : Bool) (hc : n.stp.computed = false)
    (ht : SpanningForest n.topology.m.graph.edges tree) :
    ∃ stp, n.step ndebug (.timer tree) = .ok { n with stp } ∧ Agrees { n with stp } ∧
      ∀ y, stp.port y = (n.stp.port y).map fun port =>
        if STP.IsEnd tree y then { port with broadcast := true }
        else if port.toSwitch then { port with broadcast := false } else port := by
  obtain ⟨stp, hstp, hw, -, -, hp⟩ := STP.computeSpanningTree_spec tree h.whole hc
    fun y hy => by
      obtain ⟨k, hk, hy⟩ := h.live_of_isEnd ht.subset hy
      exact h.count_of_live hk hy
  -- a computation changes no mark
  have hto : ∀ y port, stp.port y = some port → ∃ port₀, n.stp.port y = some port₀ ∧
      port.toSwitch = port₀.toSwitch ∧ (port.toSwitch = false → port₀.broadcast = true →
        port.broadcast = true) := by
    intro y port hport
    rw [hp, Option.map_eq_some_iff] at hport
    obtain ⟨port₀, hport₀, rfl⟩ := hport
    refine ⟨port₀, hport₀, ?_, ?_⟩
    · split
      · rfl
      · split
        · rfl
        · rfl
    · split
      · exact fun _ _ => rfl
      · split
        · rename_i hto
          exact fun hfalse => absurd hto (by simpa using hfalse)
        · exact fun _ hb => hb
  refine ⟨stp, by simp only [step, hstp, Except.mapError, bind, Except.bind], ?_, hp⟩
  constructor
  · exact h.ok
  · exact hw
  · exact h.live
  · exact h.apart
  · intro k hk x hx
    obtain ⟨port, hport, hmark⟩ := h.joined k hk x hx
    have hnew := hp x
    rw [hport, Option.map_some] at hnew
    obtain ⟨port₀, hport₀, heq, -⟩ := hto x _ hnew
    cases hport.symm.trans hport₀
    exact ⟨_, hnew, heq.trans hmark⟩
  · intro x port hport hfalse
    obtain ⟨port₀, hport₀, heq, hb⟩ := hto x port hport
    exact hb hfalse (h.flooded x port₀ hport₀ (heq ▸ hfalse))
  · intro x port hport hmark
    obtain ⟨port₀, hport₀, heq, -⟩ := hto x port hport
    exact h.found x port₀ hport₀ (heq ▸ hmark)

theorem Agrees.step (h : Agrees n) (ndebug : Bool) {e : Event} (ha : Allowed n e) :
    ∃ n', n.step ndebug e = .ok n' ∧ Agrees n' := by
  obtain ⟨hcabled, hswitches, hlinks⟩ := ha
  cases e with
  | switchDiscovered d => exact ⟨_, rfl, h.switchDiscovered hswitches⟩
  | switchUp d => exact ⟨_, rfl, h.switchUp d⟩
  | switchDown d => exact ⟨_, rfl, h.switchDown hcabled⟩
  | portUp d p =>
    obtain ⟨stp, hstp, h'⟩ := h.portUp d p
    refine ⟨_, ?_, h'⟩
    simp only [Network.step, hstp, Except.mapError, bind, Except.bind]
  | link signal =>
    cases signal with
    | up k =>
      obtain ⟨hx, hy, hapart⟩ := hcabled
      refine h.linkDiscovered hx hy fun k' hk' => hapart k' hk' fun heq => hlinks ?_
      rw [← heq]
      exact hk'
    | down k => exact h.linkBroken k
  | timer tree =>
    cases hc : n.stp.computed with
    | false =>
      obtain ⟨stp, hstep, h', -⟩ := h.timer ndebug hc (hcabled hc)
      exact ⟨_, hstep, h'⟩
    | true =>
      refine ⟨n, ?_, h⟩
      simp only [Network.step, STP.computeSpanningTree, hc, if_true, Except.mapError, bind,
        Except.bind]

/-- The invariant over a whole run. -/
theorem agrees_of_trace {h : List (Network × Event)}
    (ht : Trace (Network.step ndebug) Allowed .init h n) : Agrees n := by
  refine ht.invariant_state .init fun n e n' hI ha hstep => ?_
  obtain ⟨n₁, hn₁, h₁⟩ := hI.step ndebug ha
  cases hn₁.symm.trans hstep
  exact h₁

/-! ## The flooded edges -/

/-- An edge whose port is an end of the tree is in the tree. -/
theorem Agrees.mem_tree (h : Agrees n) (ht : tree ⊆ n.topology.m.graph.edges)
    {e : Edge LinkProperty} (he : e ∈ n.topology.m.graph.edges)
    (hx : x = e.property.source ∨ x = e.property.target) :
    STP.IsEnd tree x ↔ e ∈ tree := by
  constructor
  · intro hend
    obtain ⟨e', he', hx'⟩ := hend
    by_cases heq : e = e'
    · rw [heq]
      exact he'
    · have : Std.Symm fun e e' : Edge LinkProperty => Apart e.property.ports e'.property.ports :=
        ⟨fun _ _ => Apart.symm⟩
      exact absurd hx' ((h.apart_edges.forall he (ht he') heq).not_port hx)
  · exact fun hmem => ⟨e, hmem, hx⟩

theorem Agrees.nodup (h : Agrees n) : n.topology.m.graph.edges.Nodup := by
  refine h.apart_edges.imp fun hapart heq => ?_
  rw [heq] at hapart
  exact hapart.1 rfl

/-- **A computation floods the tree.** -/
theorem Agrees.floodsForest (h : Agrees n) (hc : n.stp.computed = false)
    (ht : SpanningForest n.topology.m.graph.edges tree) :
    ∃ n', n.step ndebug (.timer tree) = .ok n' ∧ FloodsForest n' := by
  obtain ⟨stp, hstep, h', hp⟩ := h.timer ndebug hc ht
  have hends : ∀ e ∈ n.topology.m.graph.edges, ∀ x,
      x = e.property.source ∨ x = e.property.target → (stp.enabled x = true ↔ e ∈ tree) := by
    intro e he x hx
    obtain ⟨port, hport, hto⟩ := h.joined _ (h.live _ (TopologyImpl.mem_links he)) x hx
    rw [STP.enabled_iff, hp, hport, ← h.mem_tree ht.subset he hx]
    by_cases hend : STP.IsEnd tree x
    · simp [hend]
    · simp [hend, hto]
  have hflooded : ∀ e ∈ n.topology.m.graph.edges,
      ((stp.enabled e.property.source && stp.enabled e.property.target) = true ↔ e ∈ tree) := by
    intro e he
    rw [Bool.and_eq_true, hends e he _ (.inl rfl), hends e he _ (.inr rfl), and_self_iff]
  have hperm : tree.Perm (floodedEdges { n with stp }) := by
    refine (List.perm_ext_iff_of_nodup ?_ ?_).2 fun e => ?_
    · obtain ⟨l, hperm, hsub⟩ := ht.subperm
      exact hperm.nodup_iff.1 (h.nodup.sublist hsub)
    · exact h.nodup.filter _
    · rw [floodedEdges, List.mem_filter]
      constructor
      · exact fun he => ⟨ht.subset he, (hflooded e (ht.subset he)).2 he⟩
      · exact fun he => (hflooded e he.1).1 he.2
  refine ⟨_, hstep, ?_, ht.acyclic.perm hperm, fun u v => ?_, fun x port hport hnever => ?_⟩
  · intro e he
    rw [Bool.eq_iff_iff, hends e he _ (.inl rfl), hends e he _ (.inr rfl)]
  · rw [← ht.connected_iff]
    exact ⟨fun hc => hc.mono hperm.symm.subset, fun hc => hc.mono hperm.subset⟩
  · have hto : port.toSwitch = false := by
      by_contra hto
      obtain ⟨k, hk, hx⟩ := h'.found x port hport (by simpa using hto)
      exact hx.elim (hnever k hk).1 (hnever k hk).2
    exact STP.enabled_iff.2 ⟨port, hport, h'.flooded x port hport hto⟩

end

/-- **Flooding uses a spanning forest**: right after the tree is computed, in every run. -/
theorem flooding_spanning_forest {ndebug : Bool} {h : List (Network × Event)} {n : Network}
    (ht : Trace (step ndebug) Allowed .init h n) {tree : List (Edge LinkProperty)}
    (hc : n.stp.computed = false) (hk : SpanningForest n.topology.m.graph.edges tree) :
    ∃ n', n.step ndebug (.timer tree) = .ok n' ∧ FloodsForest n' :=
  (agrees_of_trace ht).floodsForest hc hk

/-- The first of two links between two switches. -/
def firstEdge : Edge LinkProperty := ⟨0, 1, ⟨⟨1, 1⟩, ⟨2, 1⟩, 1⟩⟩

/-- The second one. -/
def secondEdge : Edge LinkProperty := ⟨0, 1, ⟨⟨1, 2⟩, ⟨2, 2⟩, 1⟩⟩

/-- Events without the timer, whose condition is not decided. -/
def NoTimer : Event → Prop
  | .timer _ => False
  | _ => True

instance : DecidablePred NoTimer
  | .timer _ => .isFalse id
  | .switchDiscovered _ | .switchUp _ | .switchDown _ | .portUp _ _ | .link _ => .isTrue trivial

instance (n : Network) (dpid : UInt64) : Decidable (n.Unlinked dpid) :=
  inferInstanceAs (Decidable (∀ k, Live n.seen k → (k.1.dpid ≠ dpid ∧ k.2.dpid ≠ dpid)))

instance (n : Network) (e : Event) : Decidable (NoTimer e ∧ n.Cabled e) :=
  match e with
  | .switchDown _ => inferInstanceAs (Decidable (True ∧ n.Unlinked _))
  | .link (.up k) => inferInstanceAs (Decidable (True ∧ n.stp.count k.1.dpid = true ∧
      n.stp.count k.2.dpid = true ∧ ∀ k', Live n.seen k' → (k' ≠ k → Apart k' k)))
  | .switchDiscovered _ | .switchUp _ | .portUp _ _ | .link (.down _) => .isTrue ⟨trivial, trivial⟩
  | .timer _ => .isFalse And.left

instance (n : Network) : DecidablePred n.NewSwitches
  | .switchDiscovered _ => inferInstanceAs (Decidable (n.Unlinked _))
  | .switchUp _ | .switchDown _ | .portUp _ _ | .link _ | .timer _ => .isTrue trivial

instance (n : Network) : DecidablePred n.NewLinks
  | .link (.up _) => inferInstanceAs (Decidable (¬ _))
  | .switchDiscovered _ | .switchUp _ | .switchDown _ | .portUp _ _ | .link (.down _) | .timer _ =>
    .isTrue trivial

/-- Two switches come up, the second with a port for a host, and two links between them. -/
theorem parallel_run : ∃ h n, Trace (step false) Allowed .init h n ∧ n.stp.computed = false ∧
    n.topology.m.graph.edges = [firstEdge, secondEdge] := by
  obtain ⟨h, n, ht, hn⟩ := exists_trace (step false)
    (fun n e => (NoTimer e ∧ n.Cabled e) ∧ n.NewSwitches e ∧ n.NewLinks e) .init
    [.switchDiscovered 1, .switchUp 1, .switchDiscovered 2, .portUp 2 3,
      .link (.up (⟨1, 1⟩, ⟨2, 1⟩)), .link (.up (⟨1, 2⟩, ⟨2, 2⟩))]
    (P := fun _ n => n.stp.computed = false ∧ n.topology.m.graph.edges = [firstEdge, secondEdge])
    (by decide)
  exact ⟨h, n, ht.weaken fun n e ha => ⟨ha.1.2, ha.2⟩, hn⟩

/-- One of several links between two switches is a spanning forest. -/
theorem parallel_forest {es : List (Edge LinkProperty)} (hmem : firstEdge ∈ es)
    (hends : ∀ e ∈ es, e.u = 0 ∧ e.v = 1) : SpanningForest es [firstEdge] where
  subperm := List.singleton_subperm_iff.2 hmem
  acyclic e rest hp hc := by
    have hlen := hp.length_eq
    cases rest with
    | cons e' rest => simp at hlen
    | nil =>
      obtain rfl : firstEdge = e := by simpa using hp
      rcases hc.eq_or_exists_mem with h | ⟨⟨e, he, -⟩, -⟩
      · cases h
      · cases he
  spans u v hc := hc.of_edges fun e he => by
    obtain ⟨hu, hv⟩ := hends e he
    rw [hu, hv]
    exact .of_mem (e := firstEdge) List.mem_cons_self

/-- Of two links between two switches, one is flooded, and so is the port of the host. -/
theorem flooding_spanning_forest_parallel : ∃ h n, Trace (step false) Allowed .init h n ∧
    ∃ n', n.step false (.timer [firstEdge]) = .ok n' ∧ FloodsForest n' := by
  obtain ⟨h, n, ht, hc, he⟩ := parallel_run
  have hforest : SpanningForest n.topology.m.graph.edges [firstEdge] := by
    rw [he]
    exact parallel_forest List.mem_cons_self (by decide)
  exact ⟨h, n, ht, flooding_spanning_forest ht hc hforest⟩

/-- The tree is computed, and flooding does not follow it. -/
def Misfloods (n : Network) (tree : List (Edge LinkProperty)) : Prop :=
  n.stp.computed = false ∧ SpanningForest n.topology.m.graph.edges tree ∧
    ∃ n', n.step false (.timer tree) = .ok n' ∧ ¬ FloodsForest n'

/-- The graph holds copies of one edge: once the tree is computed, the two ends of the edge differ,
or both copies are flooded. -/
def MisfloodsCopies (n : Network) (k : Nat) : Prop :=
  n.stp.computed = false ∧ n.topology.m.graph.edges = List.replicate (k + 1) firstEdge ∧
    ∃ n' ∈ (n.step false (.timer [firstEdge])).toOption,
      n'.topology.m.graph.edges = List.replicate (k + 1) firstEdge ∧
      (n'.stp.enabled firstEdge.property.source ≠ n'.stp.enabled firstEdge.property.target ∨
        n'.floodedEdges = [firstEdge, firstEdge])

instance (n : Network) (k : Nat) : Decidable (n.MisfloodsCopies k) :=
  inferInstanceAs (Decidable (_ ∧ _ ∧ ∃ n' ∈ (n.step false (.timer [firstEdge])).toOption,
    n'.topology.m.graph.edges = _ ∧ (n'.stp.enabled _ ≠ n'.stp.enabled _ ∨ n'.floodedEdges = _)))

theorem MisfloodsCopies.misfloods {n : Network} {k : Nat} (h : n.MisfloodsCopies k) :
    n.Misfloods [firstEdge] := by
  obtain ⟨hc, he, n', hn', hedges, hbad⟩ := h
  have hcopies : ∀ e ∈ n.topology.m.graph.edges, e = firstEdge := by
    intro e hmem
    rw [he] at hmem
    exact List.eq_of_mem_replicate hmem
  refine ⟨hc, ?_, n', ?_, ?_⟩
  · refine parallel_forest ?_ ?_
    · rw [he]
      exact List.mem_cons_self
    · intro e hmem
      rw [hcopies e hmem]
      exact ⟨rfl, rfl⟩
  · cases hstep : n.step false (.timer [firstEdge]) with
    | error => simp [hstep, Except.toOption] at hn'
    | ok n₁ =>
      rw [hstep] at hn'
      cases hn'
      rfl
  · intro hf
    rcases hbad with hends | htwice
    · refine hends (hf.both firstEdge ?_)
      rw [hedges]
      exact List.mem_cons_self
    · have hacyclic := hf.acyclic
      rw [htwice] at hacyclic
      exact hacyclic firstEdge [firstEdge] (.refl _) (.of_mem List.mem_cons_self)

/-- A switch with a live link is discovered once more: one port of the link is flooded, the other is
unknown. A live link is discovered once more: both of its edges are flooded. -/
theorem not_flooding_spanning_forest :
    (∃ h n, Trace (step false) (fun n e => n.Cabled e ∧ n.NewLinks e) .init h n ∧
      n.Misfloods [firstEdge]) ∧
    ∃ h n, Trace (step false) (fun n e => n.Cabled e ∧ n.NewSwitches e) .init h n ∧
      n.Misfloods [firstEdge] := by
  constructor
  · obtain ⟨h, n, ht, hn⟩ := exists_trace (step false)
      (fun n e => (NoTimer e ∧ n.Cabled e) ∧ n.NewLinks e) .init
      [.switchDiscovered 1, .switchDiscovered 2, .link (.up (⟨1, 1⟩, ⟨2, 1⟩)), .switchDiscovered 1]
      (P := fun _ n => n.MisfloodsCopies 0) (by decide)
    exact ⟨h, n, ht.weaken fun n e ha => ⟨ha.1.2, ha.2⟩, hn.misfloods⟩
  · obtain ⟨h, n, ht, hn⟩ := exists_trace (step false)
      (fun n e => (NoTimer e ∧ n.Cabled e) ∧ n.NewSwitches e) .init
      [.switchDiscovered 1, .switchDiscovered 2, .link (.up (⟨1, 1⟩, ⟨2, 1⟩)),
        .link (.up (⟨1, 1⟩, ⟨2, 1⟩))]
      (P := fun _ n => n.MisfloodsCopies 1) (by decide)
    exact ⟨h, n, ht.weaken fun n e ha => ⟨ha.1.2, ha.2⟩, hn.misfloods⟩

end Network

end Topology
