import Runos.Lib.Fallible
import Runos.Topology.Proof.Flooding

/-!
# Flooding of the ports of hosts

Runs of `Topology` and `STP` with any events. The mark of a port between switches is set when a link
is discovered at it and stays as long as the table of its switch, also after the link broke
(`Joined`, `marked_of_trace`). A port without a mark is flooded, and a marked one only as an end of
the tree, whose edges are live links. So right after a computation every port that is no end of a
live link is flooded exactly when no port has lost its links (`hostPorts_flooded`).
-/

namespace Topology

open Multigraph Signal Runs Fallible

/-! ## Marks -/

namespace STP

variable {s s' : STP} {x y : SwitchAndPort} {d : UInt64} {p : UInt32}

/-- The port is known, as one between two switches. -/
def Marked (s : STP) (x : SwitchAndPort) : Prop :=
  ∃ port, s.port x = some port ∧ port.toSwitch = true

/-- A port without a mark is flooded. -/
def OthersFlooded (s : STP) : Prop :=
  ∀ x port, s.port x = some port → port.toSwitch = false → port.broadcast = true

theorem Marked.count (h : s.Marked x) : s.count x.dpid = true := by
  obtain ⟨port, hport, -⟩ := h
  exact count_of_port hport

/-- A handler that drops the ports of a switch. -/
theorem marked_of_dropped (hp : ∀ y, s'.port y = if y.dpid = d then none else s.port y) :
    s'.Marked x ↔ x.dpid ≠ d ∧ s.Marked x := by
  unfold Marked
  rw [hp]
  by_cases hd : x.dpid = d
  · simp [hd]
  · simp [hd]

theorem OthersFlooded.of_dropped (h : s.OthersFlooded)
    (hp : ∀ y, s'.port y = if y.dpid = d then none else s.port y) : s'.OthersFlooded := by
  intro x port hport
  rw [hp] at hport
  split at hport
  · cases hport
  · exact h x port hport

/-- A handler that adds ports. -/
theorem marked_of_added
    (hp : ∀ y, s'.port y = s.port y ∨ s.port y = none ∧ s'.port y = some .init) :
    s'.Marked x ↔ s.Marked x := by
  unfold Marked
  rcases hp x with heq | ⟨hnone, hnew⟩
  · rw [heq]
  · rw [hnone, hnew]
    simp [Port.init]

theorem OthersFlooded.of_added (h : s.OthersFlooded)
    (hp : ∀ y, s'.port y = s.port y ∨ s.port y = none ∧ s'.port y = some .init) :
    s'.OthersFlooded := by
  intro x port hport hfalse
  rcases hp x with heq | ⟨-, hnew⟩
  · exact h x port (heq.symm.trans hport) hfalse
  · cases hnew.symm.trans hport
    rfl

/-- A link marks its ends. -/
theorem marked_of_joined {k : PortPair}
    (hp : ∀ z, s'.port z = if z = k.1 ∨ z = k.2 then some ⟨false, true⟩ else s.port z) :
    s'.Marked x ↔ (x = k.1 ∨ x = k.2) ∨ s.Marked x := by
  unfold Marked
  rw [hp]
  by_cases hx : x = k.1 ∨ x = k.2
  · simp [hx]
  · simp [hx]

theorem OthersFlooded.of_joined {k : PortPair} (h : s.OthersFlooded)
    (hp : ∀ z, s'.port z = if z = k.1 ∨ z = k.2 then some ⟨false, true⟩ else s.port z) :
    s'.OthersFlooded := by
  intro x port hport hfalse
  rw [hp] at hport
  split at hport
  · cases hport
    cases hfalse
  · exact h x port hport hfalse

section
variable {tree : List (Edge LinkProperty)}
  (hp : ∀ y, s'.port y = (s.port y).map fun port =>
    if IsEnd tree y then { port with broadcast := true }
    else if port.toSwitch then { port with broadcast := false } else port)
include hp

/-- A computation marks no port, and takes no mark away. -/
theorem marked_of_computed : s'.Marked x ↔ s.Marked x := by
  unfold Marked
  rw [hp]
  cases s.port x with
  | none => simp
  | some port =>
    simp only [Option.map_some, Option.some.injEq, exists_eq_left']
    split
    · rfl
    · split
      · rfl
      · rfl

/-- A known port is flooded if it is an end of the tree or has no mark. -/
theorem enabled_of_computed (h : s.OthersFlooded) {port : Port} (hport : s'.port x = some port) :
    s'.enabled x = true ↔ IsEnd tree x ∨ ¬ s'.Marked x := by
  rw [enabled_iff, marked_of_computed hp]
  rw [hp, Option.map_eq_some_iff] at hport
  obtain ⟨port₀, hport₀, rfl⟩ := hport
  unfold Marked
  simp only [hp, hport₀, Option.map_some, Option.some.injEq, exists_eq_left']
  by_cases hend : IsEnd tree x
  · simp [hend]
  · cases hto : port₀.toSwitch with
    | true => simp [hend]
    | false => simpa [hend] using h x port₀ hport₀ hto

theorem OthersFlooded.of_computed (h : s.OthersFlooded) : s'.OthersFlooded := by
  intro x port hport hfalse
  have hen : s'.enabled x = true := by
    refine (enabled_of_computed hp h hport).2 (.inr fun hm => ?_)
    obtain ⟨port', hport', hto⟩ := hm
    cases hport.symm.trans hport'
    rw [hfalse] at hto
    cases hto
  obtain ⟨port', hport', hb⟩ := enabled_iff.1 hen
  cases hport.symm.trans hport'
  exact hb

end

end STP

namespace Network

/-! ## Runs of any events -/

/-- Any event; Kruskal's algorithm finds a spanning forest. -/
def Kruskal (n : Network) : Event → Prop
  | .timer tree => n.stp.computed = false → SpanningForest n.topology.m.graph.edges tree
  | _ => True

/-- A link was discovered at the port, while its two switches were in `switch_list`, and the table
of the switch is still the same. The latest event is first. -/
def Joined : List (Network × Event) → SwitchAndPort → Prop
  | [], _ => False
  | (_, .switchDiscovered d) :: h, x => x.dpid ≠ d ∧ Joined h x
  | (_, .switchDown d) :: h, x => x.dpid ≠ d ∧ Joined h x
  | (n, .link (.up k)) :: h, x =>
    n.stp.count k.1.dpid = true ∧ n.stp.count k.2.dpid = true ∧ (x = k.1 ∨ x = k.2) ∨ Joined h x
  | _ :: h, x => Joined h x

/-- The port is an end of a live link. -/
def LiveEnd (n : Network) (x : SwitchAndPort) : Prop :=
  ∃ k, Live n.seen k ∧ (x = k.1 ∨ x = k.2)

/-- Every known port that is no end of a live link is flooded. -/
def HostPortsFlooded (n : Network) : Prop :=
  ∀ x port, n.stp.port x = some port → ¬ n.LiveEnd x → n.stp.enabled x = true

/-- What holds of every run: the edges are live links, and the marked ports are known from the
past. -/
structure Marks (h : List (Network × Event)) (n : Network) : Prop where
  ok : n.topology.m.Ok
  live : ∀ k ∈ n.topology.m.links, Live n.seen k
  whole : n.stp.Whole
  others : n.stp.OthersFlooded
  marked : ∀ x, n.stp.Marked x ↔ Joined h x

theorem Marks.init : Marks [] .init where
  ok := .init
  live _ h := by cases h
  whole := .init
  others _ _ h := by cases h
  marked x := iff_of_false (fun h => by obtain ⟨port, hport, -⟩ := h; cases hport) id

section
variable {h : List (Network × Event)} {n n' : Network} {ndebug : Bool} {k : PortPair}
  {x : SwitchAndPort} {tree : List (Edge LinkProperty)}

/-- The ends of the tree are ends of live links. -/
theorem Marks.liveEnd_of_isEnd (hm : Marks h n) (ht : tree ⊆ n.topology.m.graph.edges)
    (hx : STP.IsEnd tree x) : n.LiveEnd x := by
  obtain ⟨e, he, hx⟩ := hx
  exact ⟨e.property.ports, hm.live _ (TopologyImpl.mem_links (ht he)), hx⟩

theorem Marks.switchUp (hm : Marks h n) (d : UInt64) :
    Marks ((n, .switchUp d) :: h) { n with stp := n.stp.onSwitchUp d } := by
  unfold STP.onSwitchUp
  split
  · exact ⟨hm.ok, hm.live, hm.whole, hm.others, hm.marked⟩
  · rename_i hc
    have hp := n.stp.port_onSwitchDiscovered d
    refine ⟨hm.ok, hm.live, hm.whole.put d .init, hm.others.of_dropped hp, fun x => ?_⟩
    show (n.stp.onSwitchDiscovered d).Marked x ↔ Joined h x
    rw [STP.marked_of_dropped hp, ← hm.marked]
    -- a switch without a table has no port that is marked
    refine ⟨And.right, fun hx => ⟨fun hd => hc ?_, hx⟩⟩
    rw [← hd]
    exact hx.count

theorem Marks.linkDiscovered (hm : Marks h n)
    (hstep : n.step ndebug (.link (.up k)) = .ok n') : Marks ((n, .link (.up k)) :: h) n' := by
  obtain ⟨topology, htop, hok, hlinks, -⟩ := exists_linkDiscovered hm.ok ndebug k
  have hlive : ∀ k' ∈ topology.m.links, Live (.up k :: n.seen) k' := by
    intro k' hk'
    rw [hlinks] at hk'
    split at hk'
    · exact .inr (hm.live k' hk')
    · rcases List.mem_append.1 hk' with hk' | hk'
      · exact .inr (hm.live k' hk')
      · exact .inl (List.mem_singleton.1 hk')
  simp only [step, receive, STP.receive, htop, bind, Except.bind, Except.mapError] at hstep
  by_cases hc : n.stp.count k.1.dpid = true ∧ n.stp.count k.2.dpid = true
  · obtain ⟨stp, hstp, hw, -, -, hp⟩ := STP.onLinkDiscovered_spec hm.whole hc.1 hc.2
    simp only [hstp, Except.ok.injEq] at hstep
    subst hstep
    refine ⟨hok, hlive, hw, hm.others.of_joined hp, fun x => ?_⟩
    simp only [STP.marked_of_joined hp, Joined, hm.marked, hc, true_and]
  · have hnot : n.stp.count k.1.dpid = false ∨ n.stp.count k.2.dpid = false := by
      rw [← Bool.not_eq_true, ← Bool.not_eq_true]
      exact not_and_or.1 hc
    simp only [STP.onLinkDiscovered_of_not_count hnot, Except.ok.injEq] at hstep
    subst hstep
    refine ⟨hok, hlive, hm.whole, hm.others, fun x => ?_⟩
    have hno : ¬ (n.stp.count k.1.dpid = true ∧ n.stp.count k.2.dpid = true ∧
        (x = k.1 ∨ x = k.2)) := fun hall => hc ⟨hall.1, hall.2.1⟩
    simp only [hm.marked, Joined, hno, false_or]

theorem Marks.linkBroken (hm : Marks h n)
    (hstep : n.step ndebug (.link (.down k)) = .ok n') :
    Marks ((n, .link (.down k)) :: h) n' := by
  obtain ⟨topology, htop, hok, hlinks, -⟩ := exists_linkBroken hm.ok ndebug k
  simp only [step, receive, STP.receive, htop, bind, Except.bind, Except.mapError,
    Except.ok.injEq] at hstep
  subst hstep
  refine ⟨hok, fun k' hk' => ?_, hm.whole, hm.others, hm.marked⟩
  rw [hlinks, List.mem_filter, decide_eq_true_eq] at hk'
  refine ⟨fun heq => hk'.2 ?_, hm.live k' hk'.1⟩
  rw [heq]
  exact .refl k

/-- The computation returns if the switches of the tree are in `switch_list`. -/
theorem Marks.computed (hm : Marks h n) (hc : n.stp.computed = false)
    (hstep : n.step ndebug (.timer tree) = .ok n') :
    n'.seen = n.seen ∧ n'.topology = n.topology ∧ n'.stp.Whole ∧
      ∀ y, n'.stp.port y = (n.stp.port y).map fun port =>
        if STP.IsEnd tree y then { port with broadcast := true }
        else if port.toSwitch then { port with broadcast := false } else port := by
  obtain ⟨stp, hstp, hn⟩ := bind_ok hstep
  cases hn
  have hrun := mapError_ok hstp
  have hall : ∀ y, STP.IsEnd tree y → n.stp.count y.dpid = true := by
    intro y hy
    by_contra hd
    have hmiss := STP.computeSpanningTree_missing hm.whole hc hy (by simpa using hd)
    cases hmiss.symm.trans hrun
  obtain ⟨stp', hstp', hw, -, -, hp⟩ := STP.computeSpanningTree_spec tree hm.whole hc hall
  cases hstp'.symm.trans hrun
  exact ⟨rfl, rfl, hw, hp⟩

theorem Marks.timer (hm : Marks h n) (hstep : n.step ndebug (.timer tree) = .ok n') :
    Marks ((n, .timer tree) :: h) n' := by
  cases hc : n.stp.computed with
  | true =>
    simp only [step, STP.computeSpanningTree, hc, if_true, Except.mapError, bind, Except.bind,
      Except.ok.injEq] at hstep
    subst hstep
    exact ⟨hm.ok, hm.live, hm.whole, hm.others, hm.marked⟩
  | false =>
    obtain ⟨hseen, htop, hw, hp⟩ := hm.computed hc hstep
    refine ⟨htop ▸ hm.ok, by rw [htop, hseen]; exact hm.live, hw, hm.others.of_computed hp,
      fun x => ?_⟩
    rw [STP.marked_of_computed hp, hm.marked]
    rfl

/-- What one event keeps. -/
theorem Marks.step (hm : Marks h n) {e : Event} (hstep : n.step ndebug e = .ok n') :
    Marks ((n, e) :: h) n' := by
  cases e with
  | switchDiscovered d =>
    cases hstep
    have hp := n.stp.port_onSwitchDiscovered d
    refine ⟨hm.ok, hm.live, hm.whole.put d .init, hm.others.of_dropped hp, fun x => ?_⟩
    rw [STP.marked_of_dropped hp, hm.marked]
    rfl
  | switchUp d =>
    cases hstep
    exact hm.switchUp d
  | switchDown d =>
    cases hstep
    have hp := n.stp.port_onSwitchDown d
    refine ⟨hm.ok, hm.live, hm.whole.onSwitchDown d, hm.others.of_dropped hp, fun x => ?_⟩
    rw [STP.marked_of_dropped hp, hm.marked]
    rfl
  | portUp d p =>
    obtain ⟨stp, hstp, hn⟩ := bind_ok hstep
    cases hn
    obtain ⟨stp', hstp', hw, -, -, hp⟩ := STP.onPortUp_spec hm.whole d p
    cases hstp'.symm.trans (mapError_ok hstp)
    refine ⟨hm.ok, hm.live, hw, hm.others.of_added hp, fun x => ?_⟩
    rw [STP.marked_of_added hp, hm.marked]
    rfl
  | link signal =>
    cases signal with
    | up k => exact hm.linkDiscovered hstep
    | down k => exact hm.linkBroken hstep
  | timer tree => exact hm.timer hstep

/-- The marks of any run. -/
theorem marks_of_trace {ok : Network → Event → Prop}
    (ht : Trace (Network.step ndebug) ok .init h n) : Marks h n :=
  ht.invariant .init fun _ _ _ _ _ hm _ hstep => hm.step hstep

/-- **Which ports of hosts are flooded**: right after a computation all of them are exactly when
every port that a link marked is still an end of a live link. -/
theorem hostPorts_flooded (ht : Trace (Network.step ndebug) Kruskal .init h n)
    (hc : n.stp.computed = false) (hk : SpanningForest n.topology.m.graph.edges tree)
    (hstep : n.step ndebug (.timer tree) = .ok n') :
    HostPortsFlooded n' ↔ ∀ x, Joined h x → n.LiveEnd x := by
  have hm := marks_of_trace ht
  obtain ⟨hseen, -, -, hp⟩ := hm.computed hc hstep
  have hend : ∀ x, n'.LiveEnd x ↔ n.LiveEnd x := fun x => by
    unfold LiveEnd
    rw [hseen]
  have hmarked : ∀ x, n'.stp.Marked x ↔ Joined h x := fun x => by
    rw [STP.marked_of_computed hp, hm.marked]
  constructor
  · intro hf x hx
    by_contra hno
    obtain ⟨port, hport, hto⟩ := (hmarked x).2 hx
    have hen := hf x port hport fun hl => hno ((hend x).1 hl)
    rcases (STP.enabled_of_computed hp hm.others hport).1 hen with htree | hnot
    · exact hno (hm.liveEnd_of_isEnd hk.subset htree)
    · exact hnot ⟨port, hport, hto⟩
  · intro hall x port hport hno
    refine (STP.enabled_of_computed hp hm.others hport).2 (.inr fun hx => hno ?_)
    exact (hend x).2 (hall x ((hmarked x).1 hx))

end

/-- A link between two switches is discovered and breaks, and the tree is computed: its ports are
known, no link is live, and they are not flooded. -/
theorem lost_run : ∃ h n n', Trace (step false) Kruskal .init h n ∧ n.stp.computed = false ∧
    SpanningForest n.topology.m.graph.edges [] ∧ n.step false (.timer []) = .ok n' ∧
    n'.stp.port ⟨1, 1⟩ = some ⟨false, true⟩ ∧ n'.stp.enabled ⟨1, 1⟩ = false ∧
    ∀ x, ¬ n'.LiveEnd x := by
  obtain ⟨h, n, ht, hc, he, hseen, hstep⟩ := exists_trace (step false)
    (fun _ e => NoTimer e) .init
    [.switchDiscovered 1, .switchDiscovered 2, .link (.up (⟨1, 1⟩, ⟨2, 1⟩)),
      .link (.down (⟨1, 1⟩, ⟨2, 1⟩))]
    (P := fun _ n => n.stp.computed = false ∧ n.topology.m.graph.edges = [] ∧
      (∀ k, ¬ Live n.seen k) ∧
      ∃ n' ∈ (n.step false (.timer [])).toOption, n'.seen = n.seen ∧
        n'.stp.port ⟨1, 1⟩ = some ⟨false, true⟩ ∧ n'.stp.enabled ⟨1, 1⟩ = false)
    ⟨_, rfl, rfl, rfl, by decide, _, rfl, rfl, by decide, by decide⟩
  obtain ⟨n', hn', hsame, hport, hen⟩ := hstep
  refine ⟨h, n, n', ht.weaken fun n e ha => ?_, hc, ?_, ?_, hport, hen, fun x hx => ?_⟩
  · cases e with
    | timer tree => cases ha
    | _ => trivial
  · rw [he]
    exact ⟨.refl _, fun e rest hp => absurd hp.length_eq (by simp), fun u v huv => huv⟩
  · cases hr : n.step false (.timer []) with
    | error fault => rw [hr] at hn'; cases hn'
    | ok n₁ => rw [hr] at hn'; cases hn'; rfl
  · obtain ⟨k, hk, -⟩ := hx
    rw [hsame] at hk
    exact hseen k hk

/-- A port that has lost its link is not flooded. -/
theorem hostPorts_not_flooded : ∃ h n tree n', Trace (step false) Kruskal .init h n ∧
    n.stp.computed = false ∧ SpanningForest n.topology.m.graph.edges tree ∧
    n.step false (.timer tree) = .ok n' ∧ ¬ HostPortsFlooded n' := by
  obtain ⟨h, n, n', ht, hc, hk, hstep, hport, hen, hno⟩ := lost_run
  refine ⟨h, n, [], n', ht, hc, hk, hstep, fun hf => ?_⟩
  have htrue := hf _ _ hport (hno _)
  rw [hen] at htrue
  cases htrue

theorem hostPorts_flooded_lost : ∃ h n n', Trace (step false) Kruskal .init h n ∧
    n.step false (.timer []) = .ok n' ∧
    (HostPortsFlooded n' ↔ ∀ x, Joined h x → n.LiveEnd x) := by
  obtain ⟨h, n, n', ht, hc, hk, hstep, -⟩ := lost_run
  exact ⟨h, n, n', ht, hstep, hostPorts_flooded ht hc hk hstep⟩

end Network

end Topology
