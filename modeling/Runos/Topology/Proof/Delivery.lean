import Runos.Topology.Proof.Flooding

/-!
# Signals between threads

`SwitchManager`, `LinkDiscovery`, `STP` and `Topology` in threads of their own: a signal waits in the
queue of its sender and its receiver until it is delivered, while the timer of `STP` reads the graph
of `Topology` directly. Whatever the order of delivery, no handler follows a null pointer; the timer
does so exactly when it computes a tree while a switch with a link in the graph is not in
`switch_list` (`no_missing_entry_iff`).
-/

namespace Topology

open Multigraph Signal Runs

/-- A signal of `SwitchManager` to `STP`, or of one of its switches. -/
inductive SwitchSignal
  | switchDiscovered (dpid : UInt64)
  | switchUp (dpid : UInt64)
  | switchDown (dpid : UInt64)
  | portUp (dpid : UInt64) (portNo : UInt32)
  deriving DecidableEq, Repr

/-- A signal of `SwitchManager`, at `STP`. -/
def STP.receiveSwitch (s : STP) : SwitchSignal → Except STP.Fault STP
  | .switchDiscovered dpid => .ok (s.onSwitchDiscovered dpid)
  | .switchUp dpid => .ok (s.onSwitchUp dpid)
  | .switchDown dpid => .ok (s.onSwitchDown dpid)
  | .portUp dpid portNo => s.onPortUp dpid portNo

/-- The applications and the queues between them, the oldest signal first. -/
structure Threads where
  /-- The dpids in `switches` of `SwitchManager`. -/
  switches : List UInt64
  stp : STP
  topology : Topology
  switchesToStp : List SwitchSignal
  linksToStp : List (Signal PortPair)
  linksToTopology : List (Signal PortPair)

namespace Threads

def init : Threads := ⟨[], .init, .init, [], [], []⟩

inductive Event
  /-- `SwitchManager::onSwitchUp` -/
  | onSwitchUp (dpid : UInt64)
  /-- `SwitchManager::onSwitchDown` -/
  | onSwitchDown (dpid : UInt64)
  /-- A switch emits `portUp`, and `STP` is connected to it. -/
  | portUp (dpid : UInt64) (portNo : UInt32)
  /-- `LinkDiscovery` emits a signal. -/
  | link (signal : Signal PortPair)
  | deliverSwitchToStp
  | deliverLinkToStp
  | deliverLinkToTopology
  /-- The timer of `STP`, with the tree that Kruskal's algorithm finds. -/
  | timer (tree : List (Edge LinkProperty))

def step (ndebug : Bool) (t : Threads) : Event → Except Network.Fault Threads
  | .onSwitchUp dpid =>
    if dpid ∈ t.switches then
      .ok { t with switchesToStp := t.switchesToStp ++ [.switchUp dpid] }
    else
      .ok { t with
        switches := dpid :: t.switches
        switchesToStp := t.switchesToStp ++ [.switchDiscovered dpid, .switchUp dpid] }
  | .onSwitchDown dpid =>
    if dpid ∈ t.switches then
      .ok { t with switchesToStp := t.switchesToStp ++ [.switchDown dpid] }
    else
      .ok t
  | .portUp dpid portNo => .ok { t with switchesToStp := t.switchesToStp ++ [.portUp dpid portNo] }
  | .link signal =>
    .ok { t with
      linksToStp := t.linksToStp ++ [signal]
      linksToTopology := t.linksToTopology ++ [signal] }
  | .deliverSwitchToStp =>
    match t.switchesToStp with
    | [] => .ok t
    | signal :: switchesToStp => do
      let stp ← (t.stp.receiveSwitch signal).mapError .stp
      .ok { t with stp, switchesToStp }
  | .deliverLinkToStp =>
    match t.linksToStp with
    | [] => .ok t
    | signal :: linksToStp => do
      let stp ← (t.stp.receive signal).mapError .stp
      .ok { t with stp, linksToStp }
  | .deliverLinkToTopology =>
    match t.linksToTopology with
    | [] => .ok t
    | signal :: linksToTopology => do
      let topology ← (t.topology.receive ndebug signal).mapError .topology
      .ok { t with topology, linksToTopology }
  | .timer tree => do
    let stp ← (t.stp.computeSpanningTree tree).mapError .stp
    .ok { t with stp }

/-- Kruskal's algorithm finds a spanning forest. -/
def Allowed (t : Threads) : Event → Prop
  | .timer tree => t.stp.computed = false → SpanningForest t.topology.m.graph.edges tree
  | _ => True

/-- If the timer computes a tree, the switches of every link in the graph are in `switch_list`. -/
def Ready (t : Threads) : Event → Prop
  | .timer _ => t.stp.computed = false →
      ∀ k ∈ t.topology.m.links, t.stp.count k.1.dpid = true ∧ t.stp.count k.2.dpid = true
  | _ => True

/-- No pointer in `switch_list` is null, and the links of the graph join two switches. -/
structure Sound (t : Threads) : Prop where
  ok : t.topology.m.Ok
  whole : t.stp.Whole
  proper : ∀ k ∈ t.topology.m.links, k.1.dpid ≠ k.2.dpid

theorem Sound.init : Sound .init where
  ok := .init
  whole := .init
  proper _ h := by cases h

section
variable {t t' : Threads} {ndebug : Bool} {tree : List (Edge LinkProperty)}

/-! ## Deliveries -/

theorem exists_receiveSwitch {s : STP} (h : s.Whole) (signal : SwitchSignal) :
    ∃ s', s.receiveSwitch signal = .ok s' ∧ s'.Whole := by
  cases signal with
  | switchDiscovered d => exact ⟨_, rfl, h.put d .init⟩
  | switchUp d =>
    refine ⟨_, rfl, ?_⟩
    unfold STP.onSwitchUp
    split
    · exact h
    · exact h.put d .init
  | switchDown d => exact ⟨_, rfl, h.onSwitchDown d⟩
  | portUp d p =>
    obtain ⟨s', hs', hw, -⟩ := STP.onPortUp_spec h d p
    exact ⟨s', hs', hw⟩

theorem exists_receive_stp {s : STP} (h : s.Whole) (signal : Signal PortPair) :
    ∃ s', s.receive signal = .ok s' ∧ s'.Whole := by
  cases signal with
  | down k => exact ⟨_, rfl, h⟩
  | up k =>
    by_cases hc : s.count k.1.dpid = true ∧ s.count k.2.dpid = true
    · obtain ⟨s', hs', hw, -⟩ := STP.onLinkDiscovered_spec h hc.1 hc.2
      exact ⟨s', hs', hw⟩
    · refine ⟨s, STP.onLinkDiscovered_of_not_count ?_, h⟩
      rwa [not_and_or, Bool.not_eq_true, Bool.not_eq_true] at hc

theorem exists_receive_topology {s : Topology} (h : s.m.Ok)
    (hp : ∀ k ∈ s.m.links, k.1.dpid ≠ k.2.dpid) (ndebug : Bool) (signal : Signal PortPair) :
    ∃ s', s.receive ndebug signal = .ok s' ∧ s'.m.Ok ∧ ∀ k ∈ s'.m.links, k.1.dpid ≠ k.2.dpid := by
  cases signal with
  | up k =>
    obtain ⟨s', hs', hok, hlinks, -⟩ := exists_linkDiscovered h ndebug k
    refine ⟨s', hs', hok, fun k' hk' => ?_⟩
    rw [hlinks] at hk'
    split at hk'
    · exact hp k' hk'
    · rename_i hne
      rcases List.mem_append.1 hk' with hk' | hk'
      · exact hp k' hk'
      · rw [List.mem_singleton.1 hk']
        exact hne
  | down k =>
    obtain ⟨s', hs', hok, hlinks, -⟩ := exists_linkBroken h ndebug k
    refine ⟨s', hs', hok, fun k' hk' => ?_⟩
    rw [hlinks] at hk'
    exact hp k' (List.mem_of_mem_filter hk')

/-! ## The timer -/

/-- Every switch with a link in the graph has one in the tree. -/
theorem Sound.exists_isEnd (h : Sound t) (ht : SpanningForest t.topology.m.graph.edges tree)
    {k : PortPair} (hk : k ∈ t.topology.m.links) {x : SwitchAndPort} (hx : x = k.1 ∨ x = k.2) :
    ∃ y, STP.IsEnd tree y ∧ y.dpid = x.dpid := by
  obtain ⟨e, he, rfl⟩ := List.mem_map.1 hk
  obtain ⟨hs, htg⟩ := h.ok.ends e he
  have hne : e.u ≠ e.v := by
    intro heq
    rw [heq] at hs
    exact h.proper _ hk (h.ok.labelled.inj hs htg)
  -- an edge of the tree at the vertex of the switch
  have hvertex : ∀ v, t.topology.m.vertexMap x.dpid = some v →
      (∃ e ∈ tree, e.u = v ∨ e.v = v) → ∃ y, STP.IsEnd tree y ∧ y.dpid = x.dpid := by
    intro v hv hedge
    obtain ⟨e', he', hv'⟩ := hedge
    obtain ⟨hs', ht'⟩ := h.ok.ends e' (ht.subset he')
    rcases hv' with rfl | rfl
    · exact ⟨_, ⟨e', he', .inl rfl⟩, h.ok.labelled.inj hs' hv⟩
    · exact ⟨_, ⟨e', he', .inr rfl⟩, h.ok.labelled.inj ht' hv⟩
  obtain ⟨hu, hv⟩ := ht.exists_mem_of_ne he hne
  rcases hx with rfl | rfl
  · exact hvertex e.u hs hu
  · exact hvertex e.v htg hv

theorem Sound.timer (h : Sound t) (ht : SpanningForest t.topology.m.graph.edges tree)
    (hc : t.stp.computed = false)
    (hr : ∀ k ∈ t.topology.m.links, t.stp.count k.1.dpid = true ∧ t.stp.count k.2.dpid = true) :
    ∃ s', t.stp.computeSpanningTree tree = .ok s' ∧ s'.Whole := by
  obtain ⟨s', hs', hw, -⟩ := STP.computeSpanningTree_spec tree h.whole hc fun y hy => by
    obtain ⟨e, he, hy⟩ := hy
    have hk := hr _ (TopologyImpl.mem_links (ht.subset he))
    rcases hy with rfl | rfl
    · exact hk.1
    · exact hk.2
  exact ⟨s', hs', hw⟩

/-- A switch with a link in the graph is not in `switch_list`. -/
theorem Sound.timer_missing (h : Sound t) (ht : SpanningForest t.topology.m.graph.edges tree)
    (hc : t.stp.computed = false)
    (hr : ¬ ∀ k ∈ t.topology.m.links,
      t.stp.count k.1.dpid = true ∧ t.stp.count k.2.dpid = true) :
    t.stp.computeSpanningTree tree = .error .nullPointer := by
  push Not at hr
  obtain ⟨k, hk, hmiss⟩ := hr
  have hx : ∃ x, (x = k.1 ∨ x = k.2) ∧ t.stp.count x.dpid = false := by
    cases hfst : t.stp.count k.1.dpid with
    | false => exact ⟨k.1, .inl rfl, hfst⟩
    | true => exact ⟨k.2, .inr rfl, by simpa using hmiss hfst⟩
  obtain ⟨x, hx, hcount⟩ := hx
  obtain ⟨y, hy, hd⟩ := h.exists_isEnd ht hk hx
  exact STP.computeSpanningTree_missing h.whole hc hy (hd ▸ hcount)

/-! ## Steps and runs -/

theorem Sound.step (h : Sound t) (ndebug : Bool) {e : Event} (ha : Allowed t e) (hr : Ready t e) :
    ∃ t', t.step ndebug e = .ok t' ∧ Sound t' := by
  cases e with
  | onSwitchUp d =>
    simp only [Threads.step]
    split
    · exact ⟨_, rfl, h.ok, h.whole, h.proper⟩
    · exact ⟨_, rfl, h.ok, h.whole, h.proper⟩
  | onSwitchDown d =>
    simp only [Threads.step]
    split
    · exact ⟨_, rfl, h.ok, h.whole, h.proper⟩
    · exact ⟨_, rfl, h⟩
  | portUp d p => exact ⟨_, rfl, h.ok, h.whole, h.proper⟩
  | link signal => exact ⟨_, rfl, h.ok, h.whole, h.proper⟩
  | deliverSwitchToStp =>
    simp only [Threads.step]
    split
    · exact ⟨_, rfl, h⟩
    · rename_i signal _ _
      obtain ⟨s', hs', hw⟩ := exists_receiveSwitch h.whole signal
      simp only [hs', Except.mapError, bind, Except.bind]
      exact ⟨_, rfl, h.ok, hw, h.proper⟩
  | deliverLinkToStp =>
    simp only [Threads.step]
    split
    · exact ⟨_, rfl, h⟩
    · rename_i signal _ _
      obtain ⟨s', hs', hw⟩ := exists_receive_stp h.whole signal
      simp only [hs', Except.mapError, bind, Except.bind]
      exact ⟨_, rfl, h.ok, hw, h.proper⟩
  | deliverLinkToTopology =>
    simp only [Threads.step]
    split
    · exact ⟨_, rfl, h⟩
    · rename_i signal _ _
      obtain ⟨s', hs', hok, hp⟩ := exists_receive_topology h.ok h.proper ndebug signal
      simp only [hs', Except.mapError, bind, Except.bind]
      exact ⟨_, rfl, hok, h.whole, hp⟩
  | timer tree =>
    simp only [Threads.step]
    cases hc : t.stp.computed with
    | false =>
      obtain ⟨s', hs', hw⟩ := h.timer (ha hc) hc (hr hc)
      simp only [hs', Except.mapError, bind, Except.bind]
      exact ⟨_, rfl, h.ok, hw, h.proper⟩
    | true =>
      simp only [STP.computeSpanningTree, hc, if_true, Except.mapError, bind, Except.bind]
      exact ⟨_, rfl, h.ok, h.whole, h.proper⟩

/-- A tick that is not ready. -/
theorem Sound.step_missing (h : Sound t) {e : Event} (ha : Allowed t e) (hr : ¬ Ready t e) :
    t.step ndebug e = .error (.stp .nullPointer) := by
  cases e with
  | timer tree =>
    unfold Ready at hr
    push Not at hr
    obtain ⟨hc, k, hk, hmiss⟩ := hr
    simp only [Threads.step]
    rw [h.timer_missing (ha hc) hc fun hall => ?_]
    · rfl
    · exact absurd (hall k hk).2 (hmiss (hall k hk).1)
  | _ => exact absurd trivial hr

theorem sound_of_trace {h : List (Threads × Event)}
    (ht : Trace (Threads.step ndebug) Allowed .init h t) : Sound t := by
  refine ht.invariant_state .init fun t e t' hI ha hstep => ?_
  by_cases hr : Ready t e
  · obtain ⟨t₁, ht₁, h₁⟩ := hI.step ndebug ha hr
    cases ht₁.symm.trans hstep
    exact h₁
  · rw [hI.step_missing ha hr] at hstep
    cases hstep

end

/-- **Which orders of delivery are tolerated**: after any run, the next event follows no null pointer
exactly when it is ready, and returns then. -/
theorem no_missing_entry_iff {ndebug : Bool} {h : List (Threads × Event)} {t : Threads}
    (ht : Trace (step ndebug) Allowed .init h t) {e : Event} (ha : Allowed t e) :
    (t.step ndebug e ≠ .error (.stp .nullPointer) ↔ Ready t e) ∧
      (Ready t e → ∃ t', t.step ndebug e = .ok t') := by
  have hs := sound_of_trace ht
  refine ⟨⟨fun hne => ?_, fun hr heq => ?_⟩, fun hr => ?_⟩
  · by_contra hr
    exact hne (hs.step_missing ha hr)
  · obtain ⟨t', ht', -⟩ := hs.step ndebug ha hr
    rw [heq] at ht'
    cases ht'
  · obtain ⟨t', ht', -⟩ := hs.step ndebug ha hr
    exact ⟨t', ht'⟩

/-- The events other than the timer. -/
def IsSignal : Event → Prop
  | .timer _ => False
  | _ => True

instance : DecidablePred IsSignal
  | .timer _ => .isFalse id
  | .onSwitchUp _ | .onSwitchDown _ | .portUp _ _ | .link _ => .isTrue trivial
  | .deliverSwitchToStp | .deliverLinkToStp | .deliverLinkToTopology => .isTrue trivial

/-- A run of signals. -/
theorem exists_signals (es : List Event) {P : Threads → Prop}
    (hx : ∃ r ∈ exec (step false) (fun _ e => IsSignal e) [] .init es, P r.2) :
    ∃ h t, Trace (step false) Allowed .init h t ∧ P t := by
  obtain ⟨h, t, ht, hP⟩ := exists_trace (step false) (fun _ e => IsSignal e) .init es
    (P := fun _ t => P t) hx
  refine ⟨h, t, ht.weaken fun t e he => ?_, hP⟩
  cases e with
  | timer tree => cases he
  | _ => trivial

theorem single_forest : SpanningForest [Network.firstEdge] [Network.firstEdge] :=
  Network.parallel_forest List.mem_cons_self (by decide)

/-- `STP` has heard of the switches when the timer ticks. -/
theorem no_missing_entry_delivered : ∃ h t, Trace (step false) Allowed .init h t ∧
    t.topology.m.graph.edges = [Network.firstEdge] ∧
    ∃ t', t.step false (.timer [Network.firstEdge]) = .ok t' := by
  obtain ⟨h, t, ht, he, hcount⟩ := exists_signals
    [.onSwitchUp 1, .onSwitchUp 2, .deliverSwitchToStp, .deliverSwitchToStp, .deliverSwitchToStp,
      .link (.up (⟨1, 1⟩, ⟨2, 1⟩)), .deliverLinkToTopology]
    (P := fun t => t.topology.m.graph.edges = [Network.firstEdge] ∧
      ∀ k ∈ t.topology.m.links, (t.stp.count k.1.dpid = true ∧ t.stp.count k.2.dpid = true))
    (by decide)
  refine ⟨h, t, ht, he, (no_missing_entry_iff ht (e := .timer [Network.firstEdge]) ?_).2 ?_⟩
  · exact fun _ => he ▸ single_forest
  · exact fun _ => hcount

/-- `Topology` has heard of a link and `STP` of neither of its switches when the timer ticks. -/
theorem missing_entry : ∃ h t, Trace (step false) Allowed .init h t ∧
    Allowed t (.timer [Network.firstEdge]) ∧
    t.step false (.timer [Network.firstEdge]) = .error (.stp .nullPointer) := by
  obtain ⟨h, t, ht, he, hc, hcount⟩ := exists_signals
    [.onSwitchUp 1, .onSwitchUp 2, .link (.up (⟨1, 1⟩, ⟨2, 1⟩)), .deliverLinkToTopology]
    (P := fun t => t.topology.m.graph.edges = [Network.firstEdge] ∧ t.stp.computed = false ∧
      t.stp.count 1 = false)
    (by decide)
  have ha : Allowed t (.timer [Network.firstEdge]) := fun _ => he ▸ single_forest
  refine ⟨h, t, ht, ha, (sound_of_trace ht).step_missing ha fun hr => ?_⟩
  have hlink : Network.firstEdge.property.ports ∈ t.topology.m.links := by
    rw [TopologyImpl.links, he]
    exact List.mem_singleton_self _
  have hone := (hr hc _ hlink).1
  change t.stp.count 1 = true at hone
  rw [hcount] at hone
  cases hone

end Threads

end Topology
