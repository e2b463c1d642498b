import Mathlib.Data.List.TakeWhile
import Runos.Lib.Stream
import Runos.Lib.Trace
import Runos.Messaging.Entries
import Runos.Topology.Proof.Graph

/-!
# The replicated topology

* `linkSignal_discovered`, `linkSignal_broken`: the data of a request about a link reads back as the
  signal it was made from, if the id of the node has no comma.
* `linkDiscovered_spec`, `linkBroken_spec`: a discovered link is added unless the one edge that is
  looked up shares a port with it; a broken link takes every link between its switches along.
* `replicated_links`: the graph holds the live links, each once (`Replicates`), in every run in
  which entries are told apart (`Distinguished`), and the next entry keeps it so exactly when it is.
  The links of the run join two switches, lesser port first, and live links share no port
  (`LinkEntry`).
-/

namespace Messaging

open Signal Runs Topology

/-! ## The text of a request -/

theorem comma_not_mem_toDigits (n : Nat) : ',' ∉ Nat.toDigits 10 n := by
  intro h
  exact absurd (Nat.isDigit_of_mem_toDigits (by decide) (by decide) h) (by decide)

theorem split_requestData {clientId : String} (hc : ',' ∉ clientId.toList) (messageId : Nat)
    {fields : List String} (hf : ∀ f ∈ fields, ',' ∉ f.toList) :
    split (requestData clientId messageId fields) = clientId :: toString messageId :: fields := by
  have hall : ∀ l ∈ (clientId :: toString messageId :: fields).map String.toList, ',' ∉ l := by
    intro l hl
    simp only [List.map_cons, List.mem_cons, List.mem_map] at hl
    rcases hl with rfl | rfl | ⟨f, hf', rfl⟩
    · exact hc
    · simpa using comma_not_mem_toDigits messageId
    · exact hf f hf'
  rw [split, requestData, String.toList_intercalate]
  rw [show ",".toList = [','] from rfl, List.splitOn_intercalate _ hall (by simp)]
  simp [Nat.repr_eq_ofList_toDigits]

/-- A number reads back. -/
@[simp] theorem stoull_repr (n : UInt64) : stoull n.toNat.repr = .ok n := by
  have htext : n.toNat.repr.toList = Stream.showNat n.toNat := by simp [Stream.showNat]
  have hread := Stream.reads_integer n.toNat [] .nil
  rw [List.append_nil] at hread
  rw [stoull, htext, hread]
  simp only [if_neg (Nat.not_le.2 n.toNat_lt), Bool.false_eq_true, if_false, UInt64.ofNat_toNat]

@[simp] theorem stoPort_repr (n : UInt32) : stoPort n.toNat.repr = .ok n := by
  have hn : n.toNat = n.toUInt64.toNat := by simp
  rw [stoPort, hn, stoull_repr]
  show Except.ok n.toUInt64.toUInt32 = .ok n
  simp

/-- The signal an entry carries. -/
def linkSignal (data : String) : Option (Signal PortPair) :=
  let tokens := split data
  if tokens[2]? = some "linkDiscovered" then
    (readLink tokens).toOption.map .up
  else if tokens[2]? = some "linkBroken" then
    (readLink tokens).toOption.map .down
  else
    none

theorem readLink_linkFields (a b kind : String) (k : PortPair) :
    readLink (a :: b :: linkFields kind k.1 k.2) = .ok k := by
  simp [readLink, linkFields, token, bind, Except.bind]

theorem comma_not_mem_linkFields {kind : String} (hk : ',' ∉ kind.toList) (k : PortPair) :
    ∀ f ∈ linkFields kind k.1 k.2, ',' ∉ f.toList := by
  intro f hf
  simp only [linkFields, List.mem_cons, List.not_mem_nil, or_false] at hf
  rcases hf with rfl | rfl | rfl | rfl | rfl
  · exact hk
  all_goals simpa using comma_not_mem_toDigits _

section
variable {clientId : String} (hc : ',' ∉ clientId.toList) (messageId : Nat) (k : PortPair)
include hc

theorem linkSignal_discovered :
    linkSignal (requestData clientId messageId (linkFields "linkDiscovered" k.1 k.2)) =
      some (.up k) := by
  rw [linkSignal, split_requestData hc messageId (comma_not_mem_linkFields (by decide) k)]
  simp only [readLink_linkFields]
  rfl

theorem linkSignal_broken :
    linkSignal (requestData clientId messageId (linkFields "linkBroken" k.1 k.2)) =
      some (.down k) := by
  rw [linkSignal, split_requestData hc messageId (comma_not_mem_linkFields (by decide) k)]
  simp only [readLink_linkFields]
  rfl

end

/-! ## The graph -/

/-- The link shares a port with the link looked up. -/
def Occupied (l : Option LinkProperty) (k : PortPair) : Prop :=
  ∃ lp ∈ l, k.1.port = lp.source.port ∨ k.2.port = lp.target.port

instance (l : Option LinkProperty) (k : PortPair) : Decidable (Occupied l k) :=
  inferInstanceAs (Decidable (∃ _ ∈ l, _))

section
variable {ndebug : Bool} {choice : EdgeChoice LinkProperty} {m : TopologyImpl} {k : PortPair}

theorem linkDiscovered_spec (ndebug : Bool) (choice : EdgeChoice LinkProperty) (h : m.Ok)
    (hd : k.1.dpid ≠ k.2.dpid) :
    ∃ m', linkDiscovered ndebug choice m k.1 k.2 = .ok m' ∧ m'.Ok ∧
      m'.links = if Occupied (m.found choice k) k then m.links else m.links ++ [k] := by
  obtain ⟨m₁, m', u, v, hu, hv, hok, he, hmu, hmv, hkeep⟩ :=
    TopologyImpl.vertices_spec h ndebug k.1.dpid k.2.dpid
  have hlinks : m'.links = m.links := TopologyImpl.links_congr he
  have hedge := TopologyImpl.edge_eq_found choice h hok he hmu hmv hkeep
  have hadd := TopologyImpl.links_addEdge m' u v ⟨k.1, k.2, 1⟩
  have hokadd := hok.addEdge (l := ⟨k.1, k.2, 1⟩) hmu hmv
  rw [hlinks] at hadd
  simp only [linkDiscovered, hd, hu, hv, hedge, bind, Except.bind, if_false]
  cases hf : m.found choice k with
  | none => exact ⟨_, rfl, hokadd, by rw [if_neg (by simp [Occupied])]; exact hadd⟩
  | some lp =>
    by_cases hp : k.1.port = lp.source.port ∨ k.2.port = lp.target.port
    · exact ⟨m', by simp [hp], hok, by rw [if_pos ⟨lp, rfl, hp⟩]; exact hlinks⟩
    · exact ⟨_, by simp only [hp, if_false], hokadd,
        by rw [if_neg (by simpa [Occupied] using hp)]; exact hadd⟩

theorem linkBroken_spec (ndebug : Bool) (h : m.Ok) (k : PortPair) :
    ∃ m', linkBroken ndebug m k.1 k.2 = .ok m' ∧ m'.Ok ∧
      m'.links = m.links.filter fun k' => ¬ SameSwitches k' k := by
  obtain ⟨m₁, m', u, v, hu, hv, hok, he, hmu, hmv, -⟩ :=
    TopologyImpl.vertices_spec h ndebug k.1.dpid k.2.dpid
  refine ⟨{ m' with graph := m'.graph.removeEdge u v }, ?_, hok.removeEdge u v, ?_⟩
  · simp [linkBroken, hu, hv, bind, Except.bind]
  · rw [TopologyImpl.links_removeEdge hok hmu hmv, TopologyImpl.links_congr he]

end

/-! ## Processing an entry -/

/-- The links after an entry that carries a signal. -/
def linksAfter (choice : EdgeChoice LinkProperty) (m : TopologyImpl) :
    Signal PortPair → List PortPair
  | .up k => if Occupied (m.found choice k) k then m.links else m.links ++ [k]
  | .down k => m.links.filter fun k' => ¬ SameSwitches k' k

section
variable {ndebug : Bool} {choice : EdgeChoice LinkProperty} {s : Messaging} {data : String}
  {x : Signal PortPair}

theorem processTokens_spec (ndebug : Bool) (choice : EdgeChoice LinkProperty) (h : s.m.Ok)
    (hx : linkSignal data = some x) (hd : x.subject.1.dpid ≠ x.subject.2.dpid) :
    ∃ m, s.processTokens ndebug choice (split data) = .ok { s with m } ∧ m.Ok ∧
      m.links = linksAfter choice s.m x := by
  simp only [linkSignal] at hx
  split at hx
  · rename_i hkind
    cases hr : readLink (split data) with
    | error f => simp [hr, Except.toOption] at hx
    | ok k =>
      obtain rfl : Signal.up k = x := by simpa [hr, Except.toOption] using hx
      obtain ⟨m, hm, hok, hlinks⟩ := linkDiscovered_spec ndebug choice (k := k) h hd
      refine ⟨m, ?_, hok, hlinks⟩
      simp [processTokens, processLinkDiscovered, token, hkind, hr, hm, bind, Except.bind]
  · split at hx
    · rename_i hkind
      cases hr : readLink (split data) with
      | error f => simp [hr, Except.toOption] at hx
      | ok k =>
        obtain rfl : Signal.down k = x := by simpa [hr, Except.toOption] using hx
        obtain ⟨m, hm, hok, hlinks⟩ := linkBroken_spec ndebug h k
        refine ⟨m, ?_, hok, hlinks⟩
        simp [processTokens, processLinkBroken, token, hkind, hr, hm, bind, Except.bind]
    · cases hx

theorem popRequest_spec (s : Messaging) (tokens : List String) :
    (s.requestQueue = [] ∧ s.popRequest tokens = .error .undefined) ∨
      s.requestQueue ≠ [] ∧ ∃ s', s.popRequest tokens = .ok s' ∧ s'.m = s.m := by
  cases hq : s.requestQueue with
  | nil => exact .inl ⟨rfl, by rw [popRequest, hq]⟩
  | cons front rest =>
    refine .inr ⟨by simp, ?_⟩
    simp only [popRequest, hq]
    split
    · exact ⟨_, rfl, rfl⟩
    · exact ⟨s, rfl, rfl⟩

end

/-- A local event only queues a request. -/
theorem receive_spec {s s' : Messaging} {e : LocalEvent} (h : s.receive e = .ok s') :
    s' = s ∨ ∃ request, s' = { s with
      messageId := s.messageId + 1
      requestQueue := s.requestQueue ++ [request] } := by
  have hpush : ∀ {fields}, s.pushRequest fields = .ok s' → ∃ request, s' = { s with
      messageId := s.messageId + 1
      requestQueue := s.requestQueue ++ [request] } := by
    intro fields hp
    unfold pushRequest at hp
    split at hp
    · cases hp
    · cases hp
      exact ⟨_, rfl⟩
  cases e with
  | linkDiscovered source target => exact .inr (hpush h)
  | linkBroken source target => exact .inr (hpush h)
  | hostDiscovered id dev =>
    simp only [receive, onHostDiscovered] at h
    split at h
    · cases h
      exact .inl rfl
    · exact .inr (hpush h)

/-! ## Runs -/

/-- A node with the signals of the entries it has processed, the latest first. -/
structure Replica where
  app : Messaging
  seen : List (Signal PortPair)

namespace Replica

inductive Event
  | event (event : LocalEvent)
  /-- `process_entries` is called with one entry. -/
  | entry (data : String)
  deriving DecidableEq, Repr

def init (clientId : String) : Replica := ⟨.init clientId, []⟩

def step (ndebug : Bool) (choice : EdgeChoice LinkProperty) (s : Replica) :
    Event → Except Fault Replica
  | .event event => do
    let app ← s.app.receive event
    .ok { s with app }
  | .entry data => do
    let app ← s.app.processEntries ndebug choice [data]
    .ok ⟨app, (linkSignal data).toList ++ s.seen⟩

end Replica

/-- The links share no port. -/
def Apart (k k' : PortPair) : Prop := k.1 ≠ k'.1 ∧ k.1 ≠ k'.2 ∧ k.2 ≠ k'.1 ∧ k.2 ≠ k'.2

/-- The signal is about a link between two switches, lesser port first; a link that is discovered
shares no port with another live link. -/
def LinkSignal (seen : List (Signal PortPair)) (x : Signal PortPair) : Prop :=
  x.subject.1 < x.subject.2 ∧ x.subject.1.dpid ≠ x.subject.2.dpid ∧
    match x with
    | .up k => ∀ k', Live seen k' → k' ≠ k → Apart k' k
    | .down _ => True

/-- The entry of such a signal. -/
def LinkEntry (s : Replica) (data : String) : Prop := ∃ x ∈ linkSignal data, LinkSignal s.seen x

/-- A link that is discovered again is the one looked up; a link that breaks is the only one
between its switches. -/
def Told (choice : EdgeChoice LinkProperty) (s : Replica) : Signal PortPair → Prop
  | .up k => Live s.seen k → ∀ lp ∈ s.app.m.found choice k, lp.ports = k
  | .down k => Single s.seen (.down k)

/-- The queue is not empty, and the signal of the entry meets `Told`. -/
def Distinguished (choice : EdgeChoice LinkProperty) (s : Replica) (data : String) : Prop :=
  s.app.requestQueue ≠ [] ∧ ∀ x ∈ linkSignal data, Told choice s x

/-- The graph holds the live links, each once. -/
structure Replicates (s : Replica) : Prop where
  nodup : s.app.m.links.Nodup
  live : ∀ k, k ∈ s.app.m.links ↔ Live s.seen k

instance (k k' : PortPair) : Decidable (Apart k k') := inferInstanceAs (Decidable (_ ∧ _))

instance (seen : List (Signal PortPair)) : DecidablePred (LinkSignal seen)
  | .up k => inferInstanceAs (Decidable (_ ∧ _ ∧ ∀ k', Live seen k' → (k' ≠ k → Apart k' k)))
  | .down _ => inferInstanceAs (Decidable (_ ∧ _ ∧ True))

instance (s : Replica) (data : String) : Decidable (LinkEntry s data) :=
  inferInstanceAs (Decidable (∃ x ∈ linkSignal data, _))

instance (choice : EdgeChoice LinkProperty) (s : Replica) : DecidablePred (Told choice s)
  | .up k => inferInstanceAs (Decidable (Live s.seen k → ∀ lp ∈ s.app.m.found choice k, _))
  | .down k => inferInstanceAs (Decidable (Single s.seen (.down k)))

instance (choice : EdgeChoice LinkProperty) (s : Replica) (data : String) :
    Decidable (Distinguished choice s data) :=
  inferInstanceAs (Decidable (_ ∧ ∀ x ∈ linkSignal data, _))

namespace Replica

/-- A step of the runs of the module doc. -/
def Allowed (s : Replica) : Event → Prop
  | .event _ => True
  | .entry data => LinkEntry s data

def Applied (choice : EdgeChoice LinkProperty) (s : Replica) : Event → Prop
  | .event _ => True
  | .entry data => Distinguished choice s data

instance (s : Replica) : DecidablePred s.Allowed
  | .event _ => .isTrue trivial
  | .entry data => inferInstanceAs (Decidable (LinkEntry s data))

instance (choice : EdgeChoice LinkProperty) (s : Replica) : DecidablePred (s.Applied choice)
  | .event _ => .isTrue trivial
  | .entry data => inferInstanceAs (Decidable (Distinguished choice s data))

end Replica

structure Mirrored (s : Replica) : Prop extends Replicates s where
  ok : s.app.m.Ok
  ordered : ∀ k, Live s.seen k → k.1.dpid < k.2.dpid
  apart : ∀ k k', Live s.seen k → Live s.seen k' → k ≠ k' → Apart k k'

section
variable {ndebug : Bool} {choice : EdgeChoice LinkProperty} {s s' : Replica} {data : String}
  {x : Signal PortPair} {k k' : PortPair}

theorem LinkSignal.dpid_lt (h : LinkSignal s.seen x) : x.subject.1.dpid < x.subject.2.dpid := by
  rcases SwitchAndPort.lt_def.1 h.1 with hlt | ⟨heq, -⟩
  · exact hlt
  · exact absurd heq h.2.1

theorem Apart.symm (h : Apart k k') : Apart k' k :=
  ⟨h.1.symm, h.2.2.1.symm, h.2.1.symm, h.2.2.2.symm⟩

/-- Two links with the lesser port first that share no port use other ports of the switches. -/
theorem Apart.ports_ne (ha : Apart k' k) (hlt : k.1.dpid < k.2.dpid)
    (hlt' : k'.1.dpid < k'.2.dpid) (hs : SameSwitches k' k) :
    k.1.port ≠ k'.1.port ∧ k.2.port ≠ k'.2.port := by
  rcases hs with ⟨h₁, h₂⟩ | ⟨h₁, h₂⟩
  · constructor
    · intro hp
      exact ha.1 (SwitchAndPort.ext h₁ hp.symm)
    · intro hp
      exact ha.2.2.2 (SwitchAndPort.ext h₂ hp.symm)
  · rw [h₁, h₂, UInt64.lt_iff_toNat_lt] at hlt'
    rw [UInt64.lt_iff_toNat_lt] at hlt
    omega

/-- What an entry does. -/
theorem Mirrored.entry_spec (h : Mirrored s) (ndebug : Bool)
    (choice : EdgeChoice LinkProperty) (hx : linkSignal data = some x)
    (hl : LinkSignal s.seen x) (hq : s.app.requestQueue ≠ []) :
    ∃ s', s.step ndebug choice (.entry data) = .ok s' ∧ s'.seen = x :: s.seen ∧ s'.app.m.Ok ∧
      s'.app.m.links = linksAfter choice s.app.m x := by
  obtain ⟨m, hm, hok, hlinks⟩ :=
    processTokens_spec ndebug choice h.ok hx hl.2.1
  rcases popRequest_spec { s.app with m } (split data) with ⟨hnil, -⟩ | ⟨-, app, happ, hm'⟩
  · exact absurd hnil hq
  · refine ⟨⟨app, x :: s.seen⟩, ?_, rfl, ?_, ?_⟩
    · simp [Replica.step, processEntries, processEntry, hm, happ, hx, bind, Except.bind, pure,
        Except.pure]
    · rw [hm']
      exact hok
    · rw [hm']
      exact hlinks

/-- The link looked up, when it is another one, shares no port with the link. -/
theorem Mirrored.not_occupied (h : Mirrored s) (hl : LinkSignal s.seen (.up k)) {lp : LinkProperty}
    (hf : s.app.m.found choice k = some lp) (hne : lp.ports ≠ k) :
    ¬ Occupied (s.app.m.found choice k) k := by
  obtain ⟨hmem, hs⟩ := TopologyImpl.found_mem h.ok hf
  have hlive := (h.live _).1 hmem
  obtain ⟨hp₁, hp₂⟩ := (hl.2.2 _ hlive hne).ports_ne hl.dpid_lt (h.ordered _ hlive) hs
  intro hocc
  obtain ⟨lp', hlp', hp⟩ := hocc
  cases hf.symm.trans hlp'
  rcases hp with hp | hp
  · exact hp₁ hp
  · exact hp₂ hp

/-- A link is discovered for the first time, or again. -/
theorem Mirrored.replicates_up (h : Mirrored s) (hl : LinkSignal s.seen (.up k))
    (ht : Told choice s (.up k)) (hseen : s'.seen = .up k :: s.seen)
    (hlinks : s'.app.m.links = linksAfter choice s.app.m (.up k)) : Replicates s' := by
  by_cases hk : Live s.seen k
  · obtain ⟨lp, hf⟩ := Option.ne_none_iff_exists'.1
      (TopologyImpl.found_ne_none choice h.ok ((h.live k).2 hk))
    have hp := ht hk lp hf
    have hocc : Occupied (s.app.m.found choice k) k := by
      refine ⟨lp, hf, .inl ?_⟩
      rw [← hp]
      rfl
    rw [linksAfter, if_pos hocc] at hlinks
    constructor
    · rw [hlinks]
      exact h.nodup
    · intro k'
      rw [hlinks, h.live, hseen, live_up]
      constructor
      · exact .inr
      · intro hk'
        rcases hk' with rfl | hk'
        · exact hk
        · exact hk'
  · have hnot : ¬ Occupied (s.app.m.found choice k) k := by
      intro hocc
      obtain ⟨lp, hf, -⟩ := id hocc
      refine h.not_occupied hl hf (fun hp => hk ?_) hocc
      rw [← h.live, ← hp]
      exact (TopologyImpl.found_mem h.ok hf).1
    rw [linksAfter, if_neg hnot] at hlinks
    constructor
    · rw [hlinks, List.nodup_append]
      refine ⟨h.nodup, List.nodup_singleton k, ?_⟩
      intro a ha b hb heq
      obtain rfl := List.mem_singleton.1 hb
      subst heq
      exact hk ((h.live _).1 ha)
    · intro k'
      rw [hlinks, List.mem_append, List.mem_singleton, h.live, hseen, live_up]
      exact or_comm

theorem Mirrored.replicates_down (h : Mirrored s) (ht : Single s.seen (.down k))
    (hseen : s'.seen = .down k :: s.seen)
    (hlinks : s'.app.m.links = linksAfter choice s.app.m (.down k)) : Replicates s' := by
  constructor
  · rw [hlinks]
    exact h.nodup.filter _
  · intro k'
    rw [hlinks, hseen, live_down, ← h.live]
    simp only [linksAfter, List.mem_filter, decide_eq_true_eq]
    constructor
    · intro hk'
      obtain ⟨hmem, hns⟩ := hk'
      refine ⟨?_, hmem⟩
      intro heq
      exact hns (heq ▸ .refl k)
    · intro hk'
      obtain ⟨hne, hmem⟩ := hk'
      exact ⟨hmem, fun hs => hne (ht k' ((h.live k').1 hmem) hs)⟩

/-- **An entry that is told apart.** -/
theorem Mirrored.step (h : Mirrored s) (ndebug : Bool) (hx : linkSignal data = some x)
    (hl : LinkSignal s.seen x) (hd : Distinguished choice s data) :
    ∃ s', s.step ndebug choice (.entry data) = .ok s' ∧ Mirrored s' := by
  obtain ⟨s', hs', hseen, hok, hlinks⟩ := h.entry_spec ndebug choice hx hl hd.1
  have ht := hd.2 x hx
  refine ⟨s', hs', ?_⟩
  cases x with
  | up k =>
    refine ⟨h.replicates_up hl ht hseen hlinks, hok, ?_, ?_⟩
    · intro k' hk'
      rw [hseen, live_up] at hk'
      rcases hk' with rfl | hk'
      · exact hl.dpid_lt
      · exact h.ordered k' hk'
    · intro k₁ k₂ hk₁ hk₂ hne
      rw [hseen, live_up] at hk₁ hk₂
      rcases hk₁ with rfl | hk₁ <;> rcases hk₂ with rfl | hk₂
      · exact absurd rfl hne
      · exact (hl.2.2 k₂ hk₂ hne.symm).symm
      · exact hl.2.2 k₁ hk₁ hne
      · exact h.apart k₁ k₂ hk₁ hk₂ hne
  | down k =>
    refine ⟨h.replicates_down ht hseen hlinks, hok, ?_, ?_⟩
    · intro k' hk'
      rw [hseen, live_down] at hk'
      exact h.ordered k' hk'.2
    · intro k₁ k₂ hk₁ hk₂ hne
      rw [hseen, live_down] at hk₁ hk₂
      exact h.apart k₁ k₂ hk₁.2 hk₂.2 hne

/-- After an entry that is not told apart, a link is in the graph twice, or a live link is
missing. -/
theorem Mirrored.told (h : Mirrored s) (hl : LinkSignal s.seen x) (hseen : s'.seen = x :: s.seen)
    (hlinks : s'.app.m.links = linksAfter choice s.app.m x) (hr : Replicates s') :
    Told choice s x := by
  cases x with
  | up k =>
    intro hk lp hf
    by_contra hne
    have hnodup := hr.nodup
    rw [hlinks, linksAfter, if_neg (h.not_occupied hl hf hne), List.nodup_append] at hnodup
    exact hnodup.2.2 k ((h.live k).2 hk) k List.mem_cons_self rfl
  | down k =>
    intro k' hk' hs
    by_contra hne
    have hmem : k' ∈ s'.app.m.links := by
      rw [hr.live, hseen, live_down]
      exact ⟨hne, hk'⟩
    simp [hlinks, linksAfter, hs] at hmem

theorem Mirrored.init (clientId : String) : Mirrored (.init clientId) where
  nodup := List.nodup_nil
  live k := by
    simp [Replica.init, Messaging.init, TopologyImpl.init, TopologyImpl.links, Multigraph.empty]
  ok := .init
  ordered k hk := absurd hk (live_nil k)
  apart k _ hk := absurd hk (live_nil k)

/-- **The replicated topology holds the live links**, each once, in every run whose entries are
told apart; and the next entry is processed and keeps it so exactly when it is told apart too. -/
theorem replicated_links {clientId : String} {h : List (Replica × Replica.Event)}
    (hr : Trace (Replica.step ndebug choice) (fun s e => s.Allowed e ∧ s.Applied choice e)
      (.init clientId) h s) :
    Replicates s ∧ ∀ data, LinkEntry s data →
      ((∃ s', s.step ndebug choice (.entry data) = .ok s' ∧ Replicates s') ↔
        Distinguished choice s data) := by
  have hm : Mirrored s := by
    refine hr.invariant_state (.init clientId) ?_
    intro s e s' hm hok hstep
    cases e with
    | event e =>
      cases happ : s.app.receive e with
      | error f => simp [Replica.step, happ, bind, Except.bind] at hstep
      | ok app =>
        obtain rfl : { s with app } = s' := by
          simpa [Replica.step, happ, bind, Except.bind] using hstep
        have hsame : app.m = s.app.m := by
          rcases receive_spec happ with rfl | ⟨request, rfl⟩ <;> rfl
        exact ⟨⟨by rw [hsame]; exact hm.nodup, by rw [hsame]; exact hm.live⟩,
          by rw [hsame]; exact hm.ok, hm.ordered, hm.apart⟩
    | entry data =>
      obtain ⟨x, hx, hl⟩ := hok.1
      obtain ⟨s₁, hs₁, hm'⟩ := hm.step ndebug hx hl hok.2
      cases hstep.symm.trans hs₁
      exact hm'
  refine ⟨hm.toReplicates, ?_⟩
  intro data hdata
  obtain ⟨x, hx, hl⟩ := hdata
  constructor
  · intro hs'
    obtain ⟨s', hs', hrep⟩ := hs'
    have hq : s.app.requestQueue ≠ [] := by
      intro hq
      obtain ⟨m, hm', -, -⟩ :=
        processTokens_spec ndebug choice hm.ok hx hl.2.1
      simp [Replica.step, processEntries, processEntry, hm', popRequest, hq, bind,
        Except.bind] at hs'
    obtain ⟨s₁, hs₁, hseen, -, hlinks⟩ := hm.entry_spec ndebug choice hx hl hq
    cases hs'.symm.trans hs₁
    refine ⟨hq, fun y hy => ?_⟩
    cases hx.symm.trans hy
    exact hm.told hl hseen hlinks hrep
  · intro hd
    obtain ⟨s', hs', hm'⟩ := hm.step ndebug hx hl hd
    exact ⟨s', hs', hm'.toReplicates⟩

end

/-- A link is discovered twice, then another one between the same switches, and a third one is
discovered and breaks. -/
theorem replicated_links_repeated : ∃ h s,
    Trace (Replica.step false .first) (fun s e => s.Allowed e ∧ s.Applied .first e)
      (.init "n1") h s ∧
    s.app.m.links = [(⟨1, 1⟩, ⟨2, 1⟩), (⟨1, 2⟩, ⟨2, 2⟩)] ∧ Replicates s := by
  obtain ⟨h, s, hr, hlinks⟩ := exists_trace (Replica.step false .first)
    (fun s e => s.Allowed e ∧ s.Applied .first e) (.init "n1")
    [.event (.linkDiscovered ⟨1, 1⟩ ⟨2, 1⟩), .event (.linkBroken ⟨5, 1⟩ ⟨6, 1⟩),
      .entry "n1,1,linkDiscovered,1,1,2,1", .entry "n1,1,linkDiscovered,1,1,2,1",
      .entry "n2,1,linkDiscovered,1,2,2,2", .entry "n2,2,linkDiscovered,2,3,3,1",
      .entry "n2,3,linkBroken,2,3,3,1"]
    (P := fun _ s => s.app.m.links = [(⟨1, 1⟩, ⟨2, 1⟩), (⟨1, 2⟩, ⟨2, 2⟩)])
    (by decide +kernel)
  exact ⟨h, s, hr, hlinks, (replicated_links hr).1⟩

/-- Two links between the same switches are discovered, the second twice: it is in the graph
twice. -/
theorem replicated_links_parallel : ∃ h s,
    Trace (Replica.step false .first) Replica.Allowed (.init "n1") h s ∧
    s.app.m.links = [(⟨1, 1⟩, ⟨2, 1⟩), (⟨1, 2⟩, ⟨2, 2⟩), (⟨1, 2⟩, ⟨2, 2⟩)] ∧ ¬ Replicates s := by
  obtain ⟨h, s, hr, hlinks⟩ := exists_trace (Replica.step false .first) Replica.Allowed (.init "n1")
    [.event (.linkDiscovered ⟨1, 1⟩ ⟨2, 1⟩), .event (.linkDiscovered ⟨1, 2⟩ ⟨2, 2⟩),
      .event (.linkDiscovered ⟨3, 1⟩ ⟨4, 1⟩), .entry "n1,1,linkDiscovered,1,1,2,1",
      .entry "n1,2,linkDiscovered,1,2,2,2", .entry "n1,2,linkDiscovered,1,2,2,2"]
    (P := fun _ s => s.app.m.links = [(⟨1, 1⟩, ⟨2, 1⟩), (⟨1, 2⟩, ⟨2, 2⟩), (⟨1, 2⟩, ⟨2, 2⟩)])
    (by decide +kernel)
  refine ⟨h, s, hr, hlinks, fun hrep => ?_⟩
  have hnodup := hrep.nodup
  rw [hlinks] at hnodup
  exact absurd hnodup (by decide)

end Messaging
