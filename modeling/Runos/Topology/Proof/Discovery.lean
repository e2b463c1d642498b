import Runos.Lib.Lists
import Runos.Topology.Proof.Announcements
import Runos.Topology.Proof.Lldp

/-!
# Links and cables

`Fabric`: the application, the LLDP packets that are on their way between the switches, and the
calls of `handleBeacon` that are queued. Packets are delivered in any order, padded or lost, among
frames that are no LLDP packets. Whatever the order, no call faults and every link of the database
is a cable (`links_are_cables`); and a cable at a port that is polled is in the database once its
packets and its beacons are gone, unless every one of them was lost (`cables_are_discovered`).
-/

namespace LinkDiscovery

open Runs Signal Blocks

/-! ## The fabric -/

/-- The cables between ports: each port has one at most, and none leads back to it. -/
structure Cabling where
  peer : SwitchAndPort → Option SwitchAndPort
  symm : ∀ a b, peer a = some b → peer b = some a
  irrefl : ∀ a, peer a ≠ some a

structure Fabric where
  sys : System
  /-- the frames on their way, each with the port it comes in on -/
  wire : List (SwitchAndPort × List Byte)
  /-- the calls of `handleBeacon`, the oldest first -/
  queue : List PortPair

namespace Fabric

def init : Fabric := ⟨.init, [], []⟩

inductive Event
  | portUp (dpid : UInt64) (port : Port)
  | portModified (dpid : UInt64) (port oldPort : Port)
  | portDown (dpid : UInt64) (portNo : UInt32)
  | timer (now : Nat) (switches : List (UInt64 × List Port))
  | deliver (k : Nat) (front : Byte × Byte) (padding : List Byte)
  | lose (k : Nat)
  | other (target : SwitchAndPort) (front : Byte × Byte) (frame : List Byte)
  | handle (now : Nat)

/-- What is sent out of a port with a cable comes in on its other end. -/
def arrivals (c : Cabling) (sent : List PacketOut) : List (SwitchAndPort × List Byte) :=
  sent.filterMap fun po => (c.peer ⟨po.switch, po.output⟩).map fun target => (target, po.data)

def send (c : Cabling) (n : Fabric) (sent : List PacketOut) : Fabric :=
  { n with wire := n.wire ++ arrivals c sent }

def step (c : Cabling) (pollInterval : UInt32) (n : Fabric) : Event → Except Fault Fabric
  | .portUp dpid port => .ok (n.send c (portUp pollInterval dpid port))
  | .portModified dpid port oldPort => do
    let (app, sent) ← n.sys.app.portModified pollInterval false dpid port oldPort
    .ok ({ n with sys := { n.sys with app } }.send c sent)
  | .portDown dpid portNo => do
    let app ← n.sys.app.portDown false dpid portNo
    .ok { n with sys := { n.sys with app } }
  | .timer now switches => do
    let app ← n.sys.app.timerEvent false now
    .ok ({ n with sys := { n.sys with app } }.send c (poll pollInterval switches))
  | .deliver k front padding =>
    match n.wire[k]? with
    | none => .ok n
    | some (target, frame) =>
      .ok { n with
        wire := n.wire.eraseIdx k
        queue := n.queue ++ (packetIn target front (frame ++ padding)).toList }
  | .lose k => .ok { n with wire := n.wire.eraseIdx k }
  | .other target front frame =>
    .ok { n with queue := n.queue ++ (packetIn target front frame).toList }
  | .handle now =>
    match n.queue with
    | [] => .ok n
    | (source, target) :: queue => do
      let app ← n.sys.app.handleBeacon pollInterval now source target
      .ok { n with sys := ⟨app, some now⟩, queue }

/-- The other frames are no LLDP packets, and the clock of the beacons advances. -/
def Allowed (n : Fabric) : Event → Prop
  | .other _ _ frame => Foreign frame
  | .handle now => ∀ t ∈ n.sys.lastBeacon, t < now
  | _ => True

instance (n : Fabric) : DecidablePred (Allowed n)
  | .other _ _ frame => inferInstanceAs (Decidable (Foreign frame))
  | .handle _ => inferInstanceAs (Decidable (∀ _ ∈ _, _))
  | .portUp .. | .portModified .. | .portDown .. | .timer .. | .deliver .. | .lose _ =>
    .isTrue trivial

/-! ## One step -/

/-- The call that an event makes of the application. -/
def call (n : Fabric) : Event → Option LinkDiscovery.Event
  | .portUp .. | .deliver .. | .lose _ | .other .. => none
  | .portModified dpid port oldPort =>
    if port.live = false ∧ oldPort.live = true then some (.clear ⟨dpid, port.portNo⟩) else none
  | .portDown dpid portNo => some (.clear ⟨dpid, portNo⟩)
  | .timer now _ => some (.timer now)
  | .handle now => n.queue.head?.map fun k => .beacon now k.1 k.2

/-- The packets that it sends. -/
def sent (pollInterval : UInt32) : Event → List PacketOut
  | .portUp dpid port => LinkDiscovery.portUp pollInterval dpid port
  | .portModified dpid port oldPort =>
    if port.live = true ∧ oldPort.live = false then sendLLDP pollInterval dpid port else []
  | .timer _ switches => poll pollInterval switches
  | _ => []

/-- The frames that it takes off the wire. -/
def taken (n : Fabric) : Event → List (SwitchAndPort × List Byte)
  | .deliver k _ _ | .lose k => n.wire.eraseIdx k
  | _ => n.wire

/-- The beacon that it queues. -/
def queued (n : Fabric) : Event → Option PortPair
  | .deliver k front padding => n.wire[k]?.bind fun f => packetIn f.1 front (f.2 ++ padding)
  | .other target front frame => packetIn target front frame
  | _ => none

/-- What is left of the queue. -/
def waiting (n : Fabric) : Event → List PortPair
  | .handle _ => n.queue.tail
  | _ => n.queue

/-- The state once the application has come to `sys`. -/
def after (c : Cabling) (pollInterval : UInt32) (n : Fabric) (e : Event) (sys : System) :
    Fabric where
  sys := sys
  wire := n.taken e ++ arrivals c (sent pollInterval e)
  queue := n.waiting e ++ (n.queued e).toList

variable {c : Cabling} {pollInterval : UInt32} {n n' : Fabric} {e : Event} {k : PortPair}

@[simp] theorem arrivals_nil : arrivals c [] = [] := rfl

/-- **A step** is the call of the application, if there is one, and what the event does to the wire
and the queue. -/
theorem step_eq (c : Cabling) (pollInterval : UInt32) (n : Fabric) (e : Event) :
    n.step c pollInterval e =
      match n.call e with
      | none => .ok (n.after c pollInterval e n.sys)
      | some x => n.sys.step pollInterval false x >>= fun sys =>
          .ok (n.after c pollInterval e sys) := by
  cases e with
  | portUp dpid port => simp [step, call, after, send, taken, waiting, queued, sent]
  | portModified dpid port oldPort =>
    cases hl : port.live <;> cases ho : oldPort.live <;>
      simp [step, call, after, send, taken, waiting, queued, sent, portModified, hl, ho,
        System.step, Bind.bind, Except.bind]
    cases n.sys.app.clearLinkAt false ⟨dpid, port.portNo⟩ <;> simp
  | portDown dpid portNo =>
    simp only [step, call, portDown, System.step, Bind.bind, Except.bind]
    cases n.sys.app.clearLinkAt false ⟨dpid, portNo⟩ <;>
      simp [after, taken, waiting, queued, sent]
  | timer now switches =>
    simp only [step, call, System.step, Bind.bind, Except.bind]
    cases n.sys.app.timerEvent false now <;> simp [after, send, taken, waiting, queued, sent]
  | deliver k front padding =>
    cases hk : n.wire[k]? with
    | none =>
      have hle := List.getElem?_eq_none_iff.1 hk
      simp [step, call, after, taken, waiting, queued, sent, hk, List.eraseIdx_of_length_le hle]
    | some f => simp [step, call, after, taken, waiting, queued, sent, hk]
  | lose k => simp [step, call, after, taken, waiting, queued, sent]
  | other target front frame => simp [step, call, after, taken, waiting, queued, sent]
  | handle now =>
    cases hq : n.queue with
    | nil =>
      simp only [step, call, after, taken, waiting, queued, sent, hq, List.head?_nil,
        Option.map_none, arrivals_nil, List.append_nil, Option.toList_none, List.tail_nil]
      rw [← hq]
    | cons k queue =>
      simp only [step, call, hq, List.head?_cons, Option.map_some, System.step, Bind.bind,
        Except.bind]
      cases n.sys.app.handleBeacon pollInterval now k.1 k.2 <;>
        simp [after, taken, waiting, queued, sent, hq]

/-! ## Cables -/

theorem lt_or_lt_of_ne {a b : SwitchAndPort} (h : a ≠ b) : a < b ∨ b < a := by
  rw [SwitchAndPort.lt_def, SwitchAndPort.lt_def]
  simp only [UInt64.lt_iff_toNat_lt, UInt32.lt_iff_toNat_lt]
  have hne : ¬ (a.dpid.toNat = b.dpid.toNat ∧ a.port.toNat = b.port.toNat) := fun hab =>
    h (SwitchAndPort.ext (UInt64.toNat_inj.1 hab.1) (UInt32.toNat_inj.1 hab.2))
  by_cases hd : a.dpid = b.dpid
  · simp only [hd, true_and] at hne ⊢
    omega
  · have hd' : a.dpid.toNat ≠ b.dpid.toNat := fun heq => hd (UInt64.toNat_inj.1 heq)
    omega

/-- The two ports of a cable, the lower one first. -/
structure IsCable (c : Cabling) (k : PortPair) : Prop where
  lt : k.1 < k.2
  peer : c.peer k.1 = some k.2

namespace IsCable

variable {k' : PortPair} {a b : SwitchAndPort}

/-- What a beacon names. -/
theorem beaconPorts (h : c.peer a = some b) : IsCable c (beaconPorts a b) := by
  unfold LinkDiscovery.beaconPorts
  split
  · exact ⟨‹_›, c.symm a b h⟩
  · rename_i hnot
    have hne : a ≠ b := fun hab => c.irrefl a (by rw [h, hab])
    exact ⟨(lt_or_lt_of_ne hne).resolve_right hnot, h⟩

/-- Two cables with a port in common are one. -/
theorem eq_of_port (h : IsCable c k) (h' : IsCable c k') {x : SwitchAndPort}
    (hx : x = k.1 ∨ x = k.2) (hx' : x = k'.1 ∨ x = k'.2) : k = k' := by
  obtain ⟨a, b⟩ := k
  obtain ⟨a', b'⟩ := k'
  have hab := h.peer
  have hba := c.symm a b hab
  have hab' := h'.peer
  have hba' := c.symm a' b' hab'
  have hlt : a < b := h.lt
  have hlt' : a' < b' := h'.lt
  dsimp only at hx hx' hab hab'
  rcases hx with rfl | rfl
  · rcases hx' with rfl | rfl
    · rw [Option.some.inj (hab.symm.trans hab')]
    · cases hab.symm.trans hba'
      exact absurd hlt' (SwitchAndPort.lt_asymm hlt)
  · rcases hx' with rfl | rfl
    · cases hba.symm.trans hab'
      exact absurd hlt' (SwitchAndPort.lt_asymm hlt)
    · rw [Option.some.inj (hba.symm.trans hba')]

end IsCable

/-- The links are cables, and the two indexes and the signals are right. -/
structure Linked (c : Cabling) (pollInterval : UInt32) (s : System) : Prop where
  indexed : s.app.Indexed
  described : s.Described pollInterval
  cable : ∀ it l, s.app.links.find it = some l → IsCable c l.ports

/-- A call that the fabric makes: a beacon of a cable, at a later time than the last one. -/
def Proper (c : Cabling) (s : System) : LinkDiscovery.Event → Prop
  | .beacon now source target => IsCable c (source, target) ∧ ∀ t ∈ s.lastBeacon, t < now
  | _ => True

namespace Linked

variable {s s' : System} {x : LinkDiscovery.Event} {ap : SwitchAndPort} {it : Nat}
  {l : DiscoveredLink} {source target : SwitchAndPort} {now : Nat}

/-- The entry at a port leads to the cable that is there. -/
theorem ports_of_out (h : Linked c pollInterval s) (hk : IsCable c k)
    (hap : ap = k.1 ∨ ap = k.2) (ho : s.app.outEdges ap = some it) :
    ∃ l, s.app.links.find it = some l ∧ l.ports = k := by
  obtain ⟨l, hl, hport⟩ := h.indexed.out ap it ho
  exact ⟨l, hl, (h.cable it l hl).eq_of_port hk (hport.imp Eq.symm Eq.symm) hap⟩

theorem out_of_port (h : Linked c pollInterval s) (hl : s.app.links.find it = some l)
    (hap : ap = l.ports.1 ∨ ap = l.ports.2) : s.app.outEdges ap = some it := by
  rcases hap with rfl | rfl
  · exact h.indexed.source it l hl
  · exact h.indexed.target it l hl

theorem beaconMatches (h : Linked c pollInterval s) (hk : IsCable c (source, target))
    (hnow : ∀ t ∈ s.lastBeacon, t < now) :
    BeaconMatches pollInterval s.app now source target := by
  refine ⟨fun a ha ho => ?_, fun a ha hne => ?_⟩
  · obtain ⟨l, hl, hports⟩ := h.ports_of_out hk (.inl rfl) ho
    rw [OrderedSet.find_eq_some.2 ha] at hl
    cases hl
    obtain ⟨h1, h2⟩ := Prod.mk.inj hports
    exact ⟨.inl h1, .inr h2⟩
  · have hl : s.app.links.find a.1 = some a.2 := OrderedSet.find_eq_some.2 ha
    have notTarget : ∀ ap, (ap = a.2.ports.1 ∨ ap = a.2.ports.2) → ap ≠ target := by
      intro ap hap heq
      have hports := (h.cable _ _ hl).eq_of_port hk hap (.inr heq)
      exact hne (h.out_of_port hl (.inl (congrArg Prod.fst hports).symm))
    exact ⟨h.described.new_key ⟨hk.lt, hnow⟩ _ _ hl, notTarget _ (.inl rfl),
      notTarget _ (.inr rfl)⟩

theorem beaconRecognized (h : Linked c pollInterval s) (hk : IsCable c (source, target)) :
    BeaconRecognized s.app source target where
  known it ho := h.ports_of_out hk (.inl rfl) ho
  new ho a ha hports := by
    have hl := OrderedSet.find_eq_some.2 ha
    cases ho.symm.trans (h.out_of_port hl (.inl (congrArg Prod.fst hports).symm))

/-- A call of the fabric is one that both indexes survive, and one that is announced rightly. -/
theorem matching (h : Linked c pollInterval s) (hx : Proper c s x) :
    Matching pollInterval false s.app x ∧ Increasing s x ∧ Recognized s.app x := by
  have irrefl : ∀ a ∈ s.app.links.nodes, a.2.source ≠ a.2.target := fun a ha heq => by
    have hlt : a.2.source < a.2.target := (h.cable _ _ (OrderedSet.find_eq_some.2 ha)).lt
    rw [heq] at hlt
    exact SwitchAndPort.lt_asymm hlt hlt
  cases x with
  | beacon now source target =>
    exact ⟨h.beaconMatches hx.1 hx.2, ⟨hx.1.lt, hx.2⟩, h.beaconRecognized hx.1⟩
  | clear source =>
    refine ⟨fun a ha _ => irrefl a ha, trivial, fun it ho hnone => ?_⟩
    obtain ⟨l, hl⟩ := h.indexed.found it ho
    cases hnone.symm.trans hl
  | timer now => exact ⟨fun a ha _ => ⟨rfl, irrefl a ha⟩, trivial, trivial⟩

end Linked

/-! ## The links after a call -/

/-- The link is in the database. -/
def Present (s : System) (k : PortPair) : Prop :=
  ∃ it l, s.app.links.find it = some l ∧ l.ports = k

/-- The call can remove the link. -/
def Removes (k : PortPair) : LinkDiscovery.Event → Prop
  | .beacon .. => False
  | .clear ap => ap = k.1 ∨ ap = k.2
  | .timer _ => True

instance (k : PortPair) : DecidablePred (Removes k)
  | .beacon .. => .isFalse id
  | .clear _ => inferInstanceAs (Decidable (_ ∨ _))
  | .timer _ => .isTrue trivial

/-- What a call does to the links. -/
structure Changes (x : LinkDiscovery.Event) (s s' : System) : Prop where
  old : ∀ k, Present s' k → Present s k ∨ ∃ now, x = .beacon now k.1 k.2
  new : ∀ now k, x = .beacon now k.1 k.2 → Present s' k
  kept : ∀ k, Present s k → ¬ Removes k x → Present s' k

namespace Linked

variable {s s' : System} {x : LinkDiscovery.Event} {source target : SwitchAndPort} {now : Nat}

theorem changes_beacon (h : Linked c pollInterval s)
    (hx : Proper c s (.beacon now source target))
    (hs : s.step pollInterval false (.beacon now source target) = .ok s') :
    Changes (.beacon now source target) s s' := by
  have hb := h.beaconRecognized hx.1
  obtain ⟨app, happ, ht⟩ := handleBeacon_spec (s := s.app) pollInterval now target hb.found
    fun j l hl => h.described.new_key ⟨hx.1.lt, hx.2⟩ j l (kept_eq_some.1 hl).2
  rw [System.step, happ] at hs
  cases hs
  have hnew : Present ⟨app, some now⟩ (source, target) := ⟨_, _, ht.find_new, rfl⟩
  refine ⟨fun k hk => ?_, fun now' k heq => ?_, fun k hk _ => ?_⟩
  · obtain ⟨it, l, hl, rfl⟩ := hk
    rcases (ht.find_iff h.described.app hb).1 hl with ⟨-, rfl⟩ | ⟨hl, -⟩
    · exact .inr ⟨now, rfl⟩
    · exact .inl ⟨it, l, hl, rfl⟩
  · cases heq
    exact hnew
  · obtain ⟨it, l, hl, rfl⟩ := hk
    by_cases hports : l.ports = (source, target)
    · rw [hports]
      exact hnew
    · exact ⟨it, l, (ht.find_iff h.described.app hb).2 (.inr ⟨hl, hports⟩), rfl⟩

theorem changes_clear (h : Linked c pollInterval s) {ap : SwitchAndPort}
    (hs : s.step pollInterval false (.clear ap) = .ok s') : Changes (.clear ap) s s' := by
  cases ho : s.app.outEdges ap with
  | none =>
    simp only [System.step, clearLinkAt, ho, Bind.bind, Except.bind, Except.ok.injEq] at hs
    subst hs
    exact ⟨fun k hk => .inl hk, fun now k heq => (by cases heq), fun k hk _ => hk⟩
  | some it =>
    obtain ⟨l, hl, hport⟩ := h.indexed.out ap it ho
    simp only [System.step, clearLinkAt_eq false ho hl hport] at hs
    split at hs
    · cases hs
    · cases hs
      refine ⟨fun k hk => .inl ?_, fun now k heq => (by cases heq), fun k hk hrem => ?_⟩
      · obtain ⟨j, l', hl', hports⟩ := hk
        exact ⟨j, l', (OrderedSet.find_erase_eq_some.1 hl').2, hports⟩
      · obtain ⟨j, l', hl', rfl⟩ := hk
        refine ⟨j, l', OrderedSet.find_erase_eq_some.2 ⟨fun hj => hrem ?_, hl'⟩, rfl⟩
        subst hj
        cases hl.symm.trans hl'
        exact hport.imp Eq.symm Eq.symm

theorem changes_timer (h : Linked c pollInterval s)
    (hs : s.step pollInterval false (.timer now) = .ok s') : Changes (.timer now) s s' := by
  rcases h.described.app.expire false now s.app.links.size with hf | ⟨app, happ, -, hsub⟩
  · rw [System.step, timerEvent, hf] at hs
    cases hs
  · rw [System.step, timerEvent, happ] at hs
    cases hs
    refine ⟨fun k hk => .inl ?_, fun now k heq => (by cases heq),
      fun k _ hrem => absurd trivial hrem⟩
    obtain ⟨it, l, hl, hports⟩ := hk
    exact ⟨it, l, hsub it l hl, hports⟩

/-- **A call of the fabric** returns, and the links are cables again. -/
theorem step (h : Linked c pollInterval s) (hx : Proper c s x) :
    ∃ s', s.step pollInterval false x = .ok s' ∧ Linked c pollInterval s' ∧ Changes x s s' := by
  obtain ⟨hmatch, hinc, hrec⟩ := h.matching hx
  obtain ⟨s', hs', hindexed⟩ := (step_indexed h.indexed x).2 hmatch
  have hdescribed : s'.Described pollInterval := by
    rcases step_recognized false h.described hinc hrec with ⟨s'', hs'', hd⟩ | hf | hf
    · cases hs'.symm.trans hs''
      exact hd
    · cases hs'.symm.trans hf
    · cases hs'.symm.trans hf
  have hchanges : Changes x s s' := by
    cases x with
    | beacon now source target => exact h.changes_beacon hx hs'
    | clear ap => exact h.changes_clear hs'
    | timer now => exact h.changes_timer hs'
  refine ⟨s', hs', ⟨hindexed, hdescribed, fun it l hl => ?_⟩, hchanges⟩
  rcases hchanges.old l.ports ⟨it, l, hl, rfl⟩ with ⟨j, l', hl', hports⟩ | ⟨now, rfl⟩
  · rw [← hports]
    exact h.cable j l' hl'
  · exact hx.1

end Linked

/-! ## Runs -/

/-- A frame on the wire is an LLDP packet that was sent out of the other end of a cable. -/
def Sent (c : Cabling) (pollInterval : UInt32) (f : SwitchAndPort × List Byte) : Prop :=
  ∃ (dpid : UInt64) (port : Port), c.peer ⟨dpid, port.portNo⟩ = some f.1 ∧
    f.2 = (lldp pollInterval dpid port).bytes

/-- The invariant of the fabric. -/
structure Sound (c : Cabling) (pollInterval : UInt32) (n : Fabric) : Prop where
  linked : Linked c pollInterval n.sys
  wire : ∀ f ∈ n.wire, Sent c pollInterval f
  queue : ∀ k ∈ n.queue, IsCable c k

theorem Sound.init : Sound c pollInterval .init where
  linked := by
    refine ⟨⟨fun ap it ho => ?_, fun it l hl => ?_, fun it l hl => ?_⟩,
      ⟨.init, by simp [Fabric.init, System.init, LinkDiscovery.init]⟩, fun it l hl => ?_⟩
    · cases ho
    all_goals cases hl
  wire f hf := by cases hf
  queue k hk := by cases hk

/-- Every packet that is sent is the LLDP packet of its port. -/
theorem mem_sent {po : PacketOut} (h : po ∈ sent pollInterval e) :
    ∃ (dpid : UInt64) (port : Port),
      po = ⟨dpid, (lldp pollInterval dpid port).bytes, port.portNo⟩ := by
  have mem_sendLLDP : ∀ {dpid : UInt64} {port : Port}, po ∈ sendLLDP pollInterval dpid port →
      ∃ (dpid : UInt64) (port : Port),
        po = ⟨dpid, (lldp pollInterval dpid port).bytes, port.portNo⟩ := by
    intro dpid port hm
    exact ⟨dpid, port, by simpa [sendLLDP] using hm⟩
  cases e with
  | portUp dpid port =>
    simp only [sent, LinkDiscovery.portUp] at h
    split at h
    · cases h
    · split at h
      · exact mem_sendLLDP h
      · cases h
  | portModified dpid port oldPort =>
    simp only [sent] at h
    split at h
    · exact mem_sendLLDP h
    · cases h
  | timer now switches =>
    simp only [sent, poll, List.mem_flatMap] at h
    obtain ⟨sw, -, port, -, h⟩ := h
    split at h
    · cases h
    · exact mem_sendLLDP h
  | _ => cases h

theorem mem_arrivals {f : SwitchAndPort × List Byte}
    (h : f ∈ arrivals c (sent pollInterval e)) : Sent c pollInterval f := by
  obtain ⟨po, hpo, hf⟩ := List.mem_filterMap.1 h
  obtain ⟨dpid, port, rfl⟩ := mem_sent hpo
  obtain ⟨target, hpeer, rfl⟩ := Option.map_eq_some_iff.1 hf
  exact ⟨dpid, port, hpeer, rfl⟩

/-- The beacon of a frame on the wire: it names the cable, however the frame is padded. -/
theorem Sent.packetIn {f : SwitchAndPort × List Byte} (h : Sent c pollInterval f) :
    ∃ k, IsCable c k ∧ ∀ front padding,
      LinkDiscovery.packetIn f.1 front (f.2 ++ padding) = some k := by
  obtain ⟨target, frame⟩ := f
  obtain ⟨dpid, port, hpeer, rfl⟩ := h
  exact ⟨_, .beaconPorts hpeer, fun front padding => packetIn_lldp target front⟩

namespace Sound

theorem mem_taken (h : Sound c pollInterval n) (e : Event) :
    ∀ f ∈ n.taken e, Sent c pollInterval f := by
  intro f hf
  cases e with
  | deliver k front padding => exact h.wire f (List.mem_of_mem_eraseIdx hf)
  | lose k => exact h.wire f (List.mem_of_mem_eraseIdx hf)
  | _ => exact h.wire f hf

theorem queued_cable (h : Sound c pollInterval n) (ha : Allowed n e)
    (hk : n.queued e = some k) : IsCable c k := by
  cases e with
  | deliver j front padding =>
    obtain ⟨f, hf, hin⟩ := Option.bind_eq_some_iff.1 hk
    obtain ⟨k', hcable, hin'⟩ := (h.wire f (List.mem_of_getElem? hf)).packetIn
    cases (hin' front padding).symm.trans hin
    exact hcable
  | other target front frame =>
    have hnone : n.queued (.other target front frame) = none := packetIn_foreign target front ha
    cases hnone.symm.trans hk
  | _ => cases hk

theorem proper_call (h : Sound c pollInterval n) (ha : Allowed n e) {x : LinkDiscovery.Event}
    (hx : n.call e = some x) : Proper c n.sys x := by
  cases e with
  | portModified dpid port oldPort =>
    simp only [call] at hx
    split at hx
    · cases hx
      trivial
    · cases hx
  | portDown dpid portNo =>
    cases hx
    trivial
  | timer now switches =>
    cases hx
    trivial
  | handle now =>
    obtain ⟨k, hk, rfl⟩ := Option.map_eq_some_iff.1 hx
    exact ⟨h.queue k (List.mem_of_mem_head? hk), ha⟩
  | _ => cases hx

/-- **A step of the fabric** returns and keeps the invariant. -/
theorem step (h : Sound c pollInterval n) (ha : Allowed n e) :
    ∃ sys, n.step c pollInterval e = .ok (n.after c pollInterval e sys) ∧
      Sound c pollInterval (n.after c pollInterval e sys) ∧
      (n.call e = none → sys = n.sys) ∧ ∀ x, n.call e = some x → Changes x n.sys sys := by
  have sound : ∀ sys, Linked c pollInterval sys → Sound c pollInterval
      (n.after c pollInterval e sys) := by
    refine fun sys hsys => ⟨hsys, fun f hf => ?_, fun k hk => ?_⟩
    · rcases List.mem_append.1 hf with hf | hf
      · exact h.mem_taken e f hf
      · exact mem_arrivals hf
    · rcases List.mem_append.1 hk with hk | hk
      · cases e with
        | handle now => exact h.queue k (List.mem_of_mem_tail hk)
        | _ => exact h.queue k hk
      · exact h.queued_cable ha (Option.mem_toList.1 hk)
  rw [step_eq]
  cases hx : n.call e with
  | none => exact ⟨n.sys, rfl, sound _ h.linked, fun _ => rfl, fun x hx => by cases hx⟩
  | some x =>
    obtain ⟨sys, hsys, hlinked, hchanges⟩ := h.linked.step (h.proper_call ha hx)
    refine ⟨sys, ?_, sound sys hlinked, fun hno => (by cases hno), fun x' hx' => ?_⟩
    · dsimp only
      rw [hsys]
      rfl
    · cases hx'
      exact hchanges

end Sound

/-- A run of the fabric. -/
abbrev Run (c : Cabling) (pollInterval : UInt32) (h : List (Fabric × Event)) (n : Fabric) : Prop :=
  Trace (step c pollInterval) Allowed .init h n

theorem sound_of_run {h : List (Fabric × Event)} (hr : Run c pollInterval h n) :
    Sound c pollInterval n := by
  refine hr.invariant_state Sound.init fun n e n' hn ha hstep => ?_
  obtain ⟨sys, hsys, hn', -⟩ := hn.step ha
  cases hsys.symm.trans hstep
  exact hn'

/-- **Links are cables.** However packets are delivered, padded and lost, and whatever else comes
in: the two indexes agree, the links of the database are cables and are those that the signals
announce, every beacon that waits names a cable, and the next call returns. -/
theorem links_are_cables {h : List (Fabric × Event)} (hr : Run c pollInterval h n) :
    n.sys.app.Indexed ∧ n.sys.app.Announces ∧
      (∀ it l, n.sys.app.links.find it = some l → IsCable c l.ports) ∧
      (∀ k ∈ n.queue, IsCable c k) ∧
      ∀ e, Allowed n e → ∃ n', n.step c pollInterval e = .ok n' := by
  have hn := sound_of_run hr
  refine ⟨hn.linked.indexed, hn.linked.described.app.toAnnounces, hn.linked.cable, hn.queue,
    fun e ha => ?_⟩
  obtain ⟨sys, hsys, -⟩ := hn.step ha
  exact ⟨_, hsys⟩

/-! ## Every cable -/

/-- The frame is an LLDP packet about the cable. -/
def carries (k : PortPair) (f : SwitchAndPort × List Byte) : Bool :=
  packetIn f.1 (0, 0) f.2 = some k

/-- The copies on the wire. -/
def copies (k : PortPair) (n : Fabric) : Nat := n.wire.countP (carries k)

/-- The step loses a copy. -/
def loses (k : PortPair) : Fabric × Event → Bool
  | (n, .lose j) => n.wire[j]?.any (carries k)
  | _ => false

/-- The copies that were lost. -/
def lost (k : PortPair) (h : List (Fabric × Event)) : Nat := h.countP (loses k)

/-- The copies that were sent. -/
def added (c : Cabling) (pollInterval : UInt32) (k : PortPair) : List (Fabric × Event) → Nat
  | [] => 0
  | x :: h =>
    added c pollInterval k h + (arrivals c (sent pollInterval x.2)).countP (carries k)

/-- The event does not remove the link. -/
def Spares (k : PortPair) (n : Fabric) (e : Event) : Prop := ∀ x ∈ n.call e, ¬ Removes k x

instance (k : PortPair) (n : Fabric) : DecidablePred (Spares k n) := fun _ =>
  inferInstanceAs (Decidable (∀ _ ∈ _, _))

/-- What is owed from `n₀` on: the copies are still on the wire or lost, or one of them has come to
the queue or the database. -/
def Owed (c : Cabling) (pollInterval : UInt32) (k : PortPair) (n₀ : Fabric)
    (h : List (Fabric × Event)) (n : Fabric) : Prop :=
  copies k n₀ + added c pollInterval k h ≤ copies k n + lost k h ∨ k ∈ n.queue ∨ Present n.sys k

/-- A copy leaves the wire for the queue, or it is lost. -/
theorem Sound.copies_taken (h : Sound c pollInterval n) (e : Event) (k : PortPair) :
    copies k n ≤ (n.taken e).countP (carries k) + (if loses k (n, e) then 1 else 0) ∨
      n.queued e = some k := by
  cases e with
  | lose j => exact .inl (List.countP_eraseIdx _ _ _).le
  | deliver j front padding =>
    have hcount := List.countP_eraseIdx (carries k) n.wire j
    cases hf : n.wire[j]? with
    | none =>
      rw [hf] at hcount
      exact .inl hcount.le
    | some f =>
      by_cases hk : carries k f = true
      · obtain ⟨k', -, hin⟩ := (h.wire f (List.mem_of_getElem? hf)).packetIn
        have hk' : some k' = some k := by
          rw [← hin (0, 0) [], List.append_nil]
          exact of_decide_eq_true hk
        refine .inr ?_
        rw [queued, hf, Option.bind_some, hin, hk']
      · rw [hf, Option.any_some, if_neg hk] at hcount
        exact .inl hcount.le
  | _ => exact .inl (Nat.le_add_right _ _)

theorem Owed.step {h : List (Fabric × Event)} {n₀ : Fabric} (ho : Owed c pollInterval k n₀ h n)
    (hn : Sound c pollInterval n) (hs : Spares k n e) {sys : System}
    (hnone : n.call e = none → sys = n.sys)
    (hchanges : ∀ x, n.call e = some x → Changes x n.sys sys) :
    Owed c pollInterval k n₀ ((n, e) :: h) (n.after c pollInterval e sys) := by
  have hadded : added c pollInterval k ((n, e) :: h) =
    added c pollInterval k h + (arrivals c (sent pollInterval e)).countP (carries k) := rfl
  have hlost : lost k ((n, e) :: h) = lost k h + if loses k (n, e) then 1 else 0 :=
    List.countP_cons
  have hcopies : copies k (n.after c pollInterval e sys) = (n.taken e).countP (carries k) +
      (arrivals c (sent pollInterval e)).countP (carries k) := List.countP_append
  have hqueue : k ∈ n.waiting e ∨ n.queued e = some k →
      k ∈ (n.after c pollInterval e sys).queue := fun hk =>
    List.mem_append.2 (hk.imp_right Option.mem_toList.2)
  rcases ho with ho | hk | hk
  · rcases hn.copies_taken e k with hle | hk
    · exact .inl (by omega)
    · exact .inr (.inl (hqueue (.inr hk)))
  · -- the oldest beacon is handled, any other one waits
    cases e with
    | handle now =>
      cases hq : n.queue with
      | nil =>
        rw [hq] at hk
        cases hk
      | cons k' queue =>
        rw [hq] at hk
        rcases List.mem_cons.1 hk with rfl | hk
        · exact .inr (.inr ((hchanges _ (by rw [call, hq]; rfl)).new now k rfl))
        · exact .inr (.inl (hqueue (.inl (by rw [waiting, hq]; exact hk))))
    | _ => exact .inr (.inl (hqueue (.inl hk)))
  · refine .inr (.inr ?_)
    cases hx : n.call e with
    | none =>
      rw [show (n.after c pollInterval e sys).sys = sys from rfl, hnone hx]
      exact hk
    | some x => exact (hchanges x hx).kept k hk (hs x hx)

/-- A poll sends three copies out of every port that is not reserved. -/
theorem copies_of_poll {target : SwitchAndPort} {dpid : UInt64} {port : Port} {ports : List Port}
    {switches : List (UInt64 × List Port)} (hsw : (dpid, ports) ∈ switches) (hport : port ∈ ports)
    (hmax : port.portNo ≤ OFPP_MAX) (hpeer : c.peer ⟨dpid, port.portNo⟩ = some target)
    (now : Nat) (sys : System) :
    3 ≤ copies (LinkDiscovery.beaconPorts ⟨dpid, port.portNo⟩ target)
      (n.after c pollInterval (.timer now switches) sys) := by
  have hsub : List.Sublist (sendLLDP pollInterval dpid port) (poll pollInterval switches) := by
    have hinner : List.Sublist (sendLLDP pollInterval dpid port) (ports.flatMap fun port =>
        if OFPP_MAX < port.portNo then [] else sendLLDP pollInterval dpid port) := by
      refine List.sublist_flatten_of_mem (List.mem_map.2 ⟨port, hport, ?_⟩)
      rw [if_neg (UInt32.not_lt.2 hmax)]
    exact hinner.trans (List.sublist_flatten_of_mem (List.mem_map.2 ⟨(dpid, ports), hsw, rfl⟩))
  have hcarries : carries (LinkDiscovery.beaconPorts ⟨dpid, port.portNo⟩ target)
      (target, (lldp pollInterval dpid port).bytes) = true := by
    have hin : packetIn target (0, 0) ((lldp pollInterval dpid port).bytes ++ []) = _ :=
      packetIn_lldp target (0, 0)
    rw [List.append_nil] at hin
    exact decide_eq_true hin
  have hthree : (arrivals c (sendLLDP pollInterval dpid port)).countP
      (carries (LinkDiscovery.beaconPorts ⟨dpid, port.portNo⟩ target)) = 3 := by
    simp [arrivals, sendLLDP, hpeer, hcarries]
  rw [← hthree, copies, after, List.countP_append]
  exact Nat.le_trans (hsub.filterMap _).countP_le (Nat.le_add_left _ _)

/-- A run that spares a cable, from a sound state on. -/
theorem owed_of_trace {h : List (Fabric × Event)} {n₀ : Fabric} (hn₀ : Sound c pollInterval n₀)
    (hr : Trace (step c pollInterval) (fun n e => Allowed n e ∧ Spares k n e) n₀ h n) :
    Sound c pollInterval n ∧ Owed c pollInterval k n₀ h n := by
  refine hr.invariant (I := fun h n => Sound c pollInterval n ∧ Owed c pollInterval k n₀ h n)
    ⟨hn₀, .inl (Nat.le_refl _)⟩ fun h n e n' _ hI hok hstep => ?_
  obtain ⟨sys, hsys, hn', hnone, hchanges⟩ := hI.1.step hok.1
  cases hsys.symm.trans hstep
  exact ⟨hn', hI.2.step hI.1 hok.2 hnone hchanges⟩

/-- **Every cable is discovered.** A poll of a port that is not reserved puts three copies on the
wire. In every run after it that spares the cable there: once no packet about it is on its way and no
beacon about it waits, the cable is in the database and announced, unless all of its copies were
lost. -/
theorem cables_are_discovered {h₀ h : List (Fabric × Event)} {n₀ n₁ : Fabric} {now : Nat}
    {switches : List (UInt64 × List Port)} {dpid : UInt64} {ports : List Port} {port : Port}
    {target : SwitchAndPort} (hr₀ : Run c pollInterval h₀ n₀)
    (hpoll : n₀.step c pollInterval (.timer now switches) = .ok n₁)
    (hsw : (dpid, ports) ∈ switches) (hport : port ∈ ports) (hmax : port.portNo ≤ OFPP_MAX)
    (hpeer : c.peer ⟨dpid, port.portNo⟩ = some target)
    (hk : k = LinkDiscovery.beaconPorts ⟨dpid, port.portNo⟩ target)
    (hr : Trace (step c pollInterval) (fun n e => Allowed n e ∧ Spares k n e) n₁ h n)
    (hwire : copies k n = 0) (hqueue : k ∉ n.queue) :
    3 ≤ copies k n₁ ∧ (lost k h < copies k n₁ + added c pollInterval k h →
      Present n.sys k ∧ Live n.sys.app.signals k) := by
  obtain ⟨sys, hsys, hn₁, -⟩ := (sound_of_run hr₀).step (e := .timer now switches) trivial
  cases hsys.symm.trans hpoll
  obtain ⟨hn, ho⟩ := owed_of_trace hn₁ hr
  refine ⟨?_, fun hlost => ?_⟩
  · rw [hk]
    exact copies_of_poll hsw hport hmax hpeer now sys
  · have hpresent : Present n.sys k := by
      rcases ho with ho | ho | ho
      · omega
      · exact absurd ho hqueue
      · exact ho
    exact ⟨hpresent, (hn.linked.described.app.live _).2 hpresent⟩

/-! ## Two switches -/

/-- One cable, from port 1 of switch 1 to port 2 of switch 7. -/
def oneCable : Cabling where
  peer a := if a = ⟨1, 1⟩ then some ⟨7, 2⟩ else if a = ⟨7, 2⟩ then some ⟨1, 1⟩ else none
  symm a b h := by
    split at h
    · cases h
      subst a
      decide
    · split at h
      · cases h
        subst a
        decide
      · cases h
  irrefl a h := by
    split at h
    · subst a
      cases h
    · split at h
      · subst a
        cases h
      · cases h

def theCable : PortPair := (⟨1, 1⟩, ⟨7, 2⟩)

/-- Its first end. -/
def firstPort : Port := ⟨1, #v[1, 2, 3, 4, 5, 6], 0⟩

/-- The first end comes up; one of the packets arrives padded, after a frame of another kind. -/
theorem links_are_cables_one : ∃ h n, Run oneCable 120 h n ∧
    n.sys.app.links.nodes.map (fun a => a.2.ports) = [theCable] ∧
    n.sys.app.Indexed ∧ n.sys.app.Announces := by
  obtain ⟨h, n, hr, hl⟩ := exists_trace (step oneCable 120) Allowed .init
    [.portUp 1 firstPort, .other ⟨7, 2⟩ (0, 0) (List.replicate 12 0 ++ [0x08, 0x06]),
      .deliver 1 (0xff, 0xff) (List.replicate 10 0), .handle 5]
    (P := fun _ n => n.sys.app.links.nodes.map (fun a => a.2.ports) = [theCable])
    (by decide +kernel)
  have hcables := links_are_cables hr
  exact ⟨h, n, hr, hl, hcables.1, hcables.2.1⟩

/-- Its second end. -/
def secondPort : Port := ⟨2, #v[7, 2, 3, 4, 5, 6], 0⟩

/-- Five of the six copies that a poll of both ends sends are lost, all three of the first end among
them, and the port of another switch goes down. -/
theorem cables_are_discovered_one : ∃ (h : List (Fabric × Event)) (n : Fabric),
    lost theCable h = 5 ∧ Present n.sys theCable ∧ Live n.sys.app.signals theCable := by
  obtain ⟨n₁, hpoll⟩ : ∃ n₁, Fabric.init.step oneCable 120
      (.timer 3 [(1, [firstPort]), (7, [secondPort])]) = .ok n₁ := ⟨_, rfl⟩
  obtain ⟨h, n, hr, hlost, hsent, hwire, hqueue⟩ := exists_trace (step oneCable 120)
    (fun n e => Allowed n e ∧ Spares theCable n e) n₁
    [.lose 0, .lose 0, .lose 0, .lose 2, .deliver 0 (0, 0) [], .portDown 3 1, .lose 0, .handle 5]
    (P := fun h n => lost theCable h = 5 ∧ copies theCable n₁ = 6 ∧ copies theCable n = 0 ∧
      theCable ∉ n.queue)
    (by
      cases hpoll
      decide +kernel)
  have hpeer : oneCable.peer ⟨1, firstPort.portNo⟩ = some ⟨7, 2⟩ := by decide
  obtain ⟨-, hdone⟩ := cables_are_discovered .nil hpoll List.mem_cons_self List.mem_cons_self
    (by decide) hpeer (by decide) hr hwire hqueue
  exact ⟨h, n, hlost, hdone (by omega)⟩

end Fabric

end LinkDiscovery
