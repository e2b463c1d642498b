import Runos.Lib.Fallible
import Runos.Lib.Trace
import Runos.Topology.Hosts
import Runos.Topology.Proof.Lldp

/-!
# Hosts and ARP replies

What the handlers read of a frame is `sender` and `request`; so a packet-in is one step on the
hosts, and a reply if the frame asks for the address of one of them (`packetIn_eq`).
-/

namespace HostManager

open Blocks Fallible Oxm PacketParser LinkDiscovery SwitchManager

/-! ## What the handlers read -/

/-- The address of the sender, after a link header; none where the packet ends too early. -/
def givenIp (frame : List Byte) (h : Header) (ethType : BitVec 16) : Option IpAddress :=
  if ethType = IPV4_ETH_TYPE then
    if h.sizeof + 20 ≤ frame.length then some (number 32 frame (h.sizeof + 12)) else none
  else if ethType = ARP_ETH_TYPE then
    if IsArp frame h.sizeof then some (number 32 frame (h.sizeof + 14)) else none
  else
    some 0

/-- Who sent a frame, and the address it gives; none for a frame that the handlers do not get or
that they do not get through. -/
def sender (frame : List Byte) : Option (EthAddress × IpAddress) :=
  match link frame with
  | none => none
  | some (h, ethType) =>
    if ethType = LLDP_ETH_TYPE ∨ ethType = 0x86dd ∧ frame.length < h.sizeof + 40 then none
    else (givenIp frame h ethType).map fun ip => (number 48 frame 6, ip)

/-- The question of an ARP request. -/
structure Request where
  sha : EthAddress
  spa : IpAddress
  tpa : IpAddress
  deriving DecidableEq, Repr

/-- The request after a link header. -/
def requestOf (frame : List Byte) (h : Header) (ethType : BitVec 16) : Option Request :=
  if ethType = ARP_ETH_TYPE ∧ IsArp frame h.sizeof ∧
      number 16 frame (h.sizeof + 6) = ArpHandler.ARP_REQUEST then
    some ⟨number 48 frame (h.sizeof + 8), number 32 frame (h.sizeof + 14),
      number 32 frame (h.sizeof + 24)⟩
  else
    none

def request (frame : List Byte) : Option Request :=
  match link frame with
  | none => none
  | some (h, ethType) => requestOf frame h ethType

section
variable {inPort : BitVec 32} {packet : Option Buffer} {p : PacketParser} {h : Header}
  {ethType : BitVec 16}

theorem headers_eq {frame : List Byte} (hl : link frame = some (h, ethType)) :
    headers frame = (h, 0) :: l3Headers frame ethType h.sizeof := by rw [headers, hl]

theorem link_fields {frame : List Byte} (hl : link frame = some (h, ethType)) :
    (.eth_src, 6) ∈ h.fields ∧ h.layer = 2 := by
  unfold link at hl
  split at hl
  · split at hl
    · split at hl
      · cases hl
        exact ⟨by decide, rfl⟩
      · cases hl
    · cases hl
      exact ⟨by decide, rfl⟩
  · cases hl

/-- The handlers look for an address where the frame has none. -/
theorem load_missing (hp : Parsed inPort packet p) (hl : link (frameOf packet) = some (h, ethType))
    (hno : l3Headers (frameOf packet) ethType h.sizeof = []) {t : OfbType} (ht : layerOf t = 3)
    (m : Mask t) : p.load m = .error .outOfRange := by
  refine load_unbound (hp.unbound ?_ fun x hx => ?_) m
  · intro heq
    rw [heq] at ht
    cases ht
  · rw [headers_eq hl, hno, List.mem_singleton] at hx
    rw [hx, ht, (link_fields hl).2]
    decide

theorem mem_headers_arp {frame : List Byte} (hl : link frame = some (h, ARP_ETH_TYPE))
    (harp : IsArp frame h.sizeof) : (Header.arp, h.sizeof) ∈ headers frame := by
  have hl3 : l3Headers frame ARP_ETH_TYPE h.sizeof = _ := l3Headers_arp
  rw [headers_eq hl, hl3, if_pos harp]
  exact List.mem_cons_of_mem _ List.mem_cons_self

theorem hostIp_spec (hp : Parsed inPort packet p)
    (hl : link (frameOf packet) = some (h, ethType)) :
    hostIp p = orThrow .outOfRange (givenIp (frameOf packet) h ethType) := by
  unfold hostIp givenIp
  simp only [hp.test_ethType hl, Bind.bind, Except.bind]
  by_cases hip : ethType = IPV4_ETH_TYPE
  · subst hip
    simp only [decide_true, if_true]
    by_cases hfit : h.sizeof + 20 ≤ (frameOf packet).length
    · have hm : (Header.ipv4, h.sizeof) ∈ headers (frameOf packet) := by
        rw [headers_eq hl, show IPV4_ETH_TYPE = 0x0800 from rfl, l3Headers_ipv4 hfit]
        exact List.mem_cons_of_mem _ List.mem_cons_self
      rw [hp.load_number hm (t := .ipv4_src) (o := 12) (by decide), if_pos hfit]
      simp only [Field.value_make_exact]
      rfl
    · rw [load_missing hp hl (if_neg hfit) rfl, if_neg hfit]
      rfl
  · simp only [hip, decide_false, Bool.false_eq_true, if_false]
    by_cases harp : ethType = ARP_ETH_TYPE
    · subst harp
      simp only [decide_true, if_true]
      by_cases hfit : IsArp (frameOf packet) h.sizeof
      · rw [hp.load_number (mem_headers_arp hl hfit) (t := .arp_spa) (o := 14) (by decide),
          if_pos hfit]
        simp only [Field.value_make_exact]
        rfl
      · rw [load_missing hp hl (if_neg hfit) rfl, if_neg hfit]
        rfl
    · simp only [harp, decide_false, Bool.false_eq_true, if_false]
      rfl

theorem handlePacket_spec (m : SwitchManager.HostManager) (hp : Parsed inPort packet p)
    (hl : link (frameOf packet) = some (h, ethType)) :
    handlePacket m p = (orThrow .outOfRange (givenIp (frameOf packet) h ethType)).map fun ip =>
      if m.isSwitch (number 48 (frameOf packet) 6) then none
      else some (number 48 (frameOf packet) 6, ip, .ofBitVec inPort) := by
  have hsrc : p.load (.exact .eth_src) =
      .ok (.make (number 48 (frameOf packet) (0 + 6)) (.exact OfbType.eth_src)) :=
    hp.load_number (mem_headers_link hl) (link_fields hl).1 _
  unfold handlePacket
  rw [hsrc, hostIp_spec hp hl]
  cases givenIp (frameOf packet) h ethType with
  | none => rfl
  | some ip =>
    simp only [orThrow, Bind.bind, Except.bind, Except.map, hp.load_inPort,
      Field.value_make_exact, Nat.zero_add]
    split
    · rfl
    · rfl

/-- The reply to a request. -/
def answer (hosts : Hosts) (walk : Hosts.Walk) (target : SwitchAndPort) (q : Request) :
    Option PacketOut :=
  (hosts.getHost walk q.tpa).map fun host =>
    ⟨target.dpid, (ArpHandler.reply host q.tpa q.sha q.spa).bytes, target.port⟩

theorem arp_spec (hosts : Hosts) (walk : Hosts.Walk) (dpid : UInt64)
    (decision : Controller.Decision) (hp : Parsed inPort packet p)
    (hl : link (frameOf packet) = some (h, ethType))
    (hgiven : givenIp (frameOf packet) h ethType ≠ none) :
    ∃ d, ArpHandler.handlePacket hosts walk dpid p decision =
      .ok (d, (requestOf (frameOf packet) h ethType).bind
        (answer hosts walk ⟨dpid, .ofBitVec inPort⟩)) := by
  unfold ArpHandler.handlePacket requestOf
  rw [hp.test_ethType hl]
  by_cases harp : ethType = ARP_ETH_TYPE
  · subst harp
    have hfit : IsArp (frameOf packet) h.sizeof := by
      by_contra hno
      exact hgiven (if_neg hno)
    have hm := mem_headers_arp hl hfit
    have htest : p.test (.make ArpHandler.ARP_REQUEST (.exact OfbType.arp_op)) = .ok (decide
        (number 16 (frameOf packet) (h.sizeof + 6) = ArpHandler.ARP_REQUEST)) :=
      hp.test_number hm (by decide) _
    simp only [decide_true, if_true, Bind.bind, Except.bind, true_and, hfit, htest]
    by_cases hop : number 16 (frameOf packet) (h.sizeof + 6) = ArpHandler.ARP_REQUEST
    · simp only [hop, decide_true, if_true, Option.bind_some, answer,
        hp.load_number hm (t := .arp_tpa) (o := 24) (by decide),
        hp.load_number hm (t := .arp_sha) (o := 8) (by decide),
        hp.load_number hm (t := .arp_spa) (o := 14) (by decide), hp.load_inPort,
        Field.value_make_exact]
      cases hosts.getHost walk (number 32 (frameOf packet) (h.sizeof + 24)) with
      | none => exact ⟨_, rfl⟩
      | some host => exact ⟨_, rfl⟩
    · simp only [hop, decide_false, Bool.false_eq_true, if_false]
      exact ⟨_, rfl⟩
  · simp only [harp, decide_false, Bool.false_eq_true, if_false, false_and, Bind.bind, Except.bind]
    exact ⟨decision, rfl⟩

/-- The handler "link-discovery" lets the frame pass unless it is an LLDP packet. -/
theorem link_discovery_spec (dpid : UInt64) (decision : Controller.Decision)
    (hp : Parsed inPort packet p) (hl : link (frameOf packet) = some (h, ethType)) :
    ∃ d k, LinkDiscovery.handlePacket dpid p decision = .ok (d, k) ∧
      (d.return_ = true ↔ ethType = LLDP_ETH_TYPE ∨ decision.return_ = true) := by
  unfold LinkDiscovery.handlePacket
  rw [hp.test_ethType hl]
  by_cases hlldp : ethType = LLDP_ETH_TYPE
  · simp only [hlldp, decide_true, if_true, Bind.bind, Except.bind]
    split
    · exact ⟨_, _, rfl, by simp [consumed, Controller.Decision.withReturn]⟩
    · rw [hp.load_inPort]
      exact ⟨_, _, rfl, by simp [consumed, Controller.Decision.withReturn]⟩
  · simp only [hlldp, decide_false, Bool.false_eq_true, if_false, Bind.bind, Except.bind]
    exact ⟨_, _, rfl, by simp⟩

/-! ## Packet-ins -/

/-- A packet of `mac` that gives the address `ip` has come in. -/
def State.heard (s : State) (target : SwitchAndPort) (mac : EthAddress) (ip : IpAddress) :
    Except Fault State :=
  if s.manager.hostManager.isSwitch mac then .ok s else s.seen target.dpid mac ip target.port

theorem process_eq (s : State) (target : SwitchAndPort) (walk : Hosts.Walk)
    (decision : Controller.Decision) (hp : Parsed target.port.toBitVec packet p)
    (hl : link (frameOf packet) = some (h, ethType)) :
    s.process target.dpid walk p decision =
      match givenIp (frameOf packet) h ethType with
      | none => .ok (s, none)
      | some ip => (s.heard target (number 48 (frameOf packet) 6) ip).map fun s =>
        (s, (requestOf (frameOf packet) h ethType).bind (answer s.hosts walk target)) := by
  unfold State.process
  rw [handlePacket_spec _ hp hl]
  cases hgiven : givenIp (frameOf packet) h ethType with
  | none => rfl
  | some ip =>
    have harp (s : State) := arp_spec s.hosts walk target.dpid decision hp hl (by simp [hgiven])
    simp only [orThrow, Except.map, State.heard]
    by_cases hswitch : s.manager.hostManager.isSwitch (number 48 (frameOf packet) 6) = true
    · obtain ⟨d, harp⟩ := harp s
      simp only [hswitch, if_true, Bind.bind, Except.bind, harp]
    · simp only [hswitch, Bool.false_eq_true, if_false, Bind.bind, Except.bind]
      cases s.seen target.dpid (number 48 (frameOf packet) 6) ip target.port with
      | error e => rfl
      | ok s =>
        obtain ⟨d, harp⟩ := harp s
        simp only [harp]

end

/-- **A packet-in**: its sender is noted, and its request is answered. -/
theorem packetIn_eq (s : State) (target : SwitchAndPort) (front : Byte × Byte)
    (frame : List Byte) (walk : Hosts.Walk) :
    s.packetIn target front frame walk =
      match sender frame with
      | none => .ok (s, none)
      | some (mac, ip) => (s.heard target mac ip).map fun s =>
        (s, (request frame).bind (answer s.hosts walk target)) := by
  obtain ⟨hbad, hgood⟩ := init_spec front.1 target.port.toBitVec (some ⟨front.2, frame⟩)
  unfold State.packetIn
  by_cases htrunc : Truncated frame
  · obtain ⟨h, hl, hlt⟩ := id htrunc
    have hnone : sender frame = none := by
      rw [sender, hl]
      exact if_pos (.inr ⟨rfl, hlt⟩)
    rw [hbad htrunc, hnone]
  · obtain ⟨p, hinit, hp⟩ := hgood htrunc
    rw [hinit]
    cases hl : link frame with
    | none =>
      have hnone : sender frame = none := by rw [sender, hl]
      simp only [LinkDiscovery.handlePacket, hp.test_ethType_none hl, hnone, Bind.bind, Except.bind]
    | some l =>
      obtain ⟨h, ethType⟩ := l
      obtain ⟨d, k, hlink, hreturn⟩ := link_discovery_spec target.dpid {} hp hl
      have hd : d.return_ = true ↔ ethType = LLDP_ETH_TYPE := by simpa using hreturn
      simp only [hlink, process_eq s target walk d hp hl]
      by_cases hlldp : ethType = LLDP_ETH_TYPE
      · have hnone : sender frame = none := by
          rw [sender, hl]
          exact if_pos (.inl hlldp)
        rw [if_pos (hd.2 hlldp), hnone]
      · have hsender : sender frame =
            (givenIp frame h ethType).map fun ip => (number 48 frame 6, ip) := by
          rw [sender, hl]
          exact if_neg fun hx => hx.elim hlldp fun hx => htrunc ((truncated_iff hl).2 hx)
        have hrequest : request frame = requestOf frame h ethType := by rw [request, hl]
        rw [if_neg (mt hd.1 hlldp), hsender, hrequest]
        cases hgiven : givenIp frame h ethType with
        | none => simp only [frameOf, Option.map_some, Option.getD_some, hgiven, Option.map_none]
        | some ip => simp only [frameOf, Option.map_some, Option.getD_some, hgiven]

end HostManager
