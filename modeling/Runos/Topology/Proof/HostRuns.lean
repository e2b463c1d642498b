import Runos.Topology.Proof.Hosts

/-!
# Hosts over runs

A host is known from the first packet of its address until the switch where that came in goes down;
it stays attached there, and has the last address other than 0 that its packets gave
(`hosts_exact`). An ARP request is answered exactly when a host with that address is known, and
whoever parses the reply reads the address of that host in it (`replies_exact`).
-/

namespace HostManager

open Blocks Oxm PacketParser LinkDiscovery SwitchManager Runs

/-- A run from the start of the application. -/
abbrev Run (h : List (State × Event)) (s : State) : Prop :=
  Trace State.step (fun _ _ => True) State.init h s

/-! ## What an event tells -/

/-- The address that `mac` gives in an event, and where its packet came in. -/
def gives (s : State) (e : Event) (mac : EthAddress) : Option (IpAddress × SwitchAndPort) :=
  match e with
  | .manager _ => none
  | .packetIn target _ frame _ =>
    match sender frame with
    | none => none
    | some (src, ip) =>
      if src = mac ∧ s.manager.hostManager.isSwitch mac = false ∧ target.port ≤ OFPP_MAX then
        some (ip, target)
      else none

/-- A switch that is known goes down. -/
def downs (s : State) (e : Event) (dpid : UInt64) : Bool :=
  match e with
  | .manager (.switchDown d) => d == dpid && (s.manager.switches.lookup d).isSome
  | _ => false

/-- The last address other than 0 that `mac` gave in a history. -/
def lastIp (mac : EthAddress) : List (State × Event) → IpAddress
  | [] => 0
  | x :: h =>
    match gives x.1 x.2 mac with
    | none => lastIp mac h
    | some (ip, _) => if ip = 0 then lastIp mac h else ip

/-- A host has given an address. -/
def Host.gave (host : Host) (ip : IpAddress) : Host := if ip = 0 then host else { host with ip }

@[simp] theorem Host.gave_mac (host : Host) (ip : IpAddress) : (host.gave ip).mac = host.mac := by
  unfold gave
  split <;> rfl

@[simp] theorem Host.gave_switchID (host : Host) (ip : IpAddress) :
    (host.gave ip).switchID = host.switchID := by
  unfold gave
  split <;> rfl

@[simp] theorem Host.gave_switchPort (host : Host) (ip : IpAddress) :
    (host.gave ip).switchPort = host.switchPort := by
  unfold gave
  split <;> rfl

theorem Host.gave_ip (host : Host) (ip : IpAddress) :
    (host.gave ip).ip = if ip = 0 then host.ip else ip := by
  unfold gave
  split <;> rfl

variable {s s' : State} {e : Event} {h : List (State × Event)} {mac : EthAddress} {host : Host}

/-! ## One step -/

/-- What a packet of `src` tells about `mac`. -/
theorem seen_lookup {dpid : UInt64} {src : EthAddress} {ip : IpAddress} {port : UInt32}
    (hs : s.seen dpid src ip port = .ok s') (hport : port ≤ OFPP_MAX) :
    s'.manager = s.manager ∧ ∀ mac, s'.hosts.lookup mac =
      if src = mac then some (((s.hosts.lookup mac).map (·.gave ip)).getD ⟨mac, ip, dpid, port⟩)
      else s.hosts.lookup mac := by
  unfold State.seen at hs
  rw [if_neg (by simpa using hport)] at hs
  cases hsrc : s.hosts.lookup src with
  | none =>
    simp only [hsrc] at hs
    split at hs
    · cases hs
    · cases hs
      refine ⟨rfl, fun mac => ?_⟩
      simp only [Hosts.addHost, Table.lookup_insert_eq]
      by_cases hmac : mac = src
      · subst hmac
        simp [hsrc]
      · simp [hmac, Ne.symm hmac]
  | some host =>
    simp only [hsrc] at hs
    by_cases hip : ip = 0
    · rw [if_neg (by simp [hip])] at hs
      cases hs
      refine ⟨rfl, fun mac => ?_⟩
      by_cases hmac : src = mac
      · subst hmac
        simp [hsrc, Host.gave, hip]
      · simp [hmac]
    · rw [if_pos hip] at hs
      cases hs
      refine ⟨rfl, fun mac => ?_⟩
      simp only [Table.lookup_insert_eq]
      by_cases hmac : mac = src
      · subst hmac
        rw [if_pos rfl, if_pos rfl, hsrc]
        exact congrArg some (if_neg hip).symm
      · simp [hmac, Ne.symm hmac]

/-- A packet-in is heard or not. -/
theorem packetIn_cases {target : SwitchAndPort} {front : Byte × Byte} {frame : List Byte}
    {walk : Hosts.Walk} {sent : Option PacketOut}
    (hs : s.packetIn target front frame walk = .ok (s', sent)) :
    s'.manager = s.manager ∧ ∀ mac, s'.hosts.lookup mac =
      match gives s (.packetIn target front frame walk) mac with
      | none => s.hosts.lookup mac
      | some (ip, target) =>
        some (((s.hosts.lookup mac).map (·.gave ip)).getD ⟨mac, ip, target.dpid, target.port⟩) := by
  rw [packetIn_eq] at hs
  unfold gives
  cases hsender : sender frame with
  | none =>
    rw [hsender] at hs
    cases hs
    exact ⟨rfl, fun mac => by simp only [hsender]⟩
  | some x =>
    obtain ⟨src, ip⟩ := x
    simp only [hsender] at hs ⊢
    cases hheard : s.heard target src ip with
    | error f =>
      rw [hheard] at hs
      cases hs
    | ok s₁ =>
      rw [hheard] at hs
      cases hs
      unfold State.heard at hheard
      split at hheard
      · rename_i hswitch
        cases hheard
        refine ⟨rfl, fun mac => ?_⟩
        rw [if_neg]
        intro hx
        rw [← hx.1, hswitch] at hx
        cases hx.2.1
      · rename_i hhost
        by_cases hport : target.port ≤ OFPP_MAX
        · obtain ⟨hmanager, hlookup⟩ := seen_lookup hheard hport
          refine ⟨hmanager, fun mac => ?_⟩
          rw [hlookup]
          by_cases hmac : src = mac
          · subst hmac
            rw [if_pos rfl, if_pos ⟨rfl, by simpa using hhost, hport⟩]
          · rw [if_neg hmac, if_neg fun hx => hmac hx.1]
        · unfold State.seen at hheard
          rw [if_pos (by simpa using hport)] at hheard
          cases hheard
          exact ⟨rfl, fun mac => by rw [if_neg fun hx => hport hx.2.2]⟩

/-- An event that no switch goes down in. -/
theorem filter_downs (hno : ∀ dpid, downs s e dpid = false) (known : Option Host) :
    known = known.filter fun host => !downs s e host.switchID := by
  cases known with
  | none => rfl
  | some host => exact (if_pos (by simp [hno])).symm

/-- **One event**, seen from one address. -/
theorem step_lookup (hs : s.step e = .ok s') (mac : EthAddress) :
    s'.hosts.lookup mac = match gives s e mac with
      | none => (s.hosts.lookup mac).filter fun host => !downs s e host.switchID
      | some (ip, target) =>
        some (((s.hosts.lookup mac).map (·.gave ip)).getD
          ⟨mac, ip, target.dpid, target.port⟩) := by
  cases e with
  | packetIn target front frame walk =>
    cases hp : s.packetIn target front frame walk with
    | error f =>
      rw [State.step, hp] at hs
      cases hs
    | ok r =>
      obtain ⟨s₁, sent⟩ := r
      rw [State.step, hp] at hs
      cases hs
      rw [(packetIn_cases hp).2 mac]
      cases gives s (.packetIn target front frame walk) mac with
      | none => exact filter_downs (fun _ => rfl) _
      | some x => rfl
  | manager e =>
    cases hm : s.manager.step e with
    | error f =>
      cases f
      simp only [State.step, hm, reduceCtorEq] at hs
    | ok manager =>
      simp only [State.step, hm, Except.ok.injEq] at hs
      subst hs
      cases e with
      | switchDown dpid =>
        simp only [gives, State.onSwitchDown]
        split
        · rename_i hknown
          simp only [Hosts.delHostForSwitch, Table.lookup_filter, downs, hknown, Bool.and_true]
          congr 1
          funext host
          by_cases heq : host.switchID = dpid
          · simp [heq]
          · simp [heq, Ne.symm heq]
        · rename_i hknown
          exact filter_downs (fun d => by simp [downs, hknown]) _
      | switchUp dpid => exact filter_downs (fun _ => rfl) _
      | portDescriptions dpid desc => exact filter_downs (fun _ => rfl) _
      | portStatus dpid reason port => exact filter_downs (fun _ => rfl) _

/-! ## Runs -/

/-- What the past tells about the host of an address: it was discovered at a packet of the address,
and attached where that came in; its switch has not gone down since; and it has the last address
that was given since. -/
def Learned (h : List (State × Event)) (mac : EthAddress) (host : Host) : Prop :=
  ∃ after x before, h = after ++ x :: before ∧ x.1.hosts.lookup mac = none ∧
    (∃ ip, gives x.1 x.2 mac = some (ip, ⟨host.switchID, host.switchPort⟩)) ∧
    (∀ y ∈ after, downs y.1 y.2 host.switchID = false) ∧
    host.ip = lastIp mac (after ++ [x]) ∧ host.mac = mac

/-- The past with one more event. -/
theorem learned_cons : Learned ((s, e) :: h) mac host ↔
    (s.hosts.lookup mac = none ∧ host.mac = mac ∧
      gives s e mac = some (host.ip, ⟨host.switchID, host.switchPort⟩)) ∨
    ∃ host', Learned h mac host' ∧ downs s e host.switchID = false ∧
      host = ((gives s e mac).map fun g => host'.gave g.1).getD host' := by
  constructor
  · intro hlearned
    obtain ⟨after, x, before, heq, hnone, ⟨ip, hgives⟩, hup, hip, hmac⟩ := hlearned
    cases after with
    | nil =>
      obtain ⟨rfl, rfl⟩ := List.cons.inj heq
      refine .inl ⟨hnone, hmac, ?_⟩
      have hlast : lastIp mac [(s, e)] = ip := by
        simp only [lastIp, hgives]
        split
        · rename_i hzero
          exact hzero.symm
        · rfl
      rw [hip, List.nil_append, hlast]
      exact hgives
    | cons y after =>
      obtain ⟨rfl, rfl⟩ := List.cons.inj heq
      refine .inr ⟨{ host with ip := lastIp mac (after ++ [x]) },
        ⟨after, x, before, rfl, hnone, ⟨ip, hgives⟩,
          fun y hy => hup y (List.mem_cons_of_mem _ hy), rfl, hmac⟩,
        hup _ List.mem_cons_self, ?_⟩
      rw [List.cons_append, lastIp] at hip
      cases hg : gives s e mac with
      | none =>
        simp only [hg] at hip
        exact Host.ext rfl hip rfl rfl
      | some g =>
        simp only [hg] at hip
        refine Host.ext (by simp) ?_ (by simp) (by simp)
        simp only [Option.map_some, Option.getD_some, Host.gave_ip]
        exact hip
  · intro hlearned
    rcases hlearned with ⟨hnone, hmac, hgives⟩ | ⟨host', hlearned, hup, hhost⟩
    · refine ⟨[], (s, e), h, rfl, hnone, ⟨_, hgives⟩, fun y hy => (by cases hy), ?_, hmac⟩
      simp only [List.nil_append, lastIp, hgives]
      split
      · rename_i hzero
        exact hzero
      · rfl
    · obtain ⟨after, x, before, rfl, hnone, ⟨ip, hgives⟩, hups, hip, hmac⟩ := hlearned
      have hsame : host.mac = host'.mac ∧ host.switchID = host'.switchID ∧
          host.switchPort = host'.switchPort := by
        rw [hhost]
        cases gives s e mac with
        | none => exact ⟨rfl, rfl, rfl⟩
        | some g => simp
      refine ⟨(s, e) :: after, x, before, rfl, hnone,
        ⟨ip, by rw [hgives, hsame.2.1, hsame.2.2]⟩, fun y hy => ?_, ?_, hsame.1.trans hmac⟩
      · rcases List.mem_cons.1 hy with rfl | hy
        · exact hup
        · rw [hsame.2.1]
          exact hups y hy
      · rw [hhost, List.cons_append, lastIp]
        cases hg : gives s e mac with
        | none => exact hip
        | some g =>
          simp only [Option.map_some, Option.getD_some, Host.gave_ip, hip]

theorem downs_of_gives {g : IpAddress × SwitchAndPort} (hg : gives s e mac = some g)
    (dpid : UInt64) : downs s e dpid = false := by
  cases e with
  | manager e => cases hg
  | packetIn target front frame walk => rfl

/-- **The hosts that are known**, over every run. -/
theorem hosts_exact (hr : Run h s) (mac : EthAddress) (host : Host) :
    s.hosts.lookup mac = some host ↔ Learned h mac host := by
  induction hr generalizing host with
  | nil =>
    refine ⟨fun hx => (by cases hx), fun hlearned => ?_⟩
    obtain ⟨after, x, before, heq, -⟩ := hlearned
    simp at heq
  | @snoc h s s' e hr _ hs ih =>
    rw [learned_cons, step_lookup hs mac]
    simp only [← ih]
    cases hg : gives s e mac with
    | none =>
      simp only [Option.filter_eq_some_iff, reduceCtorEq, and_false, false_or, Option.map_none,
        Option.getD_none]
      constructor
      · intro hx
        exact ⟨host, hx.1, by simpa using hx.2, rfl⟩
      · intro hx
        obtain ⟨host', hlookup, hup, rfl⟩ := hx
        exact ⟨hlookup, by simpa using hup⟩
    | some g =>
      simp only [downs_of_gives hg, true_and, Option.some.injEq, Option.map_some,
        Option.getD_some]
      cases hlookup : s.hosts.lookup mac with
      | none =>
        simp only [Option.map_none, Option.getD_none, true_and, reduceCtorEq, false_and,
          exists_false, or_false]
        constructor
        · intro hx
          rw [← hx]
          exact ⟨rfl, rfl⟩
        · intro hx
          obtain ⟨hmac, rfl⟩ := hx
          exact Host.ext hmac.symm rfl rfl rfl
      | some host' =>
        simp [eq_comm]

/-- An ARP request of a host with the address `10.0.0.n` for another. -/
def arpRequest (src : EthAddress) (spa tpa : BitVec 32) : List Byte :=
  ArpHandler.Reply.bytes { dst := 0xffffffffffff, src, oper := 1, sha := src, spa, tha := 0, tpa }

def inTableOrder : Hosts.Walk := ⟨id, fun _ => .refl _⟩

/-- A host is discovered at a packet without an address of its own, gives one later, and moves to
another port, which is not noted. -/
theorem hosts_exact_one : ∃ h s, Run h s ∧
    Learned h 0x020000000001 ⟨0x020000000001, 0x0a000001, 7, 1⟩ := by
  obtain ⟨h, s, hr, hlookup⟩ := exists_trace State.step (fun _ _ => True) State.init
    [.manager (.switchUp 7),
      .packetIn ⟨7, 1⟩ (0, 0) (arpRequest 0x020000000001 0 0x0a000001) inTableOrder,
      .packetIn ⟨7, 2⟩ (0, 0) (arpRequest 0x020000000001 0x0a000001 0x0a000002) inTableOrder]
    (P := fun _ s => s.hosts.lookup 0x020000000001 =
      some ⟨0x020000000001, 0x0a000001, 7, 1⟩)
    (by decide +kernel)
  exact ⟨h, s, hr, (hosts_exact hr _ _).1 hlookup⟩

/-! ## Replies -/

theorem mem_values {hosts : Hosts} :
    host ∈ hosts.entries.map (·.2) ↔ ∃ mac, hosts.lookup mac = some host := by
  simp only [List.mem_map]
  constructor
  · intro hx
    obtain ⟨x, hx, rfl⟩ := hx
    exact ⟨x.1, AList.mem_lookup_iff.2 hx⟩
  · intro hx
    obtain ⟨mac, hx⟩ := hx
    exact ⟨⟨mac, host⟩, AList.mem_lookup_iff.1 hx, rfl⟩

/-- A host with the address is found if there is one. -/
theorem getHost_spec (hosts : Hosts) (walk : Hosts.Walk) (ip : IpAddress) :
    match hosts.getHost walk ip with
    | none => ∀ mac host, hosts.lookup mac = some host → host.ip ≠ ip
    | some host => host.ip = ip ∧ ∃ mac, hosts.lookup mac = some host := by
  have hmem (host : Host) : host ∈ walk.order (hosts.entries.map (·.2)) ↔ _ :=
    (walk.reorder _).mem_iff.trans mem_values
  cases hfind : hosts.getHost walk ip with
  | none =>
    intro mac host hlookup heq
    have hno := List.find?_eq_none.1 hfind host ((hmem host).2 ⟨mac, hlookup⟩)
    exact hno (beq_iff_eq.2 heq)
  | some host =>
    have hfind : (walk.order (hosts.entries.map (·.2))).find? (·.ip == ip) = some host := hfind
    have hip := List.find?_some hfind
    exact ⟨beq_iff_eq.1 hip, (hmem host).1 (List.mem_of_find?_eq_some hfind)⟩

/-- Whoever parses the frame reads an ARP reply to `q`: the address asked for is that of `mac`. -/
def Answers (frame : List Byte) (q : Request) (mac : EthAddress) : Prop :=
  ∀ (front : Byte × Byte) (inPort : BitVec 32), ∃ p,
    PacketParser.init front.1 inPort (some ⟨front.2, frame⟩) = .ok p ∧
    p.load (.exact .eth_dst) = .ok (Field.make q.sha (.exact OfbType.eth_dst)) ∧
    p.load (.exact .eth_src) = .ok (Field.make mac (.exact OfbType.eth_src)) ∧
    p.load (.exact .eth_type) = .ok (Field.make ARP_ETH_TYPE (.exact OfbType.eth_type)) ∧
    p.load (.exact .arp_op) = .ok (Field.make (2 : BitVec 16) (.exact OfbType.arp_op)) ∧
    p.load (.exact .arp_sha) = .ok (Field.make mac (.exact OfbType.arp_sha)) ∧
    p.load (.exact .arp_spa) = .ok (Field.make q.tpa (.exact OfbType.arp_spa)) ∧
    p.load (.exact .arp_tha) = .ok (Field.make q.sha (.exact OfbType.arp_tha)) ∧
    p.load (.exact .arp_tpa) = .ok (Field.make q.spa (.exact OfbType.arp_tpa))

section
variable (host : Host) (q : Request) (padding : List Byte)

/-- The bytes of the reply to `q`, as they come in. -/
abbrev wire : List Byte := (ArpHandler.reply host q.tpa q.sha q.spa).bytes ++ padding

theorem read_wire (k : Nat) {w o : Nat} {v : BitVec w}
    (hk : (ArpHandler.reply host q.tpa q.sha q.spa).members[k]? = some ⟨w, v⟩)
    (ho : o = Packed.offset [48, 48, 16, 16, 16, 8, 8, 16, 48, 32, 48, 32] k) :
    read w (wire host q padding) o = some v :=
  Packed.read_encode hk ho padding

theorem number_wire (k : Nat) {w o : Nat} {v : BitVec w}
    (hk : (ArpHandler.reply host q.tpa q.sha q.spa).members[k]? = some ⟨w, v⟩)
    (ho : o = Packed.offset [48, 48, 16, 16, 16, 8, 8, 16, 48, 32, 48, 32] k) :
    number w (wire host q padding) o = v := by
  rw [number, read_wire host q padding k hk ho]
  rfl

theorem length_wire : (wire host q padding).length = 42 + padding.length := by
  have hsize : Packed.size (Packed.widths (ArpHandler.reply host q.tpa q.sha q.spa).members) =
      Packed.size [48, 48, 16, 16, 16, 8, 8, 16, 48, 32, 48, 32] := rfl
  rw [wire, List.length_append, ArpHandler.Reply.bytes, Packed.length_encode, hsize]
  rfl

theorem link_wire : link (wire host q padding) = some (.ethernet, ARP_ETH_TYPE) := by
  have htype : number 16 (wire host q padding) EthernetHdr.type = ARP_ETH_TYPE :=
    number_wire host q padding 2 rfl rfl
  have hlen : EthernetHdr.sizeof ≤ (wire host q padding).length := by
    rw [length_wire]
    show 14 ≤ 42 + _
    omega
  rw [link, if_pos hlen, htype]
  rfl

theorem isArp_wire : IsArp (wire host q padding) Header.ethernet.sizeof := by
  refine ⟨?_, number_wire host q padding 3 rfl rfl, number_wire host q padding 4 rfl rfl,
    number_wire host q padding 5 rfl rfl, number_wire host q padding 6 rfl rfl⟩
  rw [length_wire]
  show 14 + 28 ≤ 42 + _
  omega

/-- **A reply is read as it was meant.** -/
theorem answers_reply : Answers (wire host q padding) q host.mac := by
  intro front inPort
  have hl := link_wire host q padding
  have hwhole : ¬ Truncated (frameOf (some ⟨front.2, wire host q padding⟩)) := by
    intro ht
    obtain ⟨h, htype, -⟩ := ht
    cases hl.symm.trans htype
  obtain ⟨p, hp⟩ := (init_returns front.1 inPort _).2 hwhole
  have hparsed := parsed_of_init hp
  have heth : (Header.ethernet, 0) ∈ headers (wire host q padding) := mem_headers_link hl
  have harp : (Header.arp, 14) ∈ headers (wire host q padding) :=
    mem_headers_arp hl (isArp_wire host q padding)
  exact ⟨p, hp,
    hparsed.load_header heth (o := 0) (by decide) (read_wire host q padding 0 rfl rfl) _,
    hparsed.load_header heth (o := 6) (by decide) (read_wire host q padding 1 rfl rfl) _,
    hparsed.load_header heth (o := 12) (by decide) (read_wire host q padding 2 rfl rfl) _,
    hparsed.load_header harp (o := 6) (by decide) (read_wire host q padding 7 rfl rfl) _,
    hparsed.load_header harp (o := 8) (by decide) (read_wire host q padding 8 rfl rfl) _,
    hparsed.load_header harp (o := 14) (by decide) (read_wire host q padding 9 rfl rfl) _,
    hparsed.load_header harp (o := 18) (by decide) (read_wire host q padding 10 rfl rfl) _,
    hparsed.load_header harp (o := 24) (by decide) (read_wire host q padding 11 rfl rfl) _⟩

end

/-- A request comes from a sender. -/
theorem sender_of_request {frame : List Byte} {q : Request} (hq : request frame = some q) :
    ∃ src ip, sender frame = some (src, ip) := by
  unfold request at hq
  unfold sender
  cases hl : link frame with
  | none =>
    rw [hl] at hq
    cases hq
  | some l =>
    obtain ⟨h, ethType⟩ := l
    simp only [hl] at hq
    unfold requestOf at hq
    split at hq
    · rename_i harp
      obtain ⟨rfl, harp, -⟩ := harp
      have hgiven : givenIp frame h ARP_ETH_TYPE = some (number 32 frame (h.sizeof + 14)) := by
        rw [givenIp, if_neg (by decide), if_pos rfl, if_pos harp]
      have hpass : ¬ (ARP_ETH_TYPE = LLDP_ETH_TYPE ∨
          ARP_ETH_TYPE = 0x86dd ∧ frame.length < h.sizeof + 40) := fun hx =>
        hx.elim (by decide) fun hx => absurd hx.1 (by decide)
      refine ⟨number 48 frame 6, number 32 frame (h.sizeof + 14), (if_neg hpass).trans ?_⟩
      rw [hgiven]
      rfl
    · cases hq

/-- **ARP requests**, over every run: one is answered exactly when a host with the address is known,
and the answer is about such a host. -/
theorem replies_exact {target : SwitchAndPort} {front : Byte × Byte} {frame : List Byte}
    {walk : Hosts.Walk} {sent : Option PacketOut} (hr : Run h s)
    (hp : s.packetIn target front frame walk = .ok (s', sent)) :
    (sent ≠ none ↔ ∃ q mac host, request frame = some q ∧
      Learned ((s, .packetIn target front frame walk) :: h) mac host ∧ host.ip = q.tpa) ∧
    ∀ po, sent = some po → po.switch = target.dpid ∧ po.output = target.port ∧
      ∃ q mac host, request frame = some q ∧
        Learned ((s, .packetIn target front frame walk) :: h) mac host ∧ host.ip = q.tpa ∧
        ∀ padding, Answers (po.data ++ padding) q mac := by
  have hrun : Run ((s, .packetIn target front frame walk) :: h) s' :=
    hr.snoc trivial (by rw [State.step, hp]; rfl)
  have hknown := hosts_exact hrun
  have hsent : sent = (request frame).bind (answer s'.hosts walk target) := by
    rw [packetIn_eq] at hp
    cases hsender : sender frame with
    | none =>
      have hno : request frame = none := by
        by_contra hne
        obtain ⟨q, hq⟩ := Option.ne_none_iff_exists'.1 hne
        obtain ⟨src, ip, hsome⟩ := sender_of_request hq
        cases hsender.symm.trans hsome
      rw [hsender] at hp
      cases hp
      rw [hno]
      rfl
    | some x =>
      simp only [hsender] at hp
      cases hheard : s.heard target x.1 x.2 with
      | error f =>
        rw [hheard] at hp
        cases hp
      | ok s₁ =>
        rw [hheard] at hp
        cases hp
        rfl
  cases hq : request frame with
  | none =>
    rw [hq] at hsent
    rw [hsent]
    refine ⟨⟨fun hx => absurd rfl hx, fun hx => ?_⟩, fun po hx => by cases hx⟩
    obtain ⟨q, mac, host, hx, -⟩ := hx
    cases hx
  | some q =>
    have hspec := getHost_spec s'.hosts walk q.tpa
    simp only [hq, Option.bind_some, answer] at hsent
    cases hget : s'.hosts.getHost walk q.tpa with
    | none =>
      simp only [hget] at hspec hsent
      rw [hsent]
      refine ⟨⟨fun hx => absurd rfl hx, fun hx => ?_⟩, fun po hx => by cases hx⟩
      obtain ⟨q', mac, host, hx, hlearned, hip⟩ := hx
      cases hx
      exact absurd hip (hspec mac host ((hknown mac host).2 hlearned))
    | some host =>
      simp only [hget] at hspec hsent
      obtain ⟨hip, mac, hlookup⟩ := hspec
      have hlearned := (hknown mac host).1 hlookup
      have hmac : host.mac = mac := by
        obtain ⟨after, x, before, -, -, -, -, -, hmac⟩ := hlearned
        exact hmac
      rw [hsent]
      refine ⟨⟨fun _ => ⟨q, mac, host, rfl, hlearned, hip⟩, fun _ hx => by cases hx⟩,
        fun po hx => ?_⟩
      cases hx
      refine ⟨rfl, rfl, q, mac, host, rfl, hlearned, hip, fun padding => ?_⟩
      rw [← hmac]
      exact answers_reply host q padding

/-- The second of two hosts asks for the address of the first. -/
theorem replies_exact_two : ∃ h s s' po q mac host, Run h s ∧
    s.packetIn ⟨7, 2⟩ (0, 0) (arpRequest 0x020000000002 0x0a000002 0x0a000001) inTableOrder =
      .ok (s', some po) ∧ po.output = 2 ∧
    request (arpRequest 0x020000000002 0x0a000002 0x0a000001) = some q ∧
    Learned ((s, .packetIn ⟨7, 2⟩ (0, 0) (arpRequest 0x020000000002 0x0a000002 0x0a000001)
      inTableOrder) :: h) mac host ∧
    host.ip = q.tpa ∧ Answers (po.data ++ List.replicate 18 0) q mac := by
  obtain ⟨h, s, hr, r, hsent, po, hpo, -⟩ := exists_trace State.step (fun _ _ => True) State.init
    [.manager (.switchUp 7),
      .packetIn ⟨7, 1⟩ (0, 0) (arpRequest 0x020000000001 0x0a000001 0x0a000002) inTableOrder]
    (P := fun _ s => ∃ r ∈ (s.packetIn ⟨7, 2⟩ (0, 0)
        (arpRequest 0x020000000002 0x0a000002 0x0a000001) inTableOrder).toOption, ∃ po ∈ r.2, True)
    (by decide +kernel)
  obtain ⟨s', sent⟩ := r
  obtain rfl : sent = some po := hpo
  cases hp : s.packetIn ⟨7, 2⟩ (0, 0) (arpRequest 0x020000000002 0x0a000002 0x0a000001)
      inTableOrder with
  | error f =>
    rw [hp] at hsent
    cases hsent
  | ok r =>
    rw [hp] at hsent
    cases hsent
    obtain ⟨-, hout, q, mac, host, hq, hlearned, hip, hanswers⟩ :=
      (replies_exact hr hp).2 po rfl
    exact ⟨h, s, s', po, q, mac, host, hr, hp, hout, hq, hlearned, hip, hanswers _⟩

end HostManager
