import Runos.Oxm.Proof.PacketBits
import Runos.Oxm.Proof.PacketTest
import Runos.Topology.Lldp

/-!
# LLDP packets, sent and received

A packet reads back from its memory whatever follows it (`ofBytes_bytes`), so the handler takes the
port that an LLDP packet was sent out of from the packet and queues a beacon between that port and the
one the packet came in on (`handlePacket_lldp`). For any other frame it queues nothing
(`handlePacket_foreign`).
-/

namespace LinkDiscovery

open Blocks Oxm OxmType PacketParser Controller

/-! ## The packet in memory -/

namespace LldpPacket

/-- The widths of the members. -/
def widths : List Nat := [48, 48, 16, 16, 8, 48, 16, 8, 32, 16, 16, 16, 24, 8, 64, 16]

theorem read_bytes (p : LldpPacket) (k : Nat) {w o : Nat} {v : BitVec w}
    (hm : p.members[k]? = some ⟨w, v⟩) (ho : o = Packed.offset widths k) (rest : List Byte) :
    read w (p.bytes ++ rest) o = some v :=
  Packed.read_encode hm ho rest

/-- **Round trip**: the packet is read from its memory, and from a longer one. -/
theorem ofBytes_bytes (p : LldpPacket) (rest : List Byte) : ofBytes (p.bytes ++ rest) = some p := by
  have h0 : read 48 (p.bytes ++ rest) 0 = some p.dstMac := p.read_bytes 0 rfl rfl rest
  have h1 : read 48 (p.bytes ++ rest) 6 = some p.srcMac := p.read_bytes 1 rfl rfl rest
  have h2 : read 16 (p.bytes ++ rest) 12 = some p.ethType := p.read_bytes 2 rfl rfl rest
  have h3 : read 16 (p.bytes ++ rest) 14 = some p.chassisIdHeader := p.read_bytes 3 rfl rfl rest
  have h4 : read 8 (p.bytes ++ rest) 16 = some p.chassisIdSub := p.read_bytes 4 rfl rfl rest
  have h5 : read 48 (p.bytes ++ rest) 17 = some p.chassisIdSubMac := p.read_bytes 5 rfl rfl rest
  have h6 : read 16 (p.bytes ++ rest) 23 = some p.portIdHeader := p.read_bytes 6 rfl rfl rest
  have h7 : read 8 (p.bytes ++ rest) 25 = some p.portIdSub := p.read_bytes 7 rfl rfl rest
  have h8 : read 32 (p.bytes ++ rest) 26 = some p.portIdSubComponent := p.read_bytes 8 rfl rfl rest
  have h9 : read 16 (p.bytes ++ rest) 30 = some p.ttlHeader := p.read_bytes 9 rfl rfl rest
  have h10 : read 16 (p.bytes ++ rest) 32 = some p.ttlSeconds := p.read_bytes 10 rfl rfl rest
  have h11 : read 16 (p.bytes ++ rest) 34 = some p.dpidHeader := p.read_bytes 11 rfl rfl rest
  have h12 : read 24 (p.bytes ++ rest) 36 = some p.dpidOui := p.read_bytes 12 rfl rfl rest
  have h13 : read 8 (p.bytes ++ rest) 39 = some p.dpidSub := p.read_bytes 13 rfl rfl rest
  have h14 : read 64 (p.bytes ++ rest) 40 = some p.dpidData := p.read_bytes 14 rfl rfl rest
  have h15 : read 16 (p.bytes ++ rest) 48 = some p.endTlv := p.read_bytes 15 rfl rfl rest
  simp only [ofBytes, h0, h1, h2, h3, h4, h5, h6, h7, h8, h9, h10, h11, h12, h13, h14, h15,
    Bind.bind, Option.bind]

theorem length_bytes (p : LldpPacket) : p.bytes.length = sizeof := by
  have hlen : p.bytes.length = Packed.size widths := Packed.length_encode p.members
  exact hlen.trans rfl

/-- Fewer bytes are no packet. -/
theorem ofBytes_eq_none {bytes : List Byte} (h : bytes.length < sizeof) : ofBytes bytes = none := by
  have hend : read 16 bytes 48 = none := if_neg (Nat.not_le.2 h)
  simp only [ofBytes, hend, Option.bind_eq_bind, Option.bind_none, Option.bind_fun_none]

end LldpPacket

/-! ## The handler -/

section
variable {pollInterval : UInt32} {dpid : UInt64} {port : Port} {padding frame : List Byte}
  {inPort : BitVec 32} {packet : Option Buffer} {p : PacketParser} {decision : Decision}

/-- No rule is made for an LLDP packet. -/
theorem disposable_consumed (decision : Decision) : (consumed decision).disposable = true := by
  simp [consumed, Decision.disposable, Decision.withReturn, Decision.drop, Decision.withIdleTimeout]

/-- The frame of an LLDP packet has one Ethernet header, with the type of LLDP. -/
theorem link_lldp : link ((lldp pollInterval dpid port).bytes ++ padding) =
    some (.ethernet, LLDP_ETH_TYPE) := by
  have hlen : EthernetHdr.sizeof ≤ ((lldp pollInterval dpid port).bytes ++ padding).length := by
    rw [List.length_append, LldpPacket.length_bytes]
    show 14 ≤ 50 + _
    omega
  have htype : number 16 ((lldp pollInterval dpid port).bytes ++ padding) EthernetHdr.type =
      LLDP_ETH_TYPE := by
    have hread := (lldp pollInterval dpid port).read_bytes 2 (o := 12) rfl rfl padding
    rw [number, hread]
    rfl
  rw [link, if_pos hlen, htype]
  rfl

/-- **An LLDP packet** is consumed, and a beacon is queued between the port it was sent out of and the
port it came in on. -/
theorem handlePacket_lldp (hp : Parsed inPort packet p)
    (hf : frameOf packet = (lldp pollInterval dpid port).bytes ++ padding) (own : UInt64) :
    handlePacket own p decision = .ok (consumed decision,
      some (beaconPorts ⟨dpid, port.portNo⟩ ⟨own, .ofBitVec inPort⟩)) := by
  have hl : link (frameOf packet) = some (.ethernet, LLDP_ETH_TYPE) := by rw [hf, link_lldp]
  have hbytes : p.serializeTo LldpPacket.sizeof = (lldp pollInterval dpid port).bytes ++ [] := by
    rw [serializeTo_eq_take, serializeTo_totalBytes, hp.bytes, hf, List.append_nil]
    exact List.take_left' (LldpPacket.length_bytes _)
  unfold handlePacket
  rw [hp.test_ethType hl, hbytes, LldpPacket.ofBytes_bytes, hp.load_inPort]
  simp only [Bind.bind, Except.bind, Field.value_make_exact]
  rfl

/-- A frame that is not an LLDP packet, or only the start of one. -/
def Foreign (frame : List Byte) : Prop :=
  (link frame).map Prod.snd ≠ some LLDP_ETH_TYPE ∨ frame.length < LldpPacket.sizeof

instance (frame : List Byte) : Decidable (Foreign frame) := inferInstanceAs (Decidable (_ ∨ _))

/-- **Any other frame** queues nothing. -/
theorem handlePacket_foreign (hp : Parsed inPort packet p) (hf : Foreign (frameOf packet))
    (own : UInt64) : ∀ r, handlePacket own p decision = .ok r → r.2 = none := by
  intro r hr
  unfold handlePacket at hr
  cases hl : link (frameOf packet) with
  | none =>
    rw [hp.test_ethType_none hl] at hr
    cases hr
  | some l =>
    obtain ⟨h, ethType⟩ := l
    rw [hp.test_ethType hl] at hr
    by_cases htype : ethType = LLDP_ETH_TYPE
    · subst htype
      have hshort : (frameOf packet).length < LldpPacket.sizeof :=
        hf.resolve_left fun hno => hno (by rw [hl]; rfl)
      have hnone : LldpPacket.ofBytes (p.serializeTo LldpPacket.sizeof) = none := by
        apply LldpPacket.ofBytes_eq_none
        rw [serializeTo_eq_take, serializeTo_totalBytes, hp.bytes, List.length_take]
        omega
      simp only [decide_true, Bind.bind, Except.bind, hnone, if_true] at hr
      cases hr
      rfl
    · simp only [htype, decide_false, Bind.bind, Except.bind, Bool.false_eq_true, if_false] at hr
      cases hr
      rfl

/-! ## Packet-ins -/

/-- An LLDP packet is delivered, with what the medium has padded it with. -/
theorem packetIn_lldp (target : SwitchAndPort) (front : Byte × Byte) :
    packetIn target front ((lldp pollInterval dpid port).bytes ++ padding) =
      some (beaconPorts ⟨dpid, port.portNo⟩ target) := by
  have hwhole : ¬ Truncated (frameOf
      (some ⟨front.2, (lldp pollInterval dpid port).bytes ++ padding⟩)) := by
    rintro ⟨h, hl, -⟩
    rw [show frameOf _ = (lldp pollInterval dpid port).bytes ++ padding from rfl, link_lldp] at hl
    cases hl
  obtain ⟨p, hp⟩ := (init_returns front.1 target.port.toBitVec _).2 hwhole
  rw [packetIn, hp]
  simp only [handlePacket_lldp (parsed_of_init hp) rfl]

theorem packetIn_foreign (target : SwitchAndPort) (front : Byte × Byte) (hf : Foreign frame) :
    packetIn target front frame = none := by
  unfold packetIn
  split
  · rfl
  · rename_i p hp
    split
    · rfl
    · rename_i r hr
      exact handlePacket_foreign (parsed_of_init hp) hf _ r hr

end

end LinkDiscovery
