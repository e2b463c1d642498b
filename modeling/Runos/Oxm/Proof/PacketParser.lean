import Runos.Oxm.PacketParser
import Runos.Oxm.Proof.Field

/-!
# The headers of a frame

`headers frame`: the headers that a frame has, each with the place where it starts. The parser binds
exactly the fields of these headers (`init_spec`), and it returns unless the frame ends in the middle
of an IPv6 header (`init_returns`). Every header lies in the frame, and every field in its header; so
the fields lie in the frame (`bound_in_frame`).
-/

namespace Oxm

namespace PacketParser

open Blocks OxmType

/-! ## Headers -/

inductive Header
  | ethernet | dot1q | ipv4 | arp | ipv6 | tcp | udp | icmp
  deriving DecidableEq, Repr

namespace Header

def sizeof : Header → Nat
  | .ethernet => EthernetHdr.sizeof
  | .dot1q => Dot1qHdr.sizeof
  | .ipv4 => Ipv4Hdr.sizeof
  | .arp => ArpHdr.sizeof
  | .ipv6 => Ipv6Hdr.sizeof
  | .tcp => TcpHdr.sizeof
  | .udp => UdpHdr.sizeof
  | .icmp => IcmpHdr.sizeof

/-- The fields that are bound, with their places in the header. -/
def fields : Header → List (OfbType × Nat)
  | .ethernet => [(.eth_type, 12), (.eth_src, 6), (.eth_dst, 0)]
  | .dot1q => [(.eth_type, 16), (.eth_src, 6), (.eth_dst, 0), (.vlan_vid, 14)]
  | .ipv4 => [(.ip_proto, 9), (.ipv4_src, 12), (.ipv4_dst, 16)]
  | .arp => [(.arp_op, 6), (.arp_sha, 8), (.arp_tha, 18), (.arp_spa, 14), (.arp_tpa, 24)]
  | .ipv6 => [(.ipv6_src, 8), (.ipv6_dst, 24), (.ip_proto, 6)]
  | .tcp => [(.tcp_src, 0), (.tcp_dst, 2)]
  | .udp => [(.udp_src, 0), (.udp_dst, 2)]
  | .icmp => [(.icmp_type, 0), (.icmp_code, 1)]

/-- The fields of a header that starts at `base`. -/
def bound (h : Header) (base : Nat) : List (OfbType × Pointer) :=
  h.fields.map fun f => (f.1, .data (base + f.2))

/-- The layer of the header. -/
def layer : Header → Nat
  | .ethernet | .dot1q => 2
  | .ipv4 | .arp | .ipv6 => 3
  | .tcp | .udp | .icmp => 4

end Header

/-- The layer of the headers that have the field. -/
def layerOf : OfbType → Nat
  | .in_port => 1
  | .eth_type | .eth_src | .eth_dst | .vlan_vid => 2
  | .ip_proto | .ipv4_src | .ipv4_dst | .arp_spa | .arp_tpa | .arp_sha | .arp_tha | .arp_op
  | .ipv6_src | .ipv6_dst => 3
  | .tcp_src | .tcp_dst | .udp_src | .udp_dst | .icmp_type | .icmp_code => 4

namespace Header

variable {h : Header} {base : Nat} {t : OfbType} {ptr : Pointer}

theorem nodup_fields (h : Header) : (h.fields.map Prod.fst).Nodup := by cases h <;> decide

theorem layerOf_fields (h : Header) : ∀ f ∈ h.fields, layerOf f.1 = h.layer := by
  cases h <;> decide

/-- A field lies in its header. -/
theorem fields_in (h : Header) : ∀ f ∈ h.fields, f.2 + count (nbits f.1) ≤ h.sizeof := by
  cases h <;> decide

/-- Two fields of a header have no byte in common. -/
theorem fields_apart (h : Header) : ∀ f ∈ h.fields, ∀ f' ∈ h.fields, f.1 ≠ f'.1 →
    f.2 + count (nbits f.1) ≤ f'.2 ∨ f'.2 + count (nbits f'.1) ≤ f.2 := by
  cases h <;> decide

theorem mem_bound : (t, ptr) ∈ h.bound base ↔
    ∃ o, (t, o) ∈ h.fields ∧ ptr = .data (base + o) := by
  simp only [bound, List.mem_map, Prod.mk.injEq, Prod.exists]
  constructor
  · intro hm
    obtain ⟨t', o, hf, rfl, hp⟩ := hm
    exact ⟨o, hf, hp.symm⟩
  · intro hm
    obtain ⟨o, hf, hp⟩ := hm
    exact ⟨t, o, hf, rfl, hp.symm⟩

theorem map_fst_bound (h : Header) (base : Nat) :
    (h.bound base).map Prod.fst = h.fields.map Prod.fst := by
  rw [bound, List.map_map]
  rfl

end Header

/-! ## Bindings -/

variable {b b' b'' : Bindings} {t : OfbType} {ptr : Pointer}

/-- Binding types that are not bound yet. -/
theorem bind_spec {l : List (OfbType × Pointer)} (hn : (l.map Prod.fst).Nodup)
    (hfree : ∀ e ∈ l, b e.1 = none) :
    ∃ b', bind b l = .ok b' ∧ ∀ t ptr, b' t = some ptr ↔ b t = some ptr ∨ (t, ptr) ∈ l := by
  induction l generalizing b with
  | nil => exact ⟨b, rfl, fun t ptr => by simp⟩
  | cons e l ih =>
    obtain ⟨id, ptr₀⟩ := e
    have hid : b id = none := hfree _ List.mem_cons_self
    obtain ⟨hnot, hn⟩ := List.nodup_cons.1 hn
    obtain ⟨b', hb', hiff⟩ := ih (b := Function.update b id (some ptr₀)) hn fun e he => by
      have hne : e.1 ≠ id := by
        intro heq
        exact hnot (List.mem_map.2 ⟨e, he, heq⟩)
      rw [Function.update_of_ne hne]
      exact hfree e (List.mem_cons_of_mem _ he)
    refine ⟨b', ?_, fun t ptr => ?_⟩
    · rw [bind, if_neg (by simp [hid])]
      exact hb'
    · rw [hiff, List.mem_cons, Prod.mk.injEq]
      by_cases ht : t = id
      · subst ht
        rw [Function.update_self, hid]
        simp [eq_comm]
      · rw [Function.update_of_ne ht]
        simp [ht]

/-- The fields of the headers were bound. -/
def Adds (b b' : Bindings) (hs : List (Header × Nat)) : Prop :=
  ∀ t ptr, b' t = some ptr ↔ b t = some ptr ∨ ∃ h ∈ hs, (t, ptr) ∈ h.1.bound h.2

theorem Adds.refl (b : Bindings) : Adds b b [] := fun t ptr => by simp

theorem Adds.cons {h : Header × Nat} {hs : List (Header × Nat)} (h₁ : Adds b b' [h])
    (h₂ : Adds b' b'' hs) : Adds b b'' (h :: hs) := by
  intro t ptr
  rw [h₂, h₁]
  simp [or_assoc]

/-- Only types of layers below `n` are bound. -/
def Below (n : Nat) (b : Bindings) : Prop := ∀ t ptr, b t = some ptr → layerOf t < n

theorem Below.mono {n m : Nat} (h : Below n b) (hnm : n ≤ m) : Below m b :=
  fun t ptr ht => Nat.lt_of_lt_of_le (h t ptr ht) hnm

theorem Adds.below {h : Header} {base : Nat} (ha : Adds b b' [(h, base)])
    (hb : Below h.layer b) : Below (h.layer + 1) b' := by
  intro t ptr ht
  rcases (ha t ptr).1 ht with ht | ⟨h', hm, ht⟩
  · exact Nat.lt_succ_of_lt (hb t ptr ht)
  · rw [List.mem_singleton.1 hm] at ht
    obtain ⟨o, hf, -⟩ := Header.mem_bound.1 ht
    exact Nat.lt_succ_of_le (h.layerOf_fields _ hf).le

/-- The fields of a header are bound when only lower layers were. -/
theorem bind_header (h : Header) (base : Nat) (hb : Below h.layer b) :
    ∃ b', bind b (h.bound base) = .ok b' ∧ Adds b b' [(h, base)] := by
  have hfree : ∀ e ∈ h.bound base, b e.1 = none := by
    intro e he
    obtain ⟨o, hf, -⟩ := Header.mem_bound.1 (show (e.1, e.2) ∈ h.bound base from he)
    by_contra hne
    obtain ⟨ptr, hptr⟩ := Option.ne_none_iff_exists'.1 hne
    have hlt := hb _ _ hptr
    rw [h.layerOf_fields _ hf] at hlt
    omega
  have hn : ((h.bound base).map Prod.fst).Nodup := by
    rw [h.map_fst_bound]
    exact h.nodup_fields
  obtain ⟨b', hb', hiff⟩ := bind_spec hn hfree
  exact ⟨b', hb', fun t ptr => by rw [hiff]; simp⟩

/-! ## The headers of a frame -/

/-- A number in the frame; 0 where the frame has ended. -/
def number (w : Nat) (frame : List Byte) (p : Nat) : BitVec w := (read w frame p).getD 0

/-- The place of the header after an IPv4 header. -/
def afterIpv4 (frame : List Byte) (base : Nat) : Nat :=
  base + (number 8 frame base).toNat % 16 * 4

def l4Headers (frame : List Byte) (protocol : BitVec 8) (base : Nat) : List (Header × Nat) :=
  if protocol = 0x06 then if base + TcpHdr.sizeof ≤ frame.length then [(.tcp, base)] else []
  else if protocol = 0x11 then if base + UdpHdr.sizeof ≤ frame.length then [(.udp, base)] else []
  else if protocol = 0x01 then if base + IcmpHdr.sizeof ≤ frame.length then [(.icmp, base)] else []
  else []

/-- An ARP header that maps IPv4 to Ethernet addresses. -/
def IsArp (frame : List Byte) (base : Nat) : Prop :=
  base + ArpHdr.sizeof ≤ frame.length ∧ number 16 frame (base + ArpHdr.htype) = 1 ∧
    number 16 frame (base + ArpHdr.ptype) = 0x0800 ∧ number 8 frame (base + ArpHdr.hlen) = 6 ∧
    number 8 frame (base + ArpHdr.plen) = 4

instance (frame : List Byte) (base : Nat) : Decidable (IsArp frame base) :=
  inferInstanceAs (Decidable (_ ∧ _))

def l3Headers (frame : List Byte) (ethType : BitVec 16) (base : Nat) : List (Header × Nat) :=
  if ethType = 0x0800 then
    if base + Ipv4Hdr.sizeof ≤ frame.length then
      (.ipv4, base) ::
        l4Headers frame (number 8 frame (base + Ipv4Hdr.protocol)) (afterIpv4 frame base)
    else []
  else if ethType = 0x0806 then if IsArp frame base then [(.arp, base)] else []
  else if ethType = 0x86dd then
    if base + Ipv6Hdr.sizeof ≤ frame.length then
      (.ipv6, base) ::
        l4Headers frame (number 8 frame (base + Ipv6Hdr.protocol)) (base + Ipv6Hdr.sizeof)
    else []
  else []

/-- The first header, and the type of what follows it. -/
def link (frame : List Byte) : Option (Header × BitVec 16) :=
  if EthernetHdr.sizeof ≤ frame.length then
    if number 16 frame EthernetHdr.type = 0x8100 then
      if Dot1qHdr.sizeof ≤ frame.length then some (.dot1q, number 16 frame Dot1qHdr.type) else none
    else
      some (.ethernet, number 16 frame EthernetHdr.type)
  else
    none

def headers (frame : List Byte) : List (Header × Nat) :=
  match link frame with
  | none => []
  | some (h, ethType) => (h, 0) :: l3Headers frame ethType h.sizeof

/-- The frame ends in an IPv6 header, or right in front of one. -/
def Truncated (frame : List Byte) : Prop :=
  ∃ h, link frame = some (h, 0x86dd) ∧ frame.length < h.sizeof + Ipv6Hdr.sizeof

/-! ## What the parser binds -/

variable {frame : List Byte} {data dataLen : Nat}

theorem uint_eq {w p : Nat} (h : p + count w ≤ frame.length) :
    uint w frame p = .ok (number w frame p) := by
  obtain ⟨v, hv⟩ := read_eq_some h
  rw [uint, number, hv]
  rfl

theorem l3Headers_ipv4 (h : data + 20 ≤ frame.length) : l3Headers frame 0x0800 data =
    (.ipv4, data) ::
      l4Headers frame (number 8 frame (data + Ipv4Hdr.protocol)) (afterIpv4 frame data) :=
  if_pos h

theorem l3Headers_arp :
    l3Headers frame 0x0806 data = if IsArp frame data then [(.arp, data)] else [] := rfl

theorem l3Headers_ipv6 (h : data + 40 ≤ frame.length) : l3Headers frame 0x86dd data =
    (.ipv6, data) ::
      l4Headers frame (number 8 frame (data + Ipv6Hdr.protocol)) (data + Ipv6Hdr.sizeof) :=
  if_pos h

theorem l4Headers_of_le {base : Nat} (h : frame.length ≤ base) (protocol : BitVec 8) :
    l4Headers frame protocol base = [] := by
  unfold l4Headers
  split
  · exact if_neg (show ¬ base + 20 ≤ frame.length by omega)
  · split
    · exact if_neg (show ¬ base + 8 ≤ frame.length by omega)
    · split
      · exact if_neg (show ¬ base + 4 ≤ frame.length by omega)
      · rfl

theorem parseL4_spec (hb : Below 4 b) (hlen : data + dataLen = frame.length)
    (protocol : BitVec 8) :
    ∃ b', parseL4 b protocol data dataLen = .ok b' ∧ Adds b b' (l4Headers frame protocol data) := by
  unfold parseL4 l4Headers
  rw [← hlen]
  simp only [Nat.add_le_add_iff_left]
  split
  · split
    · exact bind_header .tcp data hb
    · exact ⟨b, rfl, .refl b⟩
  · split
    · split
      · exact bind_header .udp data hb
      · exact ⟨b, rfl, .refl b⟩
    · split
      · split
        · exact bind_header .icmp data hb
        · exact ⟨b, rfl, .refl b⟩
      · exact ⟨b, rfl, .refl b⟩

/-- The header after an IP header. -/
theorem parseL4_after {h : Header} {base : Nat} (ha : Adds b b' [(h, base)])
    (hb : Below 3 b) (hlayer : h.layer = 3) (hlen : data + dataLen = frame.length)
    (protocol : BitVec 8) :
    ∃ b'', parseL4 b' protocol data dataLen = .ok b'' ∧
      Adds b b'' ((h, base) :: l4Headers frame protocol data) := by
  have hb' : Below 4 b' := by
    have hbelow := ha.below (hlayer ▸ hb)
    rwa [hlayer] at hbelow
  obtain ⟨b'', hb'', hadds⟩ := parseL4_spec hb' hlen protocol
  exact ⟨b'', hb'', ha.cons hadds⟩

theorem parseIpv4_spec (hb : Below 3 b) (hlen : data + dataLen = frame.length) :
    ∃ b', parseIpv4 frame b data dataLen = .ok b' ∧ Adds b b' (l3Headers frame 0x0800 data) := by
  unfold parseIpv4
  by_cases hfit : 20 ≤ dataLen
  · rw [if_pos hfit, l3Headers_ipv4 (by omega)]
    obtain ⟨b₁, hb₁, hadds⟩ := bind_header .ipv4 data hb
    have hbind : bind b [(.ip_proto, .data (data + Ipv4Hdr.protocol)),
      (.ipv4_src, .data (data + Ipv4Hdr.src)), (.ipv4_dst, .data (data + Ipv4Hdr.dst))] =
        .ok b₁ := hb₁
    have hihl : uint 8 frame data = .ok (number 8 frame data) :=
      uint_eq (show data + 1 ≤ frame.length by omega)
    have hproto : uint 8 frame (data + Ipv4Hdr.protocol) =
        .ok (number 8 frame (data + Ipv4Hdr.protocol)) :=
      uint_eq (show data + 9 + 1 ≤ frame.length by omega)
    simp only [hbind, ipv4HeaderLength, hihl, hproto, Bind.bind, Except.bind]
    split
    · exact parseL4_after hadds hb rfl (by omega) _
    · rw [l4Headers_of_le (by unfold afterIpv4; omega)]
      exact ⟨b₁, rfl, hadds⟩
  · have hnone : l3Headers frame 0x0800 data = [] :=
      if_neg (show ¬ data + 20 ≤ frame.length by omega)
    rw [if_neg hfit, hnone]
    exact ⟨b, rfl, .refl b⟩

theorem parseArp_spec (hb : Below 3 b) (hlen : data + dataLen = frame.length) :
    ∃ b', parseArp frame b data dataLen = .ok b' ∧ Adds b b' (l3Headers frame 0x0806 data) := by
  unfold parseArp
  rw [l3Headers_arp]
  by_cases hfit : 28 ≤ dataLen
  · have hin : data + 28 ≤ frame.length := by omega
    have hhtype : uint 16 frame (data + ArpHdr.htype) = .ok (number 16 frame (data + ArpHdr.htype)) :=
      uint_eq (show data + 0 + 2 ≤ frame.length by omega)
    have hptype : uint 16 frame (data + ArpHdr.ptype) = .ok (number 16 frame (data + ArpHdr.ptype)) :=
      uint_eq (show data + 2 + 2 ≤ frame.length by omega)
    have hhlen : uint 8 frame (data + ArpHdr.hlen) = .ok (number 8 frame (data + ArpHdr.hlen)) :=
      uint_eq (show data + 4 + 1 ≤ frame.length by omega)
    have hplen : uint 8 frame (data + ArpHdr.plen) = .ok (number 8 frame (data + ArpHdr.plen)) :=
      uint_eq (show data + 5 + 1 ≤ frame.length by omega)
    rw [if_pos hfit]
    simp only [hhtype, hptype, hhlen, hplen, Bind.bind, Except.bind]
    split
    · rename_i hother
      have hno : ¬ IsArp frame data := fun harp => by
        obtain ⟨-, h₁, h₂, h₃, h₄⟩ := harp
        rcases hother with h | h | h | h
        · exact h h₁
        · exact h h₂
        · exact h h₃
        · exact h h₄
      rw [if_neg hno]
      exact ⟨b, rfl, .refl b⟩
    · rename_i hsame
      simp only [ne_eq, not_or, not_not] at hsame
      rw [if_pos ⟨hin, hsame⟩]
      exact bind_header .arp data hb
  · rw [if_neg hfit, if_neg fun harp => by have : data + 28 ≤ frame.length := harp.1; omega]
    exact ⟨b, rfl, .refl b⟩

/-- A whole IPv6 header. -/
theorem parseIpv6_spec (hb : Below 3 b) (hlen : data + dataLen = frame.length)
    (hfit : 40 ≤ dataLen) :
    ∃ b', parseIpv6 frame b data dataLen = .ok b' ∧ Adds b b' (l3Headers frame 0x86dd data) := by
  unfold parseIpv6
  rw [if_pos hfit, l3Headers_ipv6 (by omega)]
  obtain ⟨b₁, hb₁, hadds⟩ := bind_header .ipv6 data hb
  have hbind : bind b [(.ipv6_src, .data (data + Ipv6Hdr.src1)),
    (.ipv6_dst, .data (data + Ipv6Hdr.dst1)), (.ip_proto, .data (data + Ipv6Hdr.protocol))] =
      .ok b₁ := hb₁
  have hproto : uint 8 frame (data + Ipv6Hdr.protocol) =
      .ok (number 8 frame (data + Ipv6Hdr.protocol)) :=
    uint_eq (show data + 6 + 1 ≤ frame.length by omega)
  simp only [hbind, hproto, deref, Bind.bind, Except.bind]
  split
  · exact parseL4_after hadds hb rfl (show data + 40 + (dataLen - 40) = _ by omega) _
  · rename_i hrest
    have hend : dataLen = 40 := by
      have : ¬ 40 < dataLen := hrest
      omega
    rw [l4Headers_of_le (show frame.length ≤ data + 40 by omega)]
    exact ⟨b₁, rfl, hadds⟩

/-- The length of a header that is not there is asked for. -/
theorem parseIpv6_truncated (hfit : dataLen < 40) :
    parseIpv6 frame b data dataLen = .error .nullptrDereference := by
  unfold parseIpv6
  rw [if_neg (show ¬ 40 ≤ dataLen by omega)]
  rfl

theorem parseL3_spec (hb : Below 3 b) (hlen : data + dataLen = frame.length) {ethType : BitVec 16}
    (hwhole : ethType = 0x86dd → 40 ≤ dataLen) :
    ∃ b', parseL3 frame b ethType data dataLen = .ok b' ∧
      Adds b b' (l3Headers frame ethType data) := by
  unfold parseL3
  by_cases hipv4 : ethType = 0x0800
  · subst hipv4
    exact parseIpv4_spec hb hlen
  · by_cases harp : ethType = 0x0806
    · subst harp
      exact parseArp_spec hb hlen
    · by_cases hipv6 : ethType = 0x86dd
      · subst hipv6
        exact parseIpv6_spec hb hlen (hwhole rfl)
      · simp only [if_neg hipv4, if_neg harp, if_neg hipv6, l3Headers]
        exact ⟨b, rfl, .refl b⟩

/-- The network layer after the first header. -/
theorem parseL3_after {h : Header} (ha : Adds b b' [(h, 0)]) (hb : Below 2 b) (hlayer : h.layer = 2)
    (hin : h.sizeof ≤ frame.length) {ethType : BitVec 16} :
    (ethType = 0x86dd ∧ frame.length < h.sizeof + 40 →
      parseL3 frame b' ethType h.sizeof (frame.length - h.sizeof) = .error .nullptrDereference) ∧
    (¬ (ethType = 0x86dd ∧ frame.length < h.sizeof + 40) →
      ∃ b'', parseL3 frame b' ethType h.sizeof (frame.length - h.sizeof) = .ok b'' ∧
        Adds b b'' ((h, 0) :: l3Headers frame ethType h.sizeof)) := by
  constructor
  · intro htrunc
    obtain ⟨rfl, hlt⟩ := htrunc
    exact parseIpv6_truncated (by omega)
  · intro hwhole
    have hb' : Below 3 b' := by
      have hbelow := ha.below (hlayer ▸ hb)
      rwa [hlayer] at hbelow
    obtain ⟨b'', hb'', hadds⟩ := parseL3_spec hb' (Nat.add_sub_of_le hin)
      fun htype => by
        have : ¬ frame.length < h.sizeof + 40 := fun hlt => hwhole ⟨htype, hlt⟩
        omega
    exact ⟨b'', hb'', ha.cons hadds⟩

variable (frame) in
/-- The first header, if it is whole, is bound, and the parser goes on after it. -/
theorem parseL2_eq (hb : Below 2 b) :
    link frame = none ∧ parseL2 frame b frame.length = .ok b ∨
      ∃ h ethType b₁, link frame = some (h, ethType) ∧ h.layer = 2 ∧ h.sizeof ≤ frame.length ∧
        Adds b b₁ [(h, 0)] ∧ parseL2 frame b frame.length =
          parseL3 frame b₁ ethType h.sizeof (frame.length - h.sizeof) := by
  unfold parseL2 link
  by_cases heth : 14 ≤ frame.length
  · have htype : uint 16 frame EthernetHdr.type = .ok (number 16 frame EthernetHdr.type) :=
      uint_eq (show 12 + 2 ≤ frame.length by omega)
    simp only [if_pos heth, htype, Bind.bind, Except.bind]
    by_cases htag : number 16 frame EthernetHdr.type = 0x8100
    · simp only [if_pos htag]
      by_cases hq : 18 ≤ frame.length
      · have htype' : uint 16 frame Dot1qHdr.type = .ok (number 16 frame Dot1qHdr.type) :=
          uint_eq (show 16 + 2 ≤ frame.length by omega)
        obtain ⟨b₁, hb₁, hadds⟩ := bind_header .dot1q 0 hb
        have hbind : bind b [(.eth_type, .data Dot1qHdr.type), (.eth_src, .data Dot1qHdr.src),
          (.eth_dst, .data Dot1qHdr.dst), (.vlan_vid, .data Dot1qHdr.tci)] = .ok b₁ := hb₁
        simp only [hbind, htype', if_pos hq]
        exact .inr ⟨.dot1q, _, b₁, rfl, rfl, hq, hadds, rfl⟩
      · simp only [if_neg hq]
        exact .inl ⟨trivial, rfl⟩
    · simp only [if_neg htag]
      obtain ⟨b₁, hb₁, hadds⟩ := bind_header .ethernet 0 hb
      have hbind : bind b [(.eth_type, .data EthernetHdr.type), (.eth_src, .data EthernetHdr.src),
        (.eth_dst, .data EthernetHdr.dst)] = .ok b₁ := hb₁
      simp only [hbind]
      exact .inr ⟨.ethernet, _, b₁, rfl, rfl, heth, hadds, rfl⟩
  · simp only [if_neg heth]
    exact .inl ⟨trivial, trivial⟩

theorem truncated_iff {h : Header} {ethType : BitVec 16} (hl : link frame = some (h, ethType)) :
    Truncated frame ↔ ethType = 0x86dd ∧ frame.length < h.sizeof + 40 := by
  unfold Truncated
  rw [hl]
  constructor
  · intro ht
    obtain ⟨h', heq, hlt⟩ := ht
    cases heq
    exact ⟨rfl, hlt⟩
  · intro ht
    obtain ⟨rfl, hlt⟩ := ht
    exact ⟨h, rfl, hlt⟩

variable (frame) in
/-- The parser binds the fields of the headers, or follows the null pointer. -/
theorem parseL2_spec (hb : Below 2 b) :
    (Truncated frame → parseL2 frame b frame.length = .error .nullptrDereference) ∧
    (¬ Truncated frame → ∃ b', parseL2 frame b frame.length = .ok b' ∧
      Adds b b' (headers frame)) := by
  rcases parseL2_eq frame hb with
    ⟨hl, hparse⟩ | ⟨h, ethType, b₁, hl, hlayer, hin, ha, hparse⟩
  · have hnot : ¬ Truncated frame := by
      intro ht
      obtain ⟨h, hsome, -⟩ := ht
      cases hl.symm.trans hsome
    refine ⟨fun ht => absurd ht hnot, fun _ => ⟨b, hparse, ?_⟩⟩
    rw [headers, hl]
    exact .refl b
  · rw [truncated_iff hl, hparse, headers, hl]
    exact parseL3_after ha hb hlayer hin

/-! ## The constructor -/

variable {front : Byte} {inPort : BitVec 32} {packet : Option Buffer} {p : PacketParser}

/-- The bytes of the frame; a packet without data has none. -/
def frameOf (packet : Option Buffer) : List Byte := (packet.map Buffer.bytes).getD []

/-- What a packet is made of when it was parsed. -/
structure Parsed (inPort : BitVec 32) (packet : Option Buffer) (p : PacketParser) : Prop where
  bytes : p.data.bytes = frameOf packet
  inPort : p.inPort.bytes = (toBlocks inPort).reverse
  bound : ∀ t ptr, p.bindings t = some ptr ↔
    (t = .in_port ∧ ptr = .inPort) ∨ ∃ h ∈ headers (frameOf packet), (t, ptr) ∈ h.1.bound h.2

theorem bind_inPort : ∃ b, bind (fun _ => none) [(.in_port, .inPort)] = .ok b ∧ Below 2 b ∧
    ∀ t ptr, b t = some ptr ↔ t = .in_port ∧ ptr = .inPort := by
  obtain ⟨b, hb, hiff⟩ := bind_spec (b := fun _ => none) (l := [(.in_port, .inPort)])
    (by simp) (by simp)
  have hin : ∀ t ptr, b t = some ptr ↔ t = .in_port ∧ ptr = .inPort := fun t ptr => by
    rw [hiff]
    simp
  refine ⟨b, hb, fun t ptr ht => ?_, hin⟩
  rw [((hin t ptr).1 ht).1]
  decide

theorem init_spec (front : Byte) (inPort : BitVec 32) (packet : Option Buffer) :
    (Truncated (frameOf packet) → init front inPort packet = .error .nullptrDereference) ∧
    (¬ Truncated (frameOf packet) →
      ∃ p, init front inPort packet = .ok p ∧ Parsed inPort packet p) := by
  obtain ⟨b, hb, hbelow, hin⟩ := bind_inPort
  unfold init
  simp only [hb, Bind.bind, Except.bind]
  cases packet with
  | none =>
    refine ⟨fun ht => ?_, fun _ => ⟨_, rfl, rfl, rfl, fun t ptr => ?_⟩⟩
    · obtain ⟨h, hl, -⟩ := ht
      cases hl
    · rw [hin]
      exact ⟨.inl, fun h => h.elim id fun ⟨h, hm, _⟩ => by cases hm⟩
  | some data =>
    obtain ⟨hbad, hgood⟩ := parseL2_spec data.bytes hbelow
    refine ⟨fun ht => ?_, fun ht => ?_⟩
    · simp only [hbad ht]
    · obtain ⟨b', hb', hadds⟩ := hgood ht
      simp only [hb']
      exact ⟨_, rfl, rfl, rfl, fun t ptr => by rw [hadds, hin]; rfl⟩

/-- **When a packet is parsed**: unless the frame ends in an IPv6 header. -/
theorem init_returns (front : Byte) (inPort : BitVec 32) (packet : Option Buffer) :
    (∃ p, init front inPort packet = .ok p) ↔ ¬ Truncated (frameOf packet) := by
  obtain ⟨hbad, hgood⟩ := init_spec front inPort packet
  constructor
  · intro h ht
    obtain ⟨p, hp⟩ := h
    cases (hbad ht).symm.trans hp
  · intro ht
    obtain ⟨p, hp, -⟩ := hgood ht
    exact ⟨p, hp⟩

theorem parsed_of_init (h : init front inPort packet = .ok p) : Parsed inPort packet p := by
  obtain ⟨hbad, hgood⟩ := init_spec front inPort packet
  by_cases ht : Truncated (frameOf packet)
  · cases (hbad ht).symm.trans h
  · obtain ⟨p', hp', hparsed⟩ := hgood ht
    cases hp'.symm.trans h
    exact hparsed

/-- An Ethernet header that announces IPv6, and nothing after it. -/
def announced : List Byte := List.replicate 12 0 ++ [0x86, 0xdd]

theorem init_announced : ¬ ∃ p, init 0 1 (some ⟨0, announced⟩) = .ok p := by
  have herr : init 0 1 (some ⟨0, announced⟩) = .error .nullptrDereference := rfl
  intro h
  obtain ⟨p, hp⟩ := h
  cases herr.symm.trans hp

/-! ## Where the fields are -/

variable {h : Header × Nat}

theorem l4Headers_in {protocol : BitVec 8} {base : Nat} (hm : h ∈ l4Headers frame protocol base) :
    h.1.layer = 4 ∧ h.2 = base ∧ h.2 + h.1.sizeof ≤ frame.length := by
  unfold l4Headers at hm
  split at hm
  · split at hm
    · cases List.mem_singleton.1 hm
      exact ⟨rfl, rfl, ‹_›⟩
    · cases hm
  · split at hm
    · split at hm
      · cases List.mem_singleton.1 hm
        exact ⟨rfl, rfl, ‹_›⟩
      · cases hm
    · split at hm
      · split at hm
        · cases List.mem_singleton.1 hm
          exact ⟨rfl, rfl, ‹_›⟩
        · cases hm
      · cases hm

/-- The headers of the network layer: the header of that layer at `base`, and at most one after it,
which follows immediately unless the first is of IPv4. -/
theorem l3Headers_in {ethType : BitVec 16} {base : Nat} (hm : h ∈ l3Headers frame ethType base) :
    h.2 + h.1.sizeof ≤ frame.length ∧
      (h.1.layer = 3 ∧ h.2 = base ∨
        h ∈ l4Headers frame (number 8 frame (base + Ipv6Hdr.protocol)) (base + Ipv6Hdr.sizeof) ∧
          ethType = 0x86dd ∨
        h ∈ l4Headers frame (number 8 frame (base + Ipv4Hdr.protocol)) (afterIpv4 frame base) ∧
          ethType = 0x0800) := by
  unfold l3Headers at hm
  split at hm
  · split at hm
    · rcases List.mem_cons.1 hm with rfl | hm
      · exact ⟨‹_›, .inl ⟨rfl, rfl⟩⟩
      · exact ⟨(l4Headers_in hm).2.2, .inr (.inr ⟨hm, ‹_›⟩)⟩
    · cases hm
  · split at hm
    · split at hm
      · cases List.mem_singleton.1 hm
        rename_i harp
        exact ⟨harp.1, .inl ⟨rfl, rfl⟩⟩
      · cases hm
    · split at hm
      · split at hm
        · rcases List.mem_cons.1 hm with rfl | hm
          · exact ⟨‹_›, .inl ⟨rfl, rfl⟩⟩
          · exact ⟨(l4Headers_in hm).2.2, .inr (.inl ⟨hm, ‹_›⟩)⟩
        · cases hm
      · cases hm

theorem link_in {l : Header} {ethType : BitVec 16} (hl : link frame = some (l, ethType)) :
    l.layer = 2 ∧ l.sizeof ≤ frame.length := by
  unfold link at hl
  split at hl
  · split at hl
    · split at hl
      · cases hl
        exact ⟨rfl, ‹_›⟩
      · cases hl
    · cases hl
      exact ⟨rfl, ‹_›⟩
  · cases hl

/-- A header lies in the frame. -/
theorem headers_in (hm : h ∈ headers frame) : h.2 + h.1.sizeof ≤ frame.length := by
  unfold headers at hm
  split at hm
  · cases hm
  · rename_i l ethType hl
    rcases List.mem_cons.1 hm with rfl | hm
    · have := (link_in hl).2
      show 0 + l.sizeof ≤ frame.length
      omega
    · exact (l3Headers_in hm).1

theorem Parsed.in_frame (hp : Parsed inPort packet p) {t : OfbType} {ptr : Pointer}
    (ht : p.bindings t = some ptr) :
    t = .in_port ∧ ptr = .inPort ∨
      ∃ o, ptr = .data o ∧ o + count (nbits t) ≤ (frameOf packet).length := by
  rcases (hp.bound t ptr).1 ht with hin | ⟨h, hm, ht⟩
  · exact .inl hin
  · obtain ⟨o, hf, rfl⟩ := Header.mem_bound.1 ht
    have hfield : o + count (nbits t) ≤ h.1.sizeof := h.1.fields_in _ hf
    have hheader := headers_in hm
    exact .inr ⟨h.2 + o, rfl, by omega⟩

/-- **The fields lie in the frame**, all but the port, which is kept apart. -/
theorem bound_in_frame (hp : init front inPort packet = .ok p) {t : OfbType} {ptr : Pointer}
    (hne : t ≠ .in_port) (ht : p.bindings t = some ptr) :
    ∃ o, ptr = .data o ∧ o + count (nbits t) ≤ (frameOf packet).length := by
  rcases (parsed_of_init hp).in_frame ht with ⟨heq, -⟩ | hin
  · exact absurd heq hne
  · exact hin

/-- A TCP segment in IPv4 in a tagged frame: the bytes `0x00`, `0x01`, … of the addresses do not
matter, the length of the IPv4 header is 5 words. -/
def taggedTcp : List Byte :=
  List.replicate 12 1 ++ [0x81, 0x00, 0x00, 0x07, 0x08, 0x00] ++
    [0x45, 0, 0, 40, 0, 0, 0, 0, 64, 0x06, 0, 0, 10, 0, 0, 1, 10, 0, 0, 2] ++ List.replicate 20 3

/-- The source port of the segment. -/
theorem bound_in_frame_tcp : ∃ p, init 0 1 (some ⟨0, taggedTcp⟩) = .ok p ∧
    p.bindings .tcp_src = some (.data 38) ∧
    ∃ o, Pointer.data 38 = .data o ∧
      o + count (nbits OfbType.tcp_src) ≤ (frameOf (some ⟨0, taggedTcp⟩)).length := by
  obtain ⟨p, hp⟩ : ∃ p, init 0 1 (some ⟨0, taggedTcp⟩) = .ok p := ⟨_, rfl⟩
  have ht : p.bindings .tcp_src = some (.data 38) := by
    cases hp
    rfl
  exact ⟨p, hp, ht, bound_in_frame hp (by decide) ht⟩

end PacketParser

end Oxm
