import Runos.Types.Proof.IPv6Text

/-!
# Conversions of an IPv6 address

What is printed for eight groups is parsed as these groups (`parseIPv6_printHextets`). But
`to_number` converts all 128 bits to 64, which terminates the program unless the upper half is zero,
and returns the lower half first (`toNumber_ofNumber`), and everything else is built on it. So only
the address `::` comes back from its conversions (`roundTrips_iff`).
-/

namespace IPv6Addr

open Separated Numeral

variable {hi lo : UInt64}

/-- A number as `count` groups of `w` bits, the most significant one first. -/
def networkOrder (w count n : Nat) : List Nat :=
  (List.range count).map fun i => n / 2 ^ (w * (count - 1 - i)) % 2 ^ w

/-- The address of two halves comes back from each of its conversions. -/
structure RoundTrips (hi lo : UInt64) : Prop where
  toNumber : (ofNumber (hi, lo)).toNumber = .ok (hi, lo)
  toHextets : ∃ hextets, (ofNumber (hi, lo)).toHextets = .ok hextets ∧
    hextets.map UInt16.toNat = networkOrder 16 8 (number (hi, lo))
  toOctets : ∃ octets, (ofNumber (hi, lo)).toOctets = .ok octets ∧
    octets.map UInt8.toNat = networkOrder 8 16 (number (hi, lo))
  print : ∃ text, (ofNumber (hi, lo)).print = .ok text ∧ ofText text = .ok (ofNumber (hi, lo))

/-! ## Texts -/

/-- The group that is printed for a number. -/
def Group.ofUInt16 (h : UInt16) : Group where
  digits := Nat.toDigits 16 h.toNat
  length := ⟨Nat.length_toDigits_pos,
    (Nat.length_toDigits_le_iff (by decide) (by decide)).2 h.toNat_lt⟩
  hex := isHexDigit_of_mem_toDigits (by decide) (by decide) h.toNat

/-- **What is printed is parsed as the groups printed.** -/
theorem parseIPv6_printHextets {data : List UInt16} (h : data.length = 8) :
    ∃ num, parseIPv6 (printHextets data) = .ok num ∧
      number num = ofHextets (data.map UInt16.toNat) := by
  obtain ⟨num, hnum, heq⟩ := parseIPv6_full (data.map Group.ofUInt16) (by rwa [List.length_map])
  refine ⟨num, ?_, ?_⟩
  · rw [← hnum, joined, List.map_map]
    rfl
  · rw [heq, List.map_map]
    refine congrArg ofHextets (List.map_congr_left fun d _ => ?_)
    exact value_toDigits (by decide) (by decide) d.toNat

theorem number_injective {num num' : UInt64 × UInt64} (h : number num = number num') :
    num = num' := by
  have h₁ := num.2.toNat_lt
  have h₂ := num'.2.toNat_lt
  unfold number at h
  refine Prod.ext (UInt64.toNat_inj.1 ?_) (UInt64.toNat_inj.1 ?_)
  · omega
  · omega

/-! ## Numbers -/

theorem toNat_ofNumber (num : UInt64 × UInt64) : (ofNumber num).data.toNat = number num := by
  have h₁ := num.1.toNat_lt
  have h₂ := num.2.toNat_lt
  have hshift : (num.1.toBitVec.setWidth 128 <<< 64).toNat = 2 ^ 64 * num.1.toNat := by
    rw [BitVec.toNat_shiftLeft, BitVec.toNat_setWidth, Nat.shiftLeft_eq, UInt64.toNat_toBitVec]
    omega
  have hlow : (num.2.toBitVec.setWidth 128).toNat = num.2.toNat := by
    rw [BitVec.toNat_setWidth, UInt64.toNat_toBitVec]
    omega
  show (num.1.toBitVec.setWidth 128 <<< 64 ||| num.2.toBitVec.setWidth 128).toNat = _
  rw [BitVec.toNat_or, hshift, hlow, ← Nat.two_pow_add_eq_or_of_lt h₂]
  rfl

/-- `to_number`: the lower half, if the upper one is zero. -/
theorem toNumber_ofNumber : (ofNumber (hi, lo)).toNumber =
    if hi = 0 then .ok (lo, 0) else .error .terminate := by
  have hlo := lo.toNat_lt
  have hdata : (ofNumber (hi, lo)).data.toNat = 2 ^ 64 * hi.toNat + lo.toNat :=
    toNat_ofNumber (hi, lo)
  unfold toNumber toUllong
  rw [BitVec.toNat_ushiftRight, hdata, Nat.shiftRight_eq_div_pow]
  by_cases hzero : hi = 0
  · subst hzero
    have hsmall : 2 ^ 64 * (0 : UInt64).toNat + lo.toNat = lo.toNat := by
      rw [UInt64.toNat_zero, Nat.mul_zero, Nat.zero_add]
    rw [hsmall, Nat.div_eq_of_lt hlo, if_pos hlo, UInt64.ofNat_toNat]
    rfl
  · have hpos : 0 < hi.toNat := Nat.pos_of_ne_zero fun h => hzero (UInt64.toNat_inj.1 h)
    have hlarge : ¬ 2 ^ 64 * hi.toNat + lo.toNat < 2 ^ 64 := by omega
    rw [if_neg hlarge, if_neg hzero]
    rfl

/-- The address with all bits zero. -/
theorem roundTrips_zero : RoundTrips 0 0 where
  toNumber := toNumber_ofNumber
  toHextets := ⟨List.replicate 8 0, by decide, by decide⟩
  toOctets := ⟨List.replicate 16 0, by decide, by decide⟩
  print := by
    have hprint : (ofNumber (0, 0)).print = .ok (printHextets (List.replicate 8 0)) := by
      have hextets : (ofNumber (0, 0)).toHextets = .ok (List.replicate 8 0) := by decide
      rw [IPv6Addr.print, hextets]
      rfl
    obtain ⟨num, hnum, heq⟩ := parseIPv6_printHextets
      (show (List.replicate 8 (0 : UInt16)).length = 8 from rfl)
    have hzero : num = (0, 0) := number_injective heq
    refine ⟨_, hprint, ?_⟩
    rw [ofText, hnum, hzero]
    rfl

/-- **Which addresses come back**: the one with all bits zero. -/
theorem roundTrips_iff (hi lo : UInt64) : RoundTrips hi lo ↔ hi = 0 ∧ lo = 0 := by
  constructor
  · intro h
    have hnum := h.toNumber
    rw [toNumber_ofNumber] at hnum
    split at hnum
    · rename_i hzero
      -- the halves are swapped
      cases hnum
      exact ⟨hzero, hzero⟩
    · cases hnum
  · rintro ⟨rfl, rfl⟩
    exact roundTrips_zero

/-- `::1` -/
theorem loopback_differs : ¬ ∀ hi lo : UInt64, RoundTrips hi lo := by
  intro h
  have hnum := (h 0 1).toNumber
  rw [toNumber_ofNumber] at hnum
  exact absurd hnum (by decide)

end IPv6Addr
