import Mathlib.Logic.Basic

/-!
# Switch ports (`ILinkDiscovery.hh`)

A port of a switch, with the lexicographic order of `std::tie(dpid, port)`.
-/

/-- `of13::OFPP_MAX`; greater numbers are reserved. -/
def OFPP_MAX : UInt32 := 0xffffff00

@[ext]
structure SwitchAndPort where
  dpid : UInt64
  port : UInt32
  deriving DecidableEq, Repr

namespace SwitchAndPort

/-- `operator<` -/
instance : LT SwitchAndPort where
  lt a b := a.dpid < b.dpid ∨ a.dpid = b.dpid ∧ a.port < b.port

instance (a b : SwitchAndPort) : Decidable (a < b) :=
  inferInstanceAs (Decidable (a.dpid < b.dpid ∨ a.dpid = b.dpid ∧ a.port < b.port))

theorem lt_def {a b : SwitchAndPort} :
    a < b ↔ a.dpid < b.dpid ∨ a.dpid = b.dpid ∧ a.port < b.port := Iff.rfl

theorem lt_asymm {a b : SwitchAndPort} (h : a < b) : ¬ b < a := by
  rw [lt_def, UInt64.lt_iff_toNat_lt, UInt32.lt_iff_toNat_lt] at *
  rcases h with h | ⟨hd, h⟩
  · rintro (h' | ⟨hd', -⟩)
    · omega
    · rw [hd'] at h; exact Nat.lt_irrefl _ h
  · rw [hd]
    rintro (h' | ⟨-, h'⟩)
    · exact Nat.lt_irrefl _ h'
    · omega

end SwitchAndPort

/-- A link as the signals and the entries name it: its two ports. -/
abbrev PortPair := SwitchAndPort × SwitchAndPort
