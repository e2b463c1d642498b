import Runos.Lib.Fallible
import Runos.Rest.FlowMod
import Runos.Rest.Proof.StringProcessing

/-!
# Which matches are read

The processing of a match ends in an exception exactly when a number overflows that is read
(`processMatches_ok_iff`). The numbers of the transport, of IP and of the link are always read; the
operation of ARP is when nothing before it has set the type of the frame (`readsARP_iff`).
-/

namespace RestFlowMod

open Rest Fallible

variable {α : Type} {env : Env} {p : Platform α} {matches_ : Object} {m m' : Matching α}

/-- The number written for a field of a match overflows its type. -/
def Overflows (env : Env) (matches_ : Object) (field : String × Uint) : Prop :=
  ∃ value, matches_.find field.1 = some value ∧
    jsonCast field.2 (env.noOverflow 1 field.1) value = .error overflow

def l4Fields : List (String × Uint) :=
  [("tcp_src", .uint16), ("tcp_dst", .uint16), ("udp_src", .uint16), ("udp_dst", .uint16)]

def l2Fields : List (String × Uint) :=
  [("vlan_vid", .uint16), ("vlan_pcp", .uint8), ("in_port", .uint32), ("in_phy_port", .uint32),
    ("metadata", .uint64), ("eth_type", .uint16)]

/-- The fields of a match that are always read as numbers. -/
def uintFields : List (String × Uint) := l4Fields ++ ("ip_proto", .uint8) :: l2Fields

/-- Nothing of a match is about IP, so that its fields of ARP are read. -/
def ReadsARP (p : Platform α) (matches_ : Object) : Prop :=
  (∀ field ∈ ["tcp_src", "tcp_dst", "udp_src", "udp_dst", "ip_proto"],
    matches_.find field = none) ∧
  ∀ field ∈ ["ipv4_src", "ipv4_dst"],
    (matches_.find field).bind (fun value => p.construct field value.stringValue) = none

def MatchOverflows (env : Env) (p : Platform α) (matches_ : Object) : Prop :=
  (∃ field ∈ uintFields, Overflows env matches_ field) ∨
    ReadsARP p matches_ ∧ Overflows env matches_ ("arp_op", .uint16)

/-! ## Steps -/

theorem jsonCast_error {T : Uint} {noOverflow : UInt64} {value : Json} {e : Exn}
    (h : jsonCast T noOverflow value = .error e) : e = overflow := by
  rw [jsonCast, stringCast_eq] at h
  split at h
  · cases h
  · cases h
    rfl

namespace Matching

/-- A number is read, or there is none, or it overflows. -/
theorem handleUint_cases (m : Matching α) (env : Env) (matches_ : Object) (field : String)
    (type : Uint) :
    (∃ m', m.handleUint env matches_ field type = .ok m' ∧
      ¬ Overflows env matches_ (field, type) ∧ m'.etherType = m.etherType ∧
      m'.added = (m.added || (matches_.find field).isSome)) ∨
    (m.handleUint env matches_ field type = .error overflow ∧
      Overflows env matches_ (field, type)) := by
  cases hfind : matches_.find field with
  | none =>
    have hat : (matches_.at field >>= jsonCast type (env.noOverflow 1 field)) =
        .error .outOfRange := by
      rw [Object.at, hfind]
      rfl
    refine .inl ⟨m, by rw [handleUint, hat], ?_, rfl, (Bool.or_false _).symm⟩
    intro h
    obtain ⟨value, hvalue, -⟩ := h
    rw [hfind] at hvalue
    cases hvalue
  | some value =>
    have hat : (matches_.at field >>= jsonCast type (env.noOverflow 1 field)) =
        jsonCast type (env.noOverflow 1 field) value := by
      rw [Object.at, hfind]
      rfl
    cases hcast : jsonCast type (env.noOverflow 1 field) value with
    | ok n =>
      refine .inl ⟨m.addOxmField (.uint field n), by rw [handleUint, hat, hcast], ?_, rfl,
        (Bool.or_true _).symm⟩
      intro h
      obtain ⟨value', hvalue, hover⟩ := h
      rw [hfind] at hvalue
      cases hvalue
      rw [hcast] at hover
      cases hover
    | error e =>
      obtain rfl := jsonCast_error hcast
      refine .inr ⟨?_, value, hfind, hcast⟩
      rw [handleUint, hat, hcast]
      rfl

theorem handleUints_ok {fields : List (String × Uint)}
    (h : m.handleUints env matches_ fields = .ok m') :
    (∀ field ∈ fields, ¬ Overflows env matches_ field) ∧ m'.etherType = m.etherType ∧
      m'.added = (m.added || fields.any fun field => (matches_.find field.1).isSome) := by
  induction fields generalizing m with
  | nil =>
    cases h
    exact ⟨fun _ hf => absurd hf List.not_mem_nil, rfl, (Bool.or_false _).symm⟩
  | cons field fields ih =>
    obtain ⟨m₁, h₁, h⟩ := bind_eq_ok.1 h
    obtain ⟨hover, hether, hadded⟩ := ih h
    rcases m.handleUint_cases env matches_ field.1 field.2 with
      ⟨m₂, h₂, hover₂, hether₂, hadded₂⟩ | ⟨h₂, -⟩
    · cases h₂.symm.trans h₁
      refine ⟨List.forall_mem_cons.2 ⟨hover₂, hover⟩, hether.trans hether₂, ?_⟩
      rw [hadded, hadded₂, Bool.or_assoc, List.any_cons]
    · cases h₂.symm.trans h₁

theorem exists_handleUints {fields : List (String × Uint)} (m : Matching α)
    (h : ∀ field ∈ fields, ¬ Overflows env matches_ field) :
    ∃ m', m.handleUints env matches_ fields = .ok m' := by
  induction fields generalizing m with
  | nil => exact ⟨m, rfl⟩
  | cons field fields ih =>
    rw [List.forall_mem_cons] at h
    rcases m.handleUint_cases env matches_ field.1 field.2 with
      ⟨m₁, h₁, -⟩ | ⟨-, hover⟩
    · obtain ⟨m', h'⟩ := ih m₁ h.2
      exact ⟨m', bind_eq_ok.2 ⟨m₁, h₁, h'⟩⟩
    · exact absurd hover h.1

/-- Libfluid makes something of the text of the field. -/
def constructs (p : Platform α) (matches_ : Object) (field : String) : Bool :=
  ((matches_.find field).bind fun value => p.construct field value.stringValue).isSome

theorem handleStrings_spec (m : Matching α) (p : Platform α) (matches_ : Object)
    (fields : List String) :
    (m.handleStrings p matches_ fields).etherType = m.etherType ∧
      (m.handleStrings p matches_ fields).added =
        (m.added || fields.any (constructs p matches_)) := by
  induction fields generalizing m with
  | nil => exact ⟨rfl, (Bool.or_false _).symm⟩
  | cons field fields ih =>
    obtain ⟨hether, hadded⟩ := ih (m.handleString p matches_ field)
    have hfirst : (m.handleString p matches_ field).etherType = m.etherType ∧
        (m.handleString p matches_ field).added = (m.added || constructs p matches_ field) := by
      unfold handleString constructs
      cases (matches_.find field).bind fun value => p.construct field value.stringValue with
      | none => exact ⟨rfl, (Bool.or_false _).symm⟩
      | some value => exact ⟨rfl, (Bool.or_true _).symm⟩
    refine ⟨hether.trans hfirst.1, hadded.trans ?_⟩
    rw [hfirst.2, Bool.or_assoc, List.any_cons]

theorem layer_spec (m : Matching α) (etherType : Nat) (inetType : Option Nat) :
    (m.layer etherType inetType).added = false ∧
      (m.layer etherType inetType).etherType =
        if m.added then some etherType else m.etherType := by
  unfold layer
  cases hadded : m.added with
  | true => exact ⟨rfl, rfl⟩
  | false => exact ⟨hadded, rfl⟩

/-- The type of the frame, or that nothing of IP was there so far. -/
def OnlyIP (m : Matching α) : Prop :=
  m.etherType = none ∨ m.etherType = some EthTypes.ipv4

theorem processL4_ok (h : processL4 env matches_ ⟨[], false, none⟩ = .ok m') :
    (∀ field ∈ l4Fields, ¬ Overflows env matches_ field) ∧ m'.added = false ∧ m'.OnlyIP ∧
      (m'.etherType = none ↔
        ∀ field ∈ ["tcp_src", "tcp_dst", "udp_src", "udp_dst"], matches_.find field = none) := by
  obtain ⟨m₁, h₁, h⟩ := bind_eq_ok.1 h
  obtain ⟨m₂, h₂, h⟩ := bind_eq_ok.1 h
  cases h
  obtain ⟨hover₁, hether₁, hadded₁⟩ := handleUints_ok h₁
  obtain ⟨hover₂, hether₂, hadded₂⟩ := handleUints_ok h₂
  obtain ⟨hlayer₁, hlayer₁'⟩ := m₁.layer_spec EthTypes.ipv4 (some InetTypes.tcp)
  obtain ⟨hlayer₂, hlayer₂'⟩ := m₂.layer_spec EthTypes.ipv4 (some InetTypes.udp)
  rw [hlayer₁, Bool.false_or] at hadded₂
  rw [Bool.false_or] at hadded₁
  have hether : (m₂.layer EthTypes.ipv4 (some InetTypes.udp)).etherType =
      if m₂.added then some EthTypes.ipv4 else if m₁.added then some EthTypes.ipv4 else none := by
    rw [hlayer₂', hether₂, hlayer₁', hether₁]
  refine ⟨?_, hlayer₂, ?_, ?_⟩
  · intro field hf
    rcases List.mem_append.1 (show field ∈ [_, _] ++ [_, _] from hf) with hf | hf
    · exact hover₁ field hf
    · exact hover₂ field hf
  · rw [OnlyIP, hether]
    cases m₂.added <;> cases m₁.added <;> simp
  · rw [hether, hadded₁, hadded₂]
    simp only [List.any_cons, List.any_nil, Bool.or_false, List.forall_mem_cons, List.not_mem_nil,
      false_imp_iff, implies_true, and_true]
    cases matches_.find "tcp_src" <;> cases matches_.find "tcp_dst" <;>
      cases matches_.find "udp_src" <;> cases matches_.find "udp_dst" <;> simp

theorem processIP_ok (h : m.processIP env p matches_ = .ok m') (hadded : m.added = false)
    (hip : m.OnlyIP) : ¬ Overflows env matches_ ("ip_proto", .uint8) ∧
    (m'.etherType = none ↔ m.etherType = none ∧ matches_.find "ip_proto" = none ∧
      ∀ field ∈ ["ipv4_src", "ipv4_dst"], constructs p matches_ field = false) := by
  obtain ⟨m₁, h₁, h⟩ := bind_eq_ok.1 h
  obtain ⟨hover₁, hether₁, hadded₁⟩ := handleUints_ok h₁
  refine ⟨hover₁ _ (List.mem_singleton_self _), ?_⟩
  rw [OnlyIP, ← hether₁] at hip
  rw [if_pos hip] at h
  cases h
  obtain ⟨hether₂, hadded₂⟩ := m₁.handleStrings_spec p matches_ ["ipv4_src", "ipv4_dst"]
  rw [(layer_spec _ _ _).2, hadded₂, hadded₁, hadded, hether₂, hether₁]
  simp only [List.any_cons, List.any_nil, Bool.or_false, Bool.false_or, List.forall_mem_cons,
    List.not_mem_nil, false_imp_iff, implies_true, and_true]
  cases matches_.find "ip_proto" <;> cases constructs p matches_ "ipv4_src" <;>
    cases constructs p matches_ "ipv4_dst" <;> simp

theorem processARP_ok (h : m.processARP env p matches_ = .ok m') (hether : m.etherType = none) :
    ¬ Overflows env matches_ ("arp_op", .uint16) := by
  rw [processARP, if_pos hether] at h
  obtain ⟨m₁, h₁, -⟩ := bind_eq_ok.1 h
  exact (handleUints_ok h₁).1 _ (List.mem_singleton_self _)

theorem processL2_ok (h : m.processL2 env p matches_ = .ok m') :
    ∀ field ∈ l2Fields, ¬ Overflows env matches_ field := by
  obtain ⟨m₁, h₁, h₂⟩ := bind_eq_ok.1 h
  intro field hf
  rcases List.mem_append.1 (show field ∈ [_, _, _, _, _] ++ [_] from hf) with hf | hf
  · exact (handleUints_ok h₁).1 field hf
  · exact (handleUints_ok h₂).1 field hf

theorem exists_processL4 (h : ∀ field ∈ l4Fields, ¬ Overflows env matches_ field)
    (m : Matching α) : ∃ m', processL4 env matches_ m = .ok m' := by
  rw [show l4Fields = [_, _] ++ [_, _] from rfl, List.forall_mem_append] at h
  obtain ⟨m₁, h₁⟩ := exists_handleUints m h.1
  obtain ⟨m₂, h₂⟩ := exists_handleUints (m₁.layer EthTypes.ipv4 (some InetTypes.tcp)) h.2
  exact ⟨_, bind_eq_ok.2 ⟨m₁, h₁, bind_eq_ok.2 ⟨m₂, h₂, rfl⟩⟩⟩

theorem exists_processIP (h : ¬ Overflows env matches_ ("ip_proto", .uint8)) (m : Matching α) :
    ∃ m', m.processIP env p matches_ = .ok m' := by
  obtain ⟨m₁, h₁⟩ := exists_handleUints m (List.forall_mem_singleton.2 h)
  by_cases hip : m₁.etherType = none ∨ m₁.etherType = some EthTypes.ipv4
  · exact ⟨_, bind_eq_ok.2 ⟨m₁, h₁, if_pos hip⟩⟩
  · exact ⟨_, bind_eq_ok.2 ⟨m₁, h₁, if_neg hip⟩⟩

theorem exists_processARP
    (h : m.etherType = none → ¬ Overflows env matches_ ("arp_op", .uint16)) :
    ∃ m', m.processARP env p matches_ = .ok m' := by
  by_cases hether : m.etherType = none
  · obtain ⟨m₁, h₁⟩ := exists_handleUints m (List.forall_mem_singleton.2 (h hether))
    rw [processARP, if_pos hether]
    exact ⟨_, bind_eq_ok.2 ⟨m₁, h₁, rfl⟩⟩
  · exact ⟨m, if_neg hether⟩

theorem exists_processL2 (h : ∀ field ∈ l2Fields, ¬ Overflows env matches_ field)
    (m : Matching α) : ∃ m', m.processL2 env p matches_ = .ok m' := by
  rw [show l2Fields = [_, _, _, _, _] ++ [_] from rfl, List.forall_mem_append] at h
  obtain ⟨m₁, h₁⟩ := exists_handleUints m h.1
  obtain ⟨m₂, h₂⟩ := exists_handleUints (m₁.handleStrings p matches_ ["eth_dst", "eth_src"]) h.2
  exact ⟨m₂, bind_eq_ok.2 ⟨m₁, h₁, h₂⟩⟩

end Matching

theorem constructs_eq_false {field : String} : Matching.constructs p matches_ field = false ↔
    (matches_.find field).bind (fun value => p.construct field value.stringValue) = none := by
  rw [Matching.constructs, Option.isSome_eq_false_iff, Option.isNone_iff_eq_none]

/-- The fields of ARP are read when neither the transport nor IP has set the type of the frame. -/
theorem readsARP_iff {m₁ m₂ : Matching α}
    (h₁ : Matching.processL4 env matches_ ⟨[], false, none⟩ = .ok m₁)
    (h₂ : m₁.processIP env p matches_ = .ok m₂) :
    m₂.etherType = none ↔ ReadsARP p matches_ := by
  obtain ⟨-, hadded, hip, hether₁⟩ := Matching.processL4_ok h₁
  rw [(Matching.processIP_ok h₂ hadded hip).2, hether₁, ReadsARP]
  simp only [constructs_eq_false, List.forall_mem_cons, List.not_mem_nil, false_imp_iff,
    implies_true, and_true, and_assoc]

theorem processMatches_ok_iff :
    (∃ fields, processMatches env p matches_ = .ok fields) ↔ ¬ MatchOverflows env p matches_ := by
  rw [MatchOverflows, not_or, not_and, uintFields]
  push Not
  rw [List.forall_mem_append, List.forall_mem_cons]
  refine ⟨fun h => ?_, fun h => ?_⟩
  · obtain ⟨fields, h⟩ := h
    obtain ⟨m₁, h₁, h⟩ := bind_eq_ok.1 h
    obtain ⟨m₂, h₂, h⟩ := bind_eq_ok.1 h
    obtain ⟨m₃, h₃, h⟩ := bind_eq_ok.1 h
    obtain ⟨m₄, h₄, -⟩ := bind_eq_ok.1 h
    obtain ⟨hover₁, hadded, hip, -⟩ := Matching.processL4_ok h₁
    refine ⟨⟨hover₁, (Matching.processIP_ok h₂ hadded hip).1, Matching.processL2_ok h₄⟩, ?_⟩
    intro harp
    exact Matching.processARP_ok h₃ ((readsARP_iff h₁ h₂).2 harp)
  · obtain ⟨⟨hL4, hIP, hL2⟩, hARP⟩ := h
    obtain ⟨m₁, h₁⟩ := Matching.exists_processL4 hL4 (⟨[], false, none⟩ : Matching α)
    obtain ⟨m₂, h₂⟩ := Matching.exists_processIP (p := p) hIP m₁
    obtain ⟨m₃, h₃⟩ := Matching.exists_processARP (p := p)
      fun hether => hARP ((readsARP_iff h₁ h₂).1 hether)
    obtain ⟨m₄, h₄⟩ := Matching.exists_processL2 (p := p) hL2 m₃
    exact ⟨_, bind_eq_ok.2 ⟨m₁, h₁, bind_eq_ok.2 ⟨m₂, h₂, bind_eq_ok.2 ⟨m₃, h₃,
      bind_eq_ok.2 ⟨m₄, h₄, rfl⟩⟩⟩⟩⟩

end RestFlowMod
