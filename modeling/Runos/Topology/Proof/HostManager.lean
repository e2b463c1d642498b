import Runos.Lib.Trace
import Runos.Topology.HostManager

/-!
# Addresses of switches

The host manager knows an address from the moment it is told of a port with it, and never forgets
one: when it is told that a switch is down, the ports of the switch are gone (`switchDown_eq`),
and it is not told of a port that is deleted. So the addresses it knows are those of the ports that
are up as long as every event leaves another port with each address that it takes away, and each
address that is told is that of a port that is up (`Covered`).
-/

namespace SwitchManager

open Runs

variable {s s' : State} {dp dp' : Switch} {dpid d : UInt64} {n : UInt32} {port : OfPort}
  {mac : EthAddress} {desc : List OfPort} {e : Event}

/-! ## Ports that are up -/

/-- The address of a port of a switch that is up. -/
def Switch.address (dp : Switch) (portNo : UInt32) : Option EthAddress :=
  if dp.alive then (dp.port.lookup portNo).map OfPort.hwAddr else none

def State.address (s : State) (dpid : UInt64) (portNo : UInt32) : Option EthAddress :=
  (s.switches.lookup dpid).bind (·.address portNo)

/-- The address is that of a port of a switch that is up. -/
def State.Present (s : State) (mac : EthAddress) : Prop :=
  ∃ dpid portNo, s.address dpid portNo = some mac

/-- The host manager knows the addresses of the ports that are up, and no others. -/
def State.Exact (s : State) : Prop := ∀ mac, s.hostManager.isSwitch mac = true ↔ s.Present mac

/-- It knows the addresses of all ports. -/
def State.Announced (s : State) : Prop :=
  ∀ dpid dp portNo port, s.switches.lookup dpid = some dp → dp.port.lookup portNo = some port →
    port.hwAddr ∈ s.hostManager.switchMacs

theorem isSwitch_iff : s.hostManager.isSwitch mac = true ↔ mac ∈ s.hostManager.switchMacs := by
  simp only [HostManager.isSwitch, List.any_eq_true, beq_iff_eq, exists_eq_right]

theorem address_put (s : State) (dpid : UInt64) (dp : Switch) (d : UInt64) (n : UInt32) :
    (s.put dpid dp).address d n = if d = dpid then dp.address n else s.address d n := by
  simp only [State.address, State.put, Table.lookup_insert_eq]
  split <;> rfl

theorem address_eq (hdp : s.switches.lookup dpid = some dp) (n : UInt32) :
    s.address dpid n = dp.address n := by
  rw [State.address, hdp]
  rfl

theorem State.Announced.put (h : s.Announced) (hdp : ∀ n port, dp.port.lookup n = some port →
    port.hwAddr ∈ s.hostManager.switchMacs) : (s.put dpid dp).Announced := by
  intro d dp' n port hd hport
  simp only [State.put, Table.lookup_insert_eq] at hd
  split at hd
  · cases hd
    exact hdp n port hport
  · exact h d dp' n port hd hport

theorem foldl_newPort (m : HostManager) (ports : List OfPort) :
    ports.foldl HostManager.newPort m = ⟨m.switchMacs ++ ports.map OfPort.hwAddr⟩ := by
  induction ports generalizing m with
  | nil => rw [List.foldl_nil, List.map_nil, List.append_nil]
  | cons port ports ih =>
    rw [List.foldl_cons, ih, List.map_cons]
    simp only [HostManager.newPort, List.append_assoc, List.singleton_append]

/-! ## What the events do -/

theorem existsPort_eq_false : dp.existsPort n = false ↔ dp.port.lookup n = none := by
  rw [Switch.existsPort, Option.isSome_eq_false_iff, Option.isNone_iff_eq_none]

theorem lookup_insert (dp : Switch) (port : OfPort) (n : UInt32) :
    (dp.insert port).port.lookup n = if n = port.portNo then some port else dp.port.lookup n :=
  Table.lookup_insert_eq _ _ _ _

/-- **The ports of a reply**: the first one of each number, unless the number is taken. -/
theorem portDescArrived_spec (dp : Switch) (desc : List OfPort) :
    (dp.portDescArrived desc).1.alive = dp.alive ∧
      (∀ n, (dp.portDescArrived desc).1.port.lookup n =
        (dp.port.lookup n).or (desc.find? fun p => p.portNo = n)) ∧
      ∀ port, port ∈ (dp.portDescArrived desc).2 ↔ dp.existsPort port.portNo = false ∧
        desc.find? (fun p => p.portNo = port.portNo) = some port := by
  induction desc generalizing dp with
  | nil => exact ⟨rfl, fun n => Option.or_none.symm, fun port => iff_of_false nofun nofun⟩
  | cons p desc ih =>
    unfold Switch.portDescArrived
    cases hp : dp.existsPort p.portNo with
    | true =>
      obtain ⟨halive, hlookup, hnew⟩ := ih dp
      have hskip : ∀ n, dp.port.lookup n = none → p.portNo ≠ n := fun n hn heq => by
        rw [heq, ← Bool.not_eq_false, existsPort_eq_false] at hp
        exact hp hn
      refine ⟨halive, fun n => ?_, fun port => ?_⟩
      · rw [if_pos rfl, hlookup]
        cases hn : dp.port.lookup n with
        | some _ => rfl
        | none => rw [List.find?_cons_of_neg (by simpa using hskip n hn)]
      · rw [if_pos rfl, hnew]
        refine and_congr_right fun hno => ?_
        rw [List.find?_cons_of_neg (by simpa using hskip _ (existsPort_eq_false.1 hno))]
    | false =>
      obtain ⟨halive, hlookup, hnew⟩ := ih (dp.insert p)
      rw [if_neg Bool.false_ne_true]
      refine ⟨halive, fun n => ?_, fun port => ?_⟩
      · rw [hlookup, lookup_insert]
        by_cases hn : n = p.portNo
        · subst hn
          rw [if_pos rfl, existsPort_eq_false.1 hp, List.find?_cons_of_pos (by simp)]
          rfl
        · rw [if_neg hn, List.find?_cons_of_neg (by simpa using Ne.symm hn)]
      · rw [List.mem_cons, hnew, existsPort_eq_false, existsPort_eq_false, lookup_insert]
        by_cases hn : port.portNo = p.portNo
        · rw [if_pos hn, hn, List.find?_cons_of_pos (by simp)]
          have hfree := existsPort_eq_false.1 hp
          constructor
          · rintro (rfl | ⟨h, -⟩)
            · exact ⟨hfree, rfl⟩
            · cases h
          · rintro ⟨-, h⟩
            exact .inl (Option.some.inj h).symm
        · rw [if_neg hn, List.find?_cons_of_neg (by simpa using Ne.symm hn)]
          refine or_iff_right fun heq => hn (congrArg _ heq)

variable (mac) in
/-- A switch that gets ports. -/
theorem present_grow {added : UInt32 → Option OfPort} (hdp : s.switches.lookup dpid = some dp)
    (halive : dp'.alive = dp.alive)
    (hlookup : ∀ n, dp'.port.lookup n = (dp.port.lookup n).or (added n)) :
    (s.put dpid dp').Present mac ↔ s.Present mac ∨
      (dp.alive = true ∧ ∃ n port, dp.existsPort n = false ∧ added n = some port ∧
        port.hwAddr = mac) := by
  constructor
  · rintro ⟨d, n, h⟩
    rw [address_put] at h
    split at h
    · cases ha : dp.alive with
      | false => rw [Switch.address, halive, ha] at h; cases h
      | true =>
        rw [Switch.address, halive, ha, if_pos rfl, hlookup] at h
        cases hn : dp.port.lookup n with
        | none =>
          rw [hn, Option.none_or, Option.map_eq_some_iff] at h
          obtain ⟨port, hport, hmac⟩ := h
          exact .inr ⟨rfl, n, port, existsPort_eq_false.2 hn, hport, hmac⟩
        | some port =>
          rw [hn, Option.some_or] at h
          refine .inl ⟨dpid, n, ?_⟩
          rw [address_eq hdp, Switch.address, ha, if_pos rfl, hn, h]
    · exact .inl ⟨d, n, h⟩
  · rintro (⟨d, n, h⟩ | ⟨ha, n, port, hfree, hport, rfl⟩)
    · refine ⟨d, n, ?_⟩
      rw [address_put]
      split
      · rename_i heq
        rw [heq, address_eq hdp, Switch.address] at h
        rw [Switch.address, halive, hlookup]
        split at h
        · rename_i ha
          obtain ⟨p, hp, rfl⟩ := Option.map_eq_some_iff.1 h
          rw [if_pos ha, hp]
          rfl
        · cases h
      · exact h
    · refine ⟨dpid, n, ?_⟩
      rw [address_put, if_pos rfl, Switch.address, halive, ha, if_pos rfl, hlookup,
        existsPort_eq_false.1 hfree, hport]
      rfl

/-- When the ports of `K` are gone. -/
theorem present_gone {K : UInt64 → UInt32 → Prop} [∀ d n, Decidable (K d n)]
    (h : ∀ d n, s'.address d n = if K d n then none else s.address d n) :
    s'.Present mac ↔ ∃ d n, ¬ K d n ∧ s.address d n = some mac := by
  simp only [State.Present, h, ite_eq_iff', reduceCtorEq, imp_false]
  refine exists_congr fun d => exists_congr fun n => ?_
  exact ⟨fun h => ⟨h.1, h.2 h.1⟩, fun h => ⟨h.1, fun _ => h.2⟩⟩

variable (n mac) in
/-- A port that is gone. -/
theorem present_delete (hdp : s.switches.lookup dpid = some dp) :
    (s.put dpid { dp with port := dp.port.erase n }).Present mac ↔
      ∃ d n', (d, n') ≠ (dpid, n) ∧ s.address d n' = some mac := by
  refine present_gone fun d n' => ?_
  rw [address_put]
  by_cases hd : d = dpid
  · subst hd
    rw [if_pos rfl, address_eq hdp]
    simp only [Switch.address, Table.lookup_erase_eq, Prod.mk.injEq, true_and]
    by_cases hn : n' = n
    · rw [if_pos hn, if_pos hn, Option.map_none, ite_self]
    · rw [if_neg hn, if_neg hn]
  · rw [if_neg hd, if_neg fun h => hd (Prod.mk.inj h).1]

variable (s dpid mac) in
/-- A switch that is not up. -/
theorem present_down (hdead : ∀ n, dp'.address n = none) :
    (s.put dpid dp').Present mac ↔ ∃ d n, d ≠ dpid ∧ s.address d n = some mac := by
  exact present_gone fun d n => by rw [address_put, hdead]

/-- **A switch that goes down**: the host manager finds no ports, and erases nothing. -/
theorem switchDown_eq (hdp : s.switches.lookup dpid = some dp) :
    (s.onSwitchDown dpid).dropConnection dpid = s.put dpid ⟨false, ∅⟩ := by
  have hslots : s.onSwitchDown dpid = s.put dpid dp.setDown := by
    rw [State.onSwitchDown, hdp]
    rfl
  have hlookup : (s.put dpid dp.setDown).switches.lookup dpid = some dp.setDown :=
    AList.lookup_insert _
  rw [hslots, State.dropConnection, hlookup]
  simp only [State.put, AList.insert_insert]
  rfl

/-! ## One event -/

/-- The event is one of those the host manager should keep up with. -/
def Event.Allowed : Event → Prop
  | .portStatus _ reason _ => reason ≠ .modify
  | _ => True

instance : DecidablePred Event.Allowed
  | .switchUp _ | .portDescriptions .. | .switchDown _ => inferInstanceAs (Decidable True)
  | .portStatus .. => inferInstanceAs (Decidable (_ ≠ _))

/-- The condition of the module doc. -/
def Covered (s : State) : Event → Prop
  | .switchUp _ => True
  | .portDescriptions dpid desc => ∀ dp, s.switches.lookup dpid = some dp → dp.alive = false →
    ∀ port, dp.existsPort port.portNo = false →
      desc.find? (fun p => p.portNo = port.portNo) = some port → s.Present port.hwAddr
  | .portStatus dpid .add port => s.Present port.hwAddr ∨
    ∃ dp, s.switches.lookup dpid = some dp ∧ dp.alive = true ∧ dp.existsPort port.portNo = false
  | .portStatus dpid .delete port => ∀ mac, s.address dpid port.portNo = some mac →
    ∃ d n, (d, n) ≠ (dpid, port.portNo) ∧ s.address d n = some mac
  | .portStatus _ .modify _ => True
  | .switchDown dpid => ∀ n mac, s.address dpid n = some mac →
    ∃ d n', d ≠ dpid ∧ s.address d n' = some mac

theorem State.Announced.of_present (h : s.Announced) (hp : s.Present mac) :
    mac ∈ s.hostManager.switchMacs := by
  obtain ⟨d, n, hmac⟩ := hp
  obtain ⟨dp, hdp, hmac⟩ := Option.bind_eq_some_iff.1 hmac
  unfold Switch.address at hmac
  split at hmac
  · obtain ⟨port, hport, rfl⟩ := Option.map_eq_some_iff.1 hmac
    exact h d dp n port hdp hport
  · cases hmac

/-- The host manager has been told of the addresses `told`, and has erased none. -/
structure Told (s : State) (told : List EthAddress) (s' : State) : Prop where
  macs : s'.hostManager.switchMacs = s.hostManager.switchMacs ++ told
  announced : s'.Announced

/-- The host manager is right after the event when every address that it knew or is told of is
that of a port that is up. -/
theorem Told.exact_iff {told : List EthAddress} (h : Told s told s') (hexact : s.Exact) :
    s'.Exact ↔ ∀ mac, s.Present mac ∨ mac ∈ told → s'.Present mac := by
  have hknown : ∀ mac, mac ∈ s'.hostManager.switchMacs ↔ s.Present mac ∨ mac ∈ told := fun mac => by
    rw [h.macs, List.mem_append, ← isSwitch_iff, hexact]
  constructor
  · exact fun he mac hm => (he mac).1 (isSwitch_iff.2 ((hknown mac).2 hm))
  · exact fun hall mac => isSwitch_iff.trans
      ⟨fun hm => hall mac ((hknown mac).1 hm), h.announced.of_present⟩

variable (s s') in
theorem told_nil : (∀ mac, s.Present mac ∨ mac ∈ ([] : List EthAddress) → s'.Present mac) ↔
    ∀ mac, s.Present mac → s'.Present mac := by
  simp only [List.not_mem_nil, or_false]

/-- When every address that was there or is told is that of a port that is up: no port goes. -/
theorem told_iff {ports : List OfPort} (hp : ∀ mac, s.Present mac → s'.Present mac) :
    (∀ mac, s.Present mac ∨ mac ∈ ports.map OfPort.hwAddr → s'.Present mac) ↔
      ∀ port ∈ ports, s'.Present port.hwAddr := by
  constructor
  · exact fun hall port hport => hall _ (.inr (List.mem_map_of_mem hport))
  · rintro hall mac (hmac | hmac)
    · exact hp mac hmac
    · obtain ⟨port, hport, rfl⟩ := List.mem_map.1 hmac
      exact hall port hport

/-- When every address stays, although the ports of `K` go. -/
theorem kept_iff {K : UInt64 → UInt32 → Prop}
    (hp : ∀ mac, s'.Present mac ↔ ∃ d n, ¬ K d n ∧ s.address d n = some mac) :
    (∀ mac, s.Present mac → s'.Present mac) ↔ ∀ d n mac, K d n → s.address d n = some mac →
      ∃ d' n', ¬ K d' n' ∧ s.address d' n' = some mac := by
  constructor
  · exact fun hall d n mac _ hmac => (hp mac).1 (hall mac ⟨d, n, hmac⟩)
  · rintro hcov mac ⟨d, n, hmac⟩
    refine (hp mac).2 ?_
    by_cases hk : K d n
    · exact hcov d n mac hk hmac
    · exact ⟨d, n, hk, hmac⟩

theorem onPorts_ok {f : Switch → Switch × List OfPort} (h : s.onPorts dpid f = .ok s') :
    ∃ dp, s.switches.lookup dpid = some dp ∧
      s' = { s.put dpid (f dp).1 with
        hostManager := ⟨s.hostManager.switchMacs ++ (f dp).2.map OfPort.hwAddr⟩ } := by
  unfold State.onPorts at h
  split at h
  · cases h
  · rename_i dp hdp
    rw [foldl_newPort] at h
    cases h
    exact ⟨dp, hdp, rfl⟩

/-- A switch with new ports, each of which was told of or was there. -/
theorem Told.ofPorts (h : s.Announced) (hdp : s.switches.lookup dpid = some dp)
    {ports : List OfPort} (hports : ∀ n port, dp'.port.lookup n = some port →
      dp.port.lookup n = some port ∨ port ∈ ports) :
    Told s (ports.map OfPort.hwAddr)
      { s.put dpid dp' with
        hostManager := ⟨s.hostManager.switchMacs ++ ports.map OfPort.hwAddr⟩ } := by
  refine ⟨rfl, fun d dp₁ n port hd hport => List.mem_append.2 ?_⟩
  simp only [State.put, Table.lookup_insert_eq] at hd
  split at hd
  · cases hd
    rcases hports n port hport with hold | hnew
    · exact .inl (h dpid dp n port hdp hold)
    · exact .inr (List.mem_map_of_mem hnew)
  · exact .inl (h d dp₁ n port hd hport)

theorem Told.ofPut (h : s.Announced) (hports : ∀ n port, dp.port.lookup n = some port →
    port.hwAddr ∈ s.hostManager.switchMacs) : Told s [] (s.put dpid dp) :=
  ⟨(List.append_nil _).symm, h.put hports⟩

theorem step_switchUp (h : s.Announced) (dpid : UInt64) :
    Told s [] (s.onSwitchUp dpid) ∧ ∀ mac, s.Present mac → (s.onSwitchUp dpid).Present mac := by
  unfold State.onSwitchUp
  cases hdp : s.switches.lookup dpid with
  | none =>
    refine ⟨.ofPut h fun n port hport => (by cases hport), fun mac hp => ?_⟩
    obtain ⟨d, n, hmac⟩ := hp
    refine ⟨d, n, ?_⟩
    rw [address_put, if_neg]
    · exact hmac
    · rintro rfl
      rw [State.address, hdp] at hmac
      cases hmac
  | some dp =>
    refine ⟨.ofPut h fun n port => h dpid dp n port hdp, fun mac hp => ?_⟩
    obtain ⟨d, n, hmac⟩ := hp
    refine ⟨d, n, ?_⟩
    rw [address_put]
    split
    · rename_i heq
      rw [heq, address_eq hdp, Switch.address] at hmac
      split at hmac
      · exact hmac
      · cases hmac
    · exact hmac

theorem step_portDescriptions (h : s.Announced)
    (hstep : s.onPortDescriptions dpid desc = .ok s') : ∃ told, Told s told s' ∧
      ((∀ mac, s.Present mac ∨ mac ∈ told → s'.Present mac) ↔
        Covered s (.portDescriptions dpid desc)) := by
  obtain ⟨dp, hdp, rfl⟩ := onPorts_ok hstep
  obtain ⟨halive, hlookup, hnew⟩ := portDescArrived_spec dp desc
  have hports : ∀ n port, (dp.portDescArrived desc).1.port.lookup n = some port →
      dp.port.lookup n = some port ∨ port ∈ (dp.portDescArrived desc).2 := fun n port hport => by
    rw [hlookup] at hport
    cases hn : dp.port.lookup n with
    | some p => rw [hn] at hport; exact .inl hport
    | none =>
      rw [hn, Option.none_or] at hport
      obtain rfl : port.portNo = n := by simpa using List.find?_some hport
      exact .inr ((hnew port).2 ⟨existsPort_eq_false.2 hn, hport⟩)
  refine ⟨_, .ofPorts h hdp hports, ?_⟩
  have hpresent := fun mac => present_grow mac hdp halive hlookup
  refine (told_iff fun mac hmac => (hpresent mac).2 (.inl hmac)).trans ?_
  constructor
  · intro hall dp₁ hdp₁ hdead port hfree hfind
    rw [hdp, Option.some.injEq] at hdp₁
    subst hdp₁
    refine ((hpresent _).1 (hall port ((hnew port).2 ⟨hfree, hfind⟩))).resolve_right ?_
    rintro ⟨hup, -⟩
    rw [hdead] at hup
    cases hup
  · intro hcov port hport
    obtain ⟨hfree, hfind⟩ := (hnew port).1 hport
    refine (hpresent port.hwAddr).2 ?_
    cases hup : dp.alive with
    | false => exact .inl (hcov dp hdp hup port hfree hfind)
    | true => exact .inr ⟨rfl, port.portNo, port, hfree, hfind, rfl⟩

theorem step_add (h : s.Announced) (hstep : s.onPortStatus dpid .add port = .ok s') :
    ∃ told, Told s told s' ∧ ((∀ mac, s.Present mac ∨ mac ∈ told → s'.Present mac) ↔
      Covered s (.portStatus dpid .add port)) := by
  obtain ⟨dp, hdp, rfl⟩ := onPorts_ok hstep
  have hlookup : ∀ n, (dp.portStatus .add port).1.port.lookup n =
      (dp.port.lookup n).or (if n = port.portNo then some port else none) := fun n => by
    simp only [Switch.portStatus]
    cases hex : dp.existsPort port.portNo with
    | true =>
      obtain ⟨p, hp⟩ := Option.isSome_iff_exists.1 hex
      rw [if_pos rfl]
      split
      · rename_i hn
        rw [hn, hp]
        rfl
      · rw [Option.or_none]
    | false =>
      rw [if_neg Bool.false_ne_true, lookup_insert]
      split
      · rename_i hn
        rw [hn, existsPort_eq_false.1 hex]
        rfl
      · rw [Option.or_none]
  have halive : (dp.portStatus .add port).1.alive = dp.alive := by
    simp only [Switch.portStatus]
    split <;> rfl
  have hports : ∀ n p, (dp.portStatus .add port).1.port.lookup n = some p →
      dp.port.lookup n = some p ∨ p ∈ [port] := fun n p hp => by
    rw [hlookup, Option.or_eq_some_iff] at hp
    rcases hp with hp | ⟨-, hp⟩
    · exact .inl hp
    · split at hp
      · exact .inr (List.mem_singleton.2 (Option.some.inj hp).symm)
      · cases hp
  refine ⟨_, .ofPorts h hdp hports, ?_⟩
  have hpresent := fun mac => present_grow mac hdp halive hlookup
  have hadded : (∃ n p, dp.existsPort n = false ∧
      (if n = port.portNo then some port else none) = some p ∧ p.hwAddr = port.hwAddr) ↔
        dp.existsPort port.portNo = false := by
    constructor
    · rintro ⟨n, p, hfree, hp, -⟩
      split at hp
      · rename_i hn
        exact hn ▸ hfree
      · cases hp
    · exact fun hfree => ⟨port.portNo, port, hfree, if_pos rfl, rfl⟩
  have hup : (∃ dp₁, s.switches.lookup dpid = some dp₁ ∧ dp₁.alive = true ∧
      dp₁.existsPort port.portNo = false) ↔
        dp.alive = true ∧ dp.existsPort port.portNo = false := by
    rw [hdp]
    simp only [Option.some.injEq, exists_eq_left']
  have hcovered : Covered s (.portStatus dpid .add port) ↔
      (s.put dpid (dp.portStatus .add port).1).Present port.hwAddr := by
    rw [hpresent, hadded, ← hup]
    rfl
  rw [hcovered]
  refine (told_iff fun mac hmac => (hpresent mac).2 (.inl hmac)).trans ?_
  exact List.forall_mem_singleton

theorem step_delete (h : s.Announced) (hstep : s.onPortStatus dpid .delete port = .ok s') :
    Told s [] s' ∧ ((∀ mac, s.Present mac → s'.Present mac) ↔
      Covered s (.portStatus dpid .delete port)) := by
  obtain ⟨dp, hdp, rfl⟩ := onPorts_ok hstep
  have hports : ∀ n p, (dp.portStatus .delete port).1.port.lookup n = some p →
      dp.port.lookup n = some p ∨ p ∈ ([] : List OfPort) := fun n p hp => by
    simp only [Switch.portStatus, Table.lookup_erase_eq] at hp
    split at hp
    · cases hp
    · exact .inl hp
  refine ⟨.ofPorts h hdp hports, ?_⟩
  refine (kept_iff (K := fun d n => (d, n) = (dpid, port.portNo))
    fun mac => present_delete port.portNo mac hdp).trans ?_
  constructor
  · exact fun hall mac => hall dpid port.portNo mac rfl
  · intro hcov d n mac heq hmac
    cases heq
    exact hcov mac hmac

theorem step_switchDown (h : s.Announced) (dpid : UInt64) :
    Told s [] ((s.onSwitchDown dpid).dropConnection dpid) ∧
      ((∀ mac, s.Present mac → ((s.onSwitchDown dpid).dropConnection dpid).Present mac) ↔
        Covered s (.switchDown dpid)) := by
  cases hdp : s.switches.lookup dpid with
  | none =>
    have hsame : (s.onSwitchDown dpid).dropConnection dpid = s := by
      simp only [State.onSwitchDown, State.dropConnection, hdp]
    rw [hsame]
    refine ⟨⟨(List.append_nil _).symm, h⟩, iff_of_true (fun _ hp => hp) fun n mac hmac => ?_⟩
    rw [State.address, hdp] at hmac
    cases hmac
  | some dp =>
    rw [switchDown_eq hdp]
    refine ⟨.ofPut h fun n port hport => (by cases hport), ?_⟩
    have hdead : ∀ n, (⟨false, ∅⟩ : Switch).address n = none := fun _ => rfl
    refine (kept_iff (K := fun d _ => d = dpid) fun mac => present_down s dpid mac hdead).trans ?_
    constructor
    · exact fun hall n mac => hall dpid n mac rfl
    · intro hcov d n mac heq hmac
      cases heq
      exact hcov n mac hmac

/-- **One event.** -/
theorem step_spec (h : s.Announced) (hok : e.Allowed) (hstep : s.step e = .ok s') :
    ∃ told, Told s told s' ∧
      ((∀ mac, s.Present mac ∨ mac ∈ told → s'.Present mac) ↔ Covered s e) := by
  cases e with
  | switchUp dpid =>
    cases hstep
    obtain ⟨htold, hpresent⟩ := step_switchUp h dpid
    exact ⟨[], htold, (told_nil s _).trans (iff_of_true hpresent trivial)⟩
  | portDescriptions dpid desc => exact step_portDescriptions h hstep
  | portStatus dpid reason port =>
    cases reason with
    | add => exact step_add h hstep
    | delete =>
      obtain ⟨htold, hpresent⟩ := step_delete h hstep
      exact ⟨[], htold, (told_nil s s').trans hpresent⟩
    | modify => exact absurd rfl hok
  | switchDown dpid =>
    cases hstep
    obtain ⟨htold, hpresent⟩ := step_switchDown h dpid
    exact ⟨[], htold, (told_nil s _).trans hpresent⟩

/-! ## Every run -/

theorem exact_init : State.init.Exact := fun mac => by
  refine iff_of_false (fun h => by cases h) ?_
  rintro ⟨d, n, hmac⟩
  cases hmac

theorem announced_init : State.init.Announced := fun d dp n port hdp => by cases hdp

/-- **When the host manager knows the addresses of the switches**, and no others, all along a run:
when every event leaves another port with each address that it takes away, and each address that is
told is that of a port that is up. -/
theorem addresses_exact_iff {h : List (State × Event)}
    (ht : Trace State.step (fun _ e => e.Allowed) .init h s) :
    (∀ y ∈ states h s, y.Exact) ↔ ∀ x ∈ h, Covered x.1 x.2 := by
  refine ht.states_iff (I := fun s => s.Exact ∧ s.Announced) (R := State.Exact) (G := Covered)
    ⟨exact_init, announced_init⟩ (fun s h => h.1) fun s e s' h hok hstep => ?_
  obtain ⟨told, htold, hiff⟩ := step_spec h.2 hok hstep
  have hexact : s'.Exact ↔ Covered s e := (htold.exact_iff h.1).trans hiff
  exact ⟨fun hcov => ⟨hexact.2 hcov, htold.announced⟩, fun hno he => hno (hexact.1 he)⟩

/-- A switch that comes up with a port. -/
theorem addresses_exact_iff_port : ∃ h s,
    Trace State.step (fun _ e => e.Allowed) .init h s ∧
      h.map Prod.snd = [.portDescriptions 1 [⟨1, 5⟩], .switchUp 1] ∧ ∀ y ∈ states h s, y.Exact := by
  have ht : Trace State.step (fun _ e => e.Allowed) .init
      [(State.init.put 1 .init, .portDescriptions 1 [⟨1, 5⟩]), (.init, .switchUp 1)] _ :=
    (Trace.nil.snoc trivial rfl).snoc trivial rfl
  refine ⟨_, _, ht, rfl, (addresses_exact_iff ht).2 fun x hx => ?_⟩
  rcases List.mem_cons.1 hx with rfl | hx
  · intro dp hdp hdead
    cases hdp
    cases hdead
  · rw [List.mem_singleton.1 hx]
    trivial

/-- A switch with one port, and the host manager that was told of it. -/
def onePort : State :=
  { State.init.put 1 (Switch.init.insert ⟨1, 5⟩) with hostManager := ⟨[5]⟩ }

/-- The switch goes down, and its address is still known. -/
theorem address_of_lost_switch : ∃ h s,
    Trace State.step (fun _ e => e.Allowed) .init h s ∧
      h.map Prod.snd = [.switchDown 1, .portDescriptions 1 [⟨1, 5⟩], .switchUp 1] ∧ ¬ s.Exact := by
  have hup : Trace State.step (fun _ e => e.Allowed) .init
      [(State.init.put 1 .init, .portDescriptions 1 [⟨1, 5⟩]), (.init, .switchUp 1)] onePort :=
    (Trace.nil.snoc trivial rfl).snoc trivial rfl
  have ht := hup.snoc (show Event.Allowed (.switchDown 1) from trivial) rfl
  refine ⟨_, _, ht, rfl, fun hexact => ?_⟩
  have hp : ((onePort.onSwitchDown 1).dropConnection 1).Present 5 := (hexact 5).1 rfl
  rw [switchDown_eq rfl, present_down _ _ _ fun _ => rfl] at hp
  obtain ⟨d, n, hd, hmac⟩ := hp
  have hnone : onePort.address d n = State.init.address d n :=
    (address_put _ _ _ _ _).trans (if_neg hd)
  rw [hnone] at hmac
  cases hmac

end SwitchManager
