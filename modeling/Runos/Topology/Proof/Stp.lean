import Runos.Lib.Trace
import Runos.Topology.Stp

/-!
# The ports of the spanning tree

What every handler of `STP` does to the ports, seen one port at a time (`STP.port`): a handler
returns as long as no pointer in `switch_list` is null (`Whole`), and keeps that. The exception is
`computeSpanningTree`, which follows a null pointer exactly when a switch of the tree is not in
`switch_list` (`computeSpanningTree_spec`, `computeSpanningTree_missing`).
-/

namespace Topology

open Runs

/-! ## One switch -/

namespace SwitchSTP

variable {sw : SwitchSTP} {p q : UInt32}

theorem mem_getEnabledPorts :
    p ∈ sw.getEnabledPorts ↔ ∃ port, sw.ports.lookup p = some port ∧ port.broadcast = true := by
  have hmem : ∀ port, sw.ports.lookup p = some port ↔ ⟨p, port⟩ ∈ sw.ports.entries :=
    fun _ => AList.mem_lookup_iff
  simp only [getEnabledPorts, List.mem_map, List.mem_filter, hmem]
  constructor
  · intro h
    obtain ⟨⟨p, port⟩, ⟨hm, hb⟩, rfl⟩ := h
    exact ⟨port, hm, hb⟩
  · intro h
    obtain ⟨port, hm, hb⟩ := h
    exact ⟨⟨p, port⟩, ⟨hm, hb⟩, rfl⟩

theorem lookup_addPort (sw : SwitchSTP) (p q : UInt32) :
    (sw.addPort p).ports.lookup q =
      if q = p ∧ sw.ports.lookup p = none then some .init else sw.ports.lookup q := by
  unfold addPort existsPort
  cases hp : sw.ports.lookup p with
  | some port => simp
  | none =>
    simp only [Option.isSome_none, Bool.false_eq_true, if_false, Table.lookup_insert_eq, and_true]

theorem existsPort_addPort (sw : SwitchSTP) (p : UInt32) :
    ∃ port, (sw.addPort p).ports.lookup p = some port := by
  rw [lookup_addPort]
  cases sw.ports.lookup p with
  | none => exact ⟨_, if_pos ⟨rfl, rfl⟩⟩
  | some port => exact ⟨port, by simp⟩

theorem modifyPort_spec {port : Port} (f : Port → Port) (h : sw.ports.lookup p = some port) :
    ∃ sw', sw.modifyPort p f = .ok sw' ∧
      ∀ q, sw'.ports.lookup q = if q = p then some (f port) else sw.ports.lookup q := by
  refine ⟨⟨sw.ports.insert p (f port)⟩, by rw [modifyPort, h], fun q => ?_⟩
  exact Table.lookup_insert_eq _ _ _ _

theorem lookup_resetBroadcast (sw : SwitchSTP) (q : UInt32) :
    sw.resetBroadcast.ports.lookup q = (sw.ports.lookup q).map fun port =>
      if port.toSwitch then { port with broadcast := false } else port :=
  Table.lookup_mapValues _ _ _

theorem enable_spec (ps : List UInt32) (sw : SwitchSTP) :
    ∃ sw', sw.enable ps = .ok sw' ∧ ∀ q, sw'.ports.lookup q = (sw.ports.lookup q).map fun port =>
      if q ∈ ps then { port with broadcast := true } else port := by
  induction ps generalizing sw with
  | nil => exact ⟨sw, rfl, fun q => by simp⟩
  | cons p ps ih =>
    unfold enable existsPort
    cases hp : sw.ports.lookup p with
    | none =>
      obtain ⟨sw', hsw', hq⟩ := ih sw
      refine ⟨sw', by simpa using hsw', fun q => ?_⟩
      by_cases hqp : q = p
      · rw [hq, hqp, hp]
        rfl
      · simp [hq, hqp]
    | some port =>
      obtain ⟨sw₁, hsw₁, hq₁⟩ := modifyPort_spec ({ · with broadcast := true }) hp
      obtain ⟨sw', hsw', hq⟩ := ih sw₁
      refine ⟨sw', ?_, fun q => ?_⟩
      · simp only [Option.isSome_some, if_true, setBroadcast, hsw₁]
        exact hsw'
      · rw [hq, hq₁]
        by_cases hqp : q = p
        · subst hqp
          simp [hp]
        · simp [hqp]

end SwitchSTP

/-! ## The table of switches -/

namespace STP

variable {s s' : STP} {d d' : UInt64} {x y : SwitchAndPort} {sw : SwitchSTP}

/-- No pointer is null. -/
def Whole (s : STP) : Prop := ∀ d, s.switchList.lookup d ≠ some none

/-- A port of a switch in `switch_list`. -/
def port (s : STP) (x : SwitchAndPort) : Option Port :=
  match s.switchList.lookup x.dpid with
  | some (some sw) => sw.ports.lookup x.port
  | _ => none

/-- The port is flooded. -/
def enabled (s : STP) (x : SwitchAndPort) : Bool :=
  match s.switchList.lookup x.dpid with
  | some (some sw) => sw.getEnabledPorts.contains x.port
  | _ => false

theorem enabled_iff : s.enabled x = true ↔ ∃ port, s.port x = some port ∧ port.broadcast = true := by
  unfold enabled STP.port
  split
  · rw [List.contains_iff_mem, SwitchSTP.mem_getEnabledPorts]
  · simp

theorem Whole.init : Whole .init := fun d h => by cases h

theorem Whole.exists_of_count (h : s.Whole) (hc : s.count d = true) :
    ∃ sw, s.switchList.lookup d = some (some sw) := by
  unfold count at hc
  cases hl : s.switchList.lookup d with
  | none => rw [hl] at hc; cases hc
  | some sw =>
    cases sw with
    | none => exact absurd hl (h d)
    | some sw => exact ⟨sw, rfl⟩

theorem count_of_lookup {sw : Option SwitchSTP} (h : s.switchList.lookup d = some sw) :
    s.count d = true := by
  rw [count, h]
  rfl

theorem entry_of_lookup {sw : Option SwitchSTP} (h : s.switchList.lookup d = some sw) :
    s.entry d = (s, sw) := by
  rw [entry, h]

theorem port_of_lookup (h : s.switchList.lookup x.dpid = some (some sw)) :
    s.port x = sw.ports.lookup x.port := by
  rw [STP.port, h]

theorem count_of_port {port : Port} (h : s.port x = some port) : s.count x.dpid = true := by
  unfold STP.port at h
  split at h
  · rename_i sw hl
    exact count_of_lookup hl
  · cases h

theorem lookup_put (s : STP) (d d' : UInt64) (sw : SwitchSTP) :
    (s.put d sw).switchList.lookup d' =
      if d' = d then some (some sw) else s.switchList.lookup d' :=
  Table.lookup_insert_eq _ _ _ _

theorem Whole.put (h : s.Whole) (d : UInt64) (sw : SwitchSTP) : (s.put d sw).Whole := by
  intro d'
  rw [lookup_put]
  split
  · simp
  · exact h d'

theorem count_put (s : STP) (d d' : UInt64) (sw : SwitchSTP) :
    (s.put d sw).count d' = (decide (d' = d) || s.count d') := by
  unfold count
  rw [lookup_put]
  split
  · rename_i heq
    simp [heq]
  · rename_i hne
    simp [hne]

theorem count_put_of_count (h : s.count d = true) (d' : UInt64) (sw : SwitchSTP) :
    (s.put d sw).count d' = s.count d' := by
  rw [count_put]
  by_cases hd : d' = d
  · simp [hd, h]
  · simp [hd]

theorem port_put (s : STP) (d : UInt64) (sw : SwitchSTP) (y : SwitchAndPort) :
    (s.put d sw).port y = if y.dpid = d then sw.ports.lookup y.port else s.port y := by
  unfold STP.port
  rw [lookup_put]
  by_cases hy : y.dpid = d
  · rw [if_pos hy, if_pos hy]
  · rw [if_neg hy, if_neg hy]

/-! ## Switches and ports -/

theorem port_onSwitchDiscovered (s : STP) (d : UInt64) (y : SwitchAndPort) :
    (s.onSwitchDiscovered d).port y = if y.dpid = d then none else s.port y := by
  unfold onSwitchDiscovered
  rw [port_put]
  rfl

theorem lookup_onSwitchDown (s : STP) (d d' : UInt64) :
    (s.onSwitchDown d).switchList.lookup d' =
      if d' = d then none else s.switchList.lookup d' := Table.lookup_erase_eq _ _ _

theorem port_onSwitchDown (s : STP) (d : UInt64) (y : SwitchAndPort) :
    (s.onSwitchDown d).port y = if y.dpid = d then none else s.port y := by
  unfold STP.port
  rw [lookup_onSwitchDown]
  by_cases hy : y.dpid = d
  · rw [if_pos hy, if_pos hy]
  · rw [if_neg hy, if_neg hy]

theorem Whole.onSwitchDown (h : s.Whole) (d : UInt64) : (s.onSwitchDown d).Whole := by
  intro d'
  rw [lookup_onSwitchDown]
  split
  · simp
  · exact h d'

/-- A port that comes up is flooded, if it is new. -/
theorem onPortUp_spec (h : s.Whole) (d : UInt64) (p : UInt32) :
    ∃ s', s.onPortUp d p = .ok s' ∧ s'.Whole ∧ s'.computed = s.computed ∧
      (∀ d', s'.count d' = s.count d') ∧
      ∀ y, s'.port y = s.port y ∨ s.port y = none ∧ s'.port y = some .init := by
  unfold onPortUp
  cases hc : s.count d with
  | false => exact ⟨s, rfl, h, rfl, fun _ => rfl, fun _ => .inl rfl⟩
  | true =>
    obtain ⟨sw, hsw⟩ := h.exists_of_count hc
    simp only [entry_of_lookup hsw, if_true]
    refine ⟨_, rfl, h.put _ _, rfl, fun d' => count_put_of_count hc d' _, fun y => ?_⟩
    rw [port_put]
    by_cases hy : y.dpid = d
    · subst hy
      rw [if_pos rfl, port_of_lookup hsw]
      split
      · rw [SwitchSTP.lookup_addPort]
        split
        · rename_i hnew
          exact .inr ⟨by rw [hnew.1]; exact hnew.2, rfl⟩
        · exact .inl rfl
      · exact .inl rfl
    · rw [if_neg hy]
      exact .inl rfl

/-! ## Links -/

theorem eq_iff_port (hd : y.dpid = x.dpid) : y = x ↔ y.port = x.port :=
  ⟨fun heq => by rw [heq], fun hp => SwitchAndPort.ext hd hp⟩

/-- A port that a link joins is between switches, and not flooded. -/
theorem joinPort_spec (h : s.Whole) (hx : s.count x.dpid = true) (hd : s.count d = true) :
    ∃ s', s.joinPort x d = .ok s' ∧ s'.Whole ∧ s'.computed = s.computed ∧
      (∀ d', s'.count d' = s.count d') ∧
      ∀ y, s'.port y = if y = x then some ⟨false, true⟩ else s.port y := by
  obtain ⟨sw, hsw⟩ := h.exists_of_count hx
  obtain ⟨port, hport⟩ := sw.existsPort_addPort x.port
  obtain ⟨sw₁, hsw₁, hq₁⟩ := SwitchSTP.modifyPort_spec ({ · with broadcast := false }) hport
  have hport₁ : sw₁.ports.lookup x.port = some { port with broadcast := false } := by
    rw [hq₁, if_pos rfl]
  obtain ⟨sw₂, hsw₂, hq₂⟩ := SwitchSTP.modifyPort_spec ({ · with toSwitch := true }) hport₁
  have hcount : ∀ d', (s.put x.dpid sw₂).count d' = s.count d' :=
    fun d' => count_put_of_count hx d' sw₂
  obtain ⟨other, hother⟩ := (h.put x.dpid sw₂).exists_of_count ((hcount d).trans hd)
  refine ⟨s.put x.dpid sw₂, ?_, h.put _ _, rfl, hcount, fun y => ?_⟩
  · unfold joinPort
    simp only [entry_of_lookup hsw, deref, SwitchSTP.unsetBroadcast, SwitchSTP.setToSwitch, hsw₁,
      hsw₂, bind, Except.bind, entry_of_lookup hother]
  · rw [port_put]
    by_cases hy : y.dpid = x.dpid
    · have hyx := eq_iff_port hy
      rw [if_pos hy, hq₂, hq₁, SwitchSTP.lookup_addPort]
      by_cases hp : y.port = x.port
      · rw [if_pos hp, if_pos (hyx.2 hp)]
      · rw [if_neg hp, if_neg hp, if_neg (fun hn => hp hn.1), if_neg (fun heq => hp (hyx.1 heq)),
          port_of_lookup (hy ▸ hsw)]
    · rw [if_neg hy, if_neg (fun heq => hy (by rw [heq]))]

theorem onLinkDiscovered_spec (h : s.Whole) (hx : s.count x.dpid = true)
    (hy : s.count y.dpid = true) :
    ∃ s', s.onLinkDiscovered x y = .ok s' ∧ s'.Whole ∧ s'.computed = false ∧
      (∀ d, s'.count d = s.count d) ∧
      ∀ z, s'.port z = if z = x ∨ z = y then some ⟨false, true⟩ else s.port z := by
  obtain ⟨s₁, hs₁, hw₁, -, hc₁, hp₁⟩ := joinPort_spec h hx hy
  obtain ⟨s₂, hs₂, hw₂, -, hc₂, hp₂⟩ :=
    joinPort_spec hw₁ ((hc₁ y.dpid).trans hy) ((hc₁ x.dpid).trans hx)
  refine ⟨{ s₂ with computed := false }, ?_, hw₂, rfl, fun d => (hc₂ d).trans (hc₁ d), fun z => ?_⟩
  · unfold onLinkDiscovered
    simp only [hx, hy, hs₁, hs₂, bind, Except.bind, Bool.true_eq_false, if_false]
  · show s₂.port z = _
    rw [hp₂, hp₁]
    by_cases hzy : z = y
    · simp [hzy]
    · simp [hzy]

/-- A link to a switch that is not there is passed over. -/
theorem onLinkDiscovered_of_not_count (h : s.count x.dpid = false ∨ s.count y.dpid = false) :
    s.onLinkDiscovered x y = .ok s := by
  unfold onLinkDiscovered
  rcases h with h | h
  · rw [if_pos h]
  · rw [if_pos h]
    split
    · rfl
    · rfl

/-! ## The spanning tree -/

section
variable {t : Table UInt64 (List UInt32)} {tree : List (Multigraph.Edge LinkProperty)}

/-- The port is in the table of a tree. -/
def InTree (t : Table UInt64 (List UInt32)) (y : SwitchAndPort) : Prop :=
  ∃ ps, t.lookup y.dpid = some ps ∧ y.port ∈ ps

/-- The port is an end of an edge. -/
def IsEnd (tree : List (Multigraph.Edge LinkProperty)) (y : SwitchAndPort) : Prop :=
  ∃ e ∈ tree, y = e.property.source ∨ y = e.property.target

theorem inTree_pushBack : InTree (pushBack t x) y ↔ InTree t y ∨ y = x := by
  unfold InTree pushBack
  rw [Table.lookup_insert_eq]
  by_cases hd : y.dpid = x.dpid
  · rw [if_pos hd, hd, eq_iff_port hd]
    cases t.lookup x.dpid with
    | none => simp
    | some ps => simp
  · have hyx : y ≠ x := fun heq => hd (by rw [heq])
    simp [hd, hyx]

theorem isSome_pushBack : ((pushBack t x).lookup d).isSome = true ↔
    (t.lookup d).isSome = true ∨ d = x.dpid := by
  unfold pushBack
  rw [Table.lookup_insert_eq]
  split
  · rename_i heq
    simp [heq]
  · rename_i hne
    simp [hne]

theorem inTree_spanningTree : InTree (spanningTree tree) y ↔ IsEnd tree y := by
  have hfold : ∀ t : Table UInt64 (List UInt32),
      InTree (tree.foldl (fun t e => pushBack (pushBack t e.property.source) e.property.target) t)
        y ↔ InTree t y ∨ IsEnd tree y := by
    induction tree with
    | nil => simp [IsEnd]
    | cons e tree ih =>
      intro t
      rw [List.foldl_cons, ih, inTree_pushBack, inTree_pushBack]
      simp only [IsEnd, List.mem_cons, exists_eq_or_imp, or_assoc]
  unfold spanningTree
  rw [hfold]
  simp [InTree]

theorem isSome_spanningTree : ((spanningTree tree).lookup d).isSome = true ↔
    ∃ y, IsEnd tree y ∧ y.dpid = d := by
  have hfold : ∀ t : Table UInt64 (List UInt32),
      ((tree.foldl (fun t e => pushBack (pushBack t e.property.source) e.property.target)
        t).lookup d).isSome = true ↔
        (t.lookup d).isSome = true ∨ ∃ y, IsEnd tree y ∧ y.dpid = d := by
    induction tree with
    | nil => simp [IsEnd]
    | cons e tree ih =>
      intro t
      rw [List.foldl_cons, ih, isSome_pushBack, isSome_pushBack]
      have hcons : (∃ y, IsEnd (e :: tree) y ∧ y.dpid = d) ↔
          d = e.property.source.dpid ∨ d = e.property.target.dpid ∨
            ∃ y, IsEnd tree y ∧ y.dpid = d := by
        simp only [IsEnd, List.mem_cons, or_and_right, exists_or, exists_eq_left, or_assoc,
          @eq_comm _ d]
      rw [hcons, or_assoc, or_assoc]
  unfold spanningTree
  rw [hfold]
  simp

theorem resetAll_of_whole (h : s.Whole) : resetAll s.switchList.entries = .ok () := by
  have hall : ∀ l : List (Σ _ : UInt64, Option SwitchSTP), (∀ x ∈ l, x.2 ≠ none) →
      resetAll l = .ok () := by
    intro l hl
    induction l with
    | nil => rfl
    | cons x l ih =>
      obtain ⟨d, sw⟩ := x
      have hrest := ih fun y hy => hl y (List.mem_cons_of_mem _ hy)
      cases sw with
      | none => exact absurd rfl (hl _ List.mem_cons_self)
      | some sw => exact hrest
  refine hall _ fun x hx hnone => h x.1 ?_
  rw [← hnone]
  exact AList.mem_lookup_iff.2 hx

/-- The loop over a table of the tree whose switches are all in `switch_list`. -/
theorem applyTree_spec (l : List (Σ _ : UInt64, List UInt32)) (h : s.Whole)
    (hc : ∀ x ∈ l, s.count x.1 = true) :
    ∃ s', s.applyTree l = .ok s' ∧ s'.Whole ∧ s'.computed = s.computed ∧
      (∀ d, s'.count d = s.count d) ∧
      ∀ y, s'.port y = (s.port y).map fun port =>
        if ∃ x ∈ l, x.1 = y.dpid ∧ y.port ∈ x.2 then { port with broadcast := true } else port := by
  induction l generalizing s with
  | nil => exact ⟨s, rfl, h, rfl, fun _ => rfl, fun y => by simp⟩
  | cons x l ih =>
    obtain ⟨d, ps⟩ := x
    have hd : s.count d = true := hc _ List.mem_cons_self
    obtain ⟨sw, hsw⟩ := h.exists_of_count hd
    obtain ⟨sw₁, hsw₁, hq₁⟩ := SwitchSTP.enable_spec ps sw
    have hcount : ∀ d', (s.put d sw₁).count d' = s.count d' :=
      fun d' => count_put_of_count hd d' sw₁
    obtain ⟨s', hs', hw', hcomp, hc', hp'⟩ := ih (h.put d sw₁) fun x hx =>
      (hcount x.1).trans (hc x (List.mem_cons_of_mem _ hx))
    refine ⟨s', ?_, hw', hcomp, fun d' => (hc' d').trans (hcount d'), fun y => ?_⟩
    · unfold applyTree
      simp only [entry_of_lookup hsw, deref, bind, Except.bind, hsw₁]
      exact hs'
    · rw [hp', port_put]
      by_cases hy : y.dpid = d
      · rw [if_pos hy, hq₁, port_of_lookup (hy ▸ hsw), Option.map_map]
        congr 1
        funext port
        have hcons : (∃ x ∈ (⟨d, ps⟩ :: l : List (Σ _ : UInt64, List UInt32)),
            x.1 = y.dpid ∧ y.port ∈ x.2) ↔
            y.port ∈ ps ∨ ∃ x ∈ l, x.1 = y.dpid ∧ y.port ∈ x.2 := by
          simp [hy]
        simp only [Function.comp, hcons]
        by_cases hin : y.port ∈ ps
        · rw [if_pos hin, if_pos (Or.inl hin)]
          split
          · rfl
          · rfl
        · rw [if_neg hin]
          simp only [hin, false_or]
      · have hne : d ≠ y.dpid := fun heq => hy heq.symm
        rw [if_neg hy]
        simp only [List.mem_cons, exists_eq_or_imp, hne, false_and, false_or]

/-- A switch that is not in `switch_list`: a null pointer is entered, and followed. -/
theorem applyTree_missing (l : List (Σ _ : UInt64, List UInt32)) (h : s.Whole)
    (hc : ∃ x ∈ l, s.count x.1 = false) : s.applyTree l = .error .nullPointer := by
  induction l generalizing s with
  | nil =>
    obtain ⟨x, hx, -⟩ := hc
    cases hx
  | cons x l ih =>
    obtain ⟨d, ps⟩ := x
    unfold applyTree
    cases hd : s.count d with
    | false =>
      have hl : s.switchList.lookup d = none := by simpa [count] using hd
      simp only [entry, hl, deref, bind, Except.bind]
    | true =>
      obtain ⟨sw, hsw⟩ := h.exists_of_count hd
      obtain ⟨sw₁, hsw₁, -⟩ := SwitchSTP.enable_spec ps sw
      simp only [entry_of_lookup hsw, deref, bind, Except.bind, hsw₁]
      apply ih (h.put d sw₁)
      obtain ⟨x, hx, hcx⟩ := hc
      rcases List.mem_cons.1 hx with rfl | hx
      · rw [hd] at hcx
        cases hcx
      · refine ⟨x, hx, ?_⟩
        have hne : x.1 ≠ d := by
          intro heq
          rw [heq, hd] at hcx
          cases hcx
        rw [count_put, hcx]
        simp [hne]

instance (tree : List (Multigraph.Edge LinkProperty)) (y : SwitchAndPort) :
    Decidable (IsEnd tree y) := inferInstanceAs (Decidable (∃ e ∈ tree, _ ∨ _))

/-- The switches with their ports reset. -/
def reset (s : STP) : STP :=
  { s with switchList := Table.mapValues (Option.map SwitchSTP.resetBroadcast) s.switchList }

theorem lookup_reset (s : STP) (d : UInt64) : s.reset.switchList.lookup d =
    (s.switchList.lookup d).map (Option.map SwitchSTP.resetBroadcast) :=
  Table.lookup_mapValues _ _ _

theorem Whole.reset (h : s.Whole) : s.reset.Whole := by
  intro d
  rw [lookup_reset]
  cases hl : s.switchList.lookup d with
  | none => simp
  | some sw =>
    cases sw with
    | none => exact absurd hl (h d)
    | some sw => simp

theorem count_reset (s : STP) (d : UInt64) : s.reset.count d = s.count d := by
  unfold count
  rw [lookup_reset, Option.isSome_map]

theorem port_reset (s : STP) (y : SwitchAndPort) : s.reset.port y = (s.port y).map fun port =>
    if port.toSwitch then { port with broadcast := false } else port := by
  unfold STP.port
  rw [lookup_reset]
  cases s.switchList.lookup y.dpid with
  | none => rfl
  | some sw =>
    cases sw with
    | none => rfl
    | some sw => exact SwitchSTP.lookup_resetBroadcast sw y.port

theorem computeSpanningTree_eq (h : s.Whole) (hc : s.computed = false) :
    s.computeSpanningTree tree =
      (s.reset.applyTree (spanningTree tree).entries >>= fun s => .ok ⟨s.switchList, true⟩) := by
  unfold computeSpanningTree
  rw [if_neg (by simp [hc]), resetAll_of_whole h]
  rfl

/-- The switch of an end of the tree is in its table, and no other. -/
theorem exists_entry_spanningTree : (∃ x ∈ (spanningTree tree).entries, x.1 = d) ↔
    ∃ y, IsEnd tree y ∧ y.dpid = d := by
  rw [← isSome_spanningTree, Option.isSome_iff_exists]
  constructor
  · intro hx
    obtain ⟨⟨d, ps⟩, hx, rfl⟩ := hx
    exact ⟨ps, AList.mem_lookup_iff.2 hx⟩
  · intro hx
    obtain ⟨ps, hps⟩ := hx
    exact ⟨⟨d, ps⟩, AList.mem_lookup_iff.1 hps, rfl⟩

/-- **The ports after a computation**: the ends of the tree are flooded, the other ports between
switches are not. -/
theorem computeSpanningTree_spec (tree : List (Multigraph.Edge LinkProperty)) (h : s.Whole)
    (hc : s.computed = false) (hall : ∀ y, IsEnd tree y → s.count y.dpid = true) :
    ∃ s', s.computeSpanningTree tree = .ok s' ∧ s'.Whole ∧ s'.computed = true ∧
      (∀ d, s'.count d = s.count d) ∧
      ∀ y, s'.port y = (s.port y).map fun port =>
        if IsEnd tree y then { port with broadcast := true }
        else if port.toSwitch then { port with broadcast := false } else port := by
  have hcount : ∀ x ∈ (spanningTree tree).entries, s.reset.count x.1 = true := by
    intro x hx
    obtain ⟨y, hy, hd⟩ := exists_entry_spanningTree.1 ⟨x, hx, rfl⟩
    rw [count_reset, ← hd]
    exact hall y hy
  obtain ⟨s', hs', hw', -, hc', hp'⟩ := applyTree_spec _ h.reset hcount
  refine ⟨{ s' with computed := true }, ?_, hw', rfl, fun d => ?_, fun y => ?_⟩
  · rw [computeSpanningTree_eq h hc, hs']
    rfl
  · exact (hc' d).trans (count_reset s d)
  · have hin : (∃ x ∈ (spanningTree tree).entries, x.1 = y.dpid ∧ y.port ∈ x.2) ↔
        IsEnd tree y := by
      rw [← inTree_spanningTree]
      constructor
      · intro hx
        obtain ⟨⟨d, ps⟩, hx, rfl, hp⟩ := hx
        exact ⟨ps, AList.mem_lookup_iff.2 hx, hp⟩
      · intro hx
        obtain ⟨ps, hps, hp⟩ := hx
        exact ⟨⟨y.dpid, ps⟩, AList.mem_lookup_iff.1 hps, rfl, hp⟩
    show s'.port y = _
    rw [hp', port_reset, Option.map_map]
    congr 1
    funext port
    simp only [Function.comp, hin]
    by_cases hy : IsEnd tree y
    · rw [if_pos hy, if_pos hy]
      split
      · rfl
      · rfl
    · rw [if_neg hy, if_neg hy]

/-- A switch of the tree is not in `switch_list`. -/
theorem computeSpanningTree_missing (h : s.Whole) (hc : s.computed = false)
    (hy : IsEnd tree y) (hd : s.count y.dpid = false) :
    s.computeSpanningTree tree = .error .nullPointer := by
  obtain ⟨x, hx, hxd⟩ := exists_entry_spanningTree.2 ⟨y, hy, rfl⟩
  rw [computeSpanningTree_eq h hc, applyTree_missing _ h.reset ⟨x, hx, ?_⟩]
  · rfl
  · rw [count_reset, hxd]
    exact hd

end

end STP

end Topology
