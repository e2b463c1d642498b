import Runos.Controller.Proof.Install

/-!
# What a chain of builder calls decides

Timeouts and `return_` go through a chain on their own: they neither change what the other calls do
nor depend on them (`build_eq`). So they can be left out to see whether the chain conflicts and what
kind of decision it makes, and be read off the arguments (`build_strip`). The idle timeout is never
longer than the hard one, which is what keeps `install` from encoding a hard timeout of zero seconds
as none (`install_timeouts`).
-/

namespace Controller

namespace Decision

variable {d d' : Decision} {c : Call} {calls : List Call}

/-! ## The kind -/

/-- What a call does to the kind of the decision. -/
def kindCall (data : DecisionData) (c : Call) : Option DecisionData :=
  (call { data } c).map (·.data)

def isKind : Call → Bool
  | .return_ | .idleTimeout _ | .hardTimeout _ => false
  | _ => true

/-- The chain without the calls that set a timeout or the return flag. -/
def strip (calls : List Call) : List Call := calls.filter isKind

/-- The arguments of `hard_timeout`. -/
def hardArgs (calls : List Call) : List Nat :=
  calls.filterMap fun
    | .hardTimeout seconds => some seconds.toNat
    | _ => none

/-- The arguments of `idle_timeout` and `hard_timeout`. -/
def timeoutArgs (calls : List Call) : List Nat :=
  calls.filterMap fun
    | .hardTimeout seconds | .idleTimeout seconds => some seconds.toNat
    | _ => none

/-- A decision with the timeouts and the return flag that a chain leaves. -/
def settle (d : Decision) (calls : List Call) (data : DecisionData) : Decision where
  data := data
  return_ := d.return_ || calls.contains .return_
  idleTimeout := (timeoutArgs calls).foldl min d.idleTimeout
  hardTimeout := (hardArgs calls).foldl min d.hardTimeout

/-- A call, apart from what it does to the kind. -/
theorem call_eq (hc : c ≠ .clear) (d : Decision) :
    d.call c = (kindCall d.data c).map (d.settle [c]) := by
  obtain ⟨data, ret, idle, hard⟩ := d
  cases c with
  | clear => exact absurd rfl hc
  | return_ => simp [call, kindCall, settle, withReturn, timeoutArgs, hardArgs]
  | idleTimeout seconds =>
    simp [call, kindCall, settle, withIdleTimeout, timeoutArgs, hardArgs, Nat.min_comm]
  | hardTimeout seconds =>
    simp [call, kindCall, settle, withHardTimeout, timeoutArgs, hardArgs, Nat.min_comm]
  | drop => simp [call, kindCall, settle, drop, timeoutArgs, hardArgs]
  | unicast port =>
    cases data with
    | unicast port' =>
      simp only [call, kindCall, unicast]
      split <;> simp [settle, timeoutArgs, hardArgs]
    | _ => simp [call, kindCall, settle, unicast, timeoutArgs, hardArgs]
  | multicast ports =>
    cases data with
    | multicast ports' =>
      simp only [call, kindCall, multicast]
      split <;> simp [settle, timeoutArgs, hardArgs]
    | _ => simp [call, kindCall, settle, multicast, timeoutArgs, hardArgs]
  | broadcast => cases data <;> simp [call, kindCall, settle, broadcast, timeoutArgs, hardArgs]
  | inspect bytes => cases data <;> simp [call, kindCall, settle, inspect, timeoutArgs, hardArgs]

theorem kindCall_of_not_isKind (hc : isKind c = false) (data : DecisionData) :
    kindCall data c = some data := by
  cases c with
  | return_ | idleTimeout _ | hardTimeout _ => rfl
  | _ => cases hc

theorem settle_settle (d : Decision) (c : Call) (calls : List Call) (data data' : DecisionData) :
    (d.settle [c] data).settle calls data' = d.settle (c :: calls) data' := by
  have hsplit : c :: calls = [c] ++ calls := rfl
  simp only [settle, timeoutArgs, hardArgs, hsplit, List.filterMap_append, List.foldl_append,
    List.contains_append, Bool.or_assoc]

/-- **A chain**: the kind is made by the calls alone, the rest is read off the arguments. -/
theorem build_eq (hclear : .clear ∉ calls) (d : Decision) :
    d.build calls = (calls.foldlM kindCall d.data).map (d.settle calls) := by
  induction calls generalizing d with
  | nil => simp [build, settle, timeoutArgs, hardArgs]
  | cons c calls ih =>
    rw [List.mem_cons, not_or] at hclear
    have hcall := call_eq (Ne.symm hclear.1) d
    unfold build at ih ⊢
    rw [List.foldlM_cons, List.foldlM_cons, hcall]
    cases hk : kindCall d.data c with
    | none => rfl
    | some data =>
      have hrest := ih hclear.2 (d.settle [c] data)
      have hsettle : (d.settle [c] data).settle calls = d.settle (c :: calls) :=
        funext (settle_settle d c calls data)
      rw [hsettle] at hrest
      exact hrest

theorem foldlM_strip (calls : List Call) (data : DecisionData) :
    (strip calls).foldlM kindCall data = calls.foldlM kindCall data := by
  induction calls generalizing data with
  | nil => rfl
  | cons c calls ih =>
    cases hc : isKind c with
    | true =>
      have hstrip : strip (c :: calls) = c :: strip calls := List.filter_cons_of_pos hc
      rw [hstrip, List.foldlM_cons, List.foldlM_cons]
      exact bind_congr ih
    | false =>
      have hstrip : strip (c :: calls) = strip calls := List.filter_cons_of_neg (by simp [hc])
      rw [hstrip, ih, List.foldlM_cons, kindCall_of_not_isKind hc]
      rfl

/-! ## The timeouts -/

theorem foldl_min_eq {l : List Nat} {n : Nat} (h : ∀ x ∈ l, x ≤ n) :
    l.foldl min n = l.min?.getD n := by
  rw [List.foldl_min]
  cases hm : l.min? with
  | none => exact Nat.min_self n
  | some m => exact Nat.min_eq_right (h m (List.min?_mem hm))

theorem toNat_le_durationMax (seconds : UInt32) : seconds.toNat ≤ durationMax :=
  Nat.le_sub_one_of_lt seconds.toNat_lt

theorem hardArgs_le (calls : List Call) : ∀ n ∈ hardArgs calls, n ≤ durationMax := by
  intro n hn
  obtain ⟨c, -, hc⟩ := List.mem_filterMap.1 hn
  cases c with
  | hardTimeout seconds => cases hc; exact toNat_le_durationMax seconds
  | _ => cases hc

theorem timeoutArgs_le (calls : List Call) : ∀ n ∈ timeoutArgs calls, n ≤ durationMax := by
  intro n hn
  obtain ⟨c, -, hc⟩ := List.mem_filterMap.1 hn
  cases c with
  | idleTimeout seconds | hardTimeout seconds => cases hc; exact toNat_le_durationMax seconds
  | _ => cases hc

/-- What a chain decides, given what it decides without timeouts and `return_`. -/
structure Settled (calls : List Call) (stripped d : Decision) : Prop where
  data : d.data = stripped.data
  hard : d.hardTimeout = (hardArgs calls).min?.getD durationMax
  idle : d.idleTimeout = (timeoutArgs calls).min?.getD durationMax
  return_ : d.return_ = true ↔ .return_ ∈ calls

/-- **Where timeouts are set does not matter**: a chain conflicts when it does without them, and
otherwise decides the same with the shortest of them. -/
theorem build_strip (hclear : .clear ∉ calls) :
    (build {} calls = none ↔ build {} (strip calls) = none) ∧
      ∀ d, build {} calls = some d → ∃ stripped, build {} (strip calls) = some stripped ∧
        Settled calls stripped d := by
  have hclear' : .clear ∉ strip calls := fun h => hclear (List.mem_of_mem_filter h)
  rw [build_eq hclear, build_eq hclear', foldlM_strip]
  cases calls.foldlM kindCall ({} : Decision).data with
  | none => exact ⟨Iff.rfl, fun d hd => by cases hd⟩
  | some data =>
    refine ⟨iff_of_false nofun nofun, fun d hd => ⟨_, rfl, ?_⟩⟩
    cases hd
    exact ⟨rfl, foldl_min_eq (hardArgs_le calls), foldl_min_eq (timeoutArgs_le calls),
      by simp [settle]⟩

/-- The second timeout of a chain is the shorter one. -/
theorem build_strip_unicast :
    ∃ stripped, build {} (strip [.idleTimeout 60, .unicast 3, .hardTimeout 30, .return_]) =
        some stripped ∧
      Settled [.idleTimeout 60, .unicast 3, .hardTimeout 30, .return_] stripped
        ⟨.unicast 3, true, 30, 30⟩ :=
  (build_strip (by decide)).2 _ rfl

/-! ## The rule that is installed -/

theorem idle_le_hard_call (h : d.idleTimeout ≤ d.hardTimeout) (hc : d.call c = some d') :
    d'.idleTimeout ≤ d'.hardTimeout := by
  by_cases hclear : c = .clear
  · subst hclear
    cases hc
    exact Nat.le_refl _
  · rw [call_eq hclear] at hc
    obtain ⟨data, -, rfl⟩ := Option.map_eq_some_iff.1 hc
    cases c with
    | hardTimeout seconds => exact min_le_min_right _ h
    | idleTimeout seconds => exact (Nat.min_le_left _ _).trans h
    | _ => exact h

/-- The idle timeout is never longer than the hard one. -/
theorem idle_le_hard (h : d.idleTimeout ≤ d.hardTimeout) (hb : d.build calls = some d') :
    d'.idleTimeout ≤ d'.hardTimeout := by
  induction calls generalizing d with
  | nil =>
    cases hb
    exact h
  | cons c calls ih =>
    unfold build at ih hb
    rw [List.foldlM_cons] at hb
    obtain ⟨d₁, hc, hb⟩ := Option.bind_eq_some_iff.1 hb
    exact ih (idle_le_hard_call h hc) hb

end Decision

/-- A timeout in a `FlowMod`: none only for `duration::max()`, else no longer than it was asked
for. -/
def Encodes (seconds encoded : Nat) : Prop :=
  encoded = 0 ∧ seconds = durationMax ∨ 1 ≤ encoded ∧ encoded ≤ min seconds 65535

theorem encodes_encodeTimeout {seconds : Nat} (h : 0 < seconds) :
    Encodes seconds (FlowImpl.encodeTimeout seconds) := by
  unfold FlowImpl.encodeTimeout Encodes
  split
  · exact .inl ⟨rfl, ‹_›⟩
  · exact .inr ⟨by omega, Nat.le_refl _⟩

namespace FlowImpl

variable {τ : Type} [Oxm.OxmType τ] {f : FlowImpl τ} {flood : Output}
  {ms : List (Msg τ)} {xid : Nat} {bufferId : Option Nat} {e : Entry τ}

/-- The timeouts of a rule are those of the decision. -/
theorem install_encodes (hle : f.decision.idleTimeout ≤ f.decision.hardTimeout)
    (hi : (f.install flood).2 = .ok ms) (he : .add xid bufferId e ∈ ms) :
    Encodes f.decision.idleTimeout e.idleTimeout ∧
      Encodes f.decision.hardTimeout e.hardTimeout := by
  cases hp : f.pending with
  | false =>
    rw [install_of_not_pending hp] at hi
    cases hi
    cases he
  | true =>
    obtain ⟨g, -, -, -, hd, -, -, hg⟩ := install_of_pending flood hp
    rw [hg] at hi
    cases hms : g.messages flood with
    | none =>
      rw [hms] at hi
      cases hi
    | some ms' =>
      rw [hms] at hi
      cases hi
      obtain ⟨hdisp, a, -, rfl⟩ := messages_add hms he
      -- no rule is made of a disposable decision, so both timeouts are positive
      have hidle : 0 < f.decision.idleTimeout := by
        rw [← hd]
        simpa [disposable, Decision.disposable, Nat.pos_iff_ne_zero] using hdisp
      have hidle' := encodes_encodeTimeout hidle
      have hhard' := encodes_encodeTimeout (hidle.trans_le hle)
      rw [← hd] at hidle' hhard' ⊢
      exact ⟨hidle', hhard'⟩

end FlowImpl

/-- **A rule never outlives its decision**: the idle timeout of a built decision is not longer than
the hard one, and a rule has no timeout only where the decision has none. -/
theorem install_timeouts {τ : Type} [Oxm.OxmType τ] {calls : List Decision.Call}
    {d : Decision} (hb : Decision.build {} calls = some d) :
    d.idleTimeout ≤ d.hardTimeout ∧
      ∀ (f : FlowImpl τ) (flood : Output) (ms : List (Msg τ)) (xid : Nat)
        (bufferId : Option Nat) (e : Entry τ), f.decision = d → (f.install flood).2 = .ok ms →
        .add xid bufferId e ∈ ms →
        Encodes d.idleTimeout e.idleTimeout ∧ Encodes d.hardTimeout e.hardTimeout := by
  have hle := Decision.idle_le_hard (Nat.le_refl durationMax) hb
  refine ⟨hle, fun f flood ms xid bufferId e hd hi he => ?_⟩
  subst hd
  exact FlowImpl.install_encodes hle hi he

/-- A new flow that decides for ten seconds. -/
def tenSeconds : FlowImpl Oxm.OfbType :=
  { cookie := 1, packetIn := true, decision := ⟨.unicast 1, false, 10, 10⟩ }

/-- The decision was made after another one had been dropped. -/
theorem install_timeouts_ten : ∃ ms xid bufferId e,
    (FlowImpl.install (.port 0xfffffffb 0) tenSeconds).2 = .ok ms ∧ Msg.add xid bufferId e ∈ ms ∧
      Encodes 10 e.idleTimeout ∧ Encodes 10 e.hardTimeout := by
  have hb : Decision.build {} [.hardTimeout 0, .clear, .unicast 1, .hardTimeout 10] =
    some tenSeconds.decision := rfl
  refine ⟨_, _, _, _, rfl, List.mem_singleton.2 rfl, ?_⟩
  exact (install_timeouts hb).2 tenSeconds (.port 0xfffffffb 0) _ _ _ _ rfl rfl
    (List.mem_singleton.2 rfl)

end Controller
