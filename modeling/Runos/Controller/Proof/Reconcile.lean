import Runos.Controller.Proof.FlowManager

/-!
# The rules after an answer

`updateSwitchRules` keeps the rules that the answer still reports, each for a reported flow of its
own, and makes new ones for the other flows (`updateSwitchRules_reconciles`). This needs no more of
`equalflows` than that it is an equivalence; the flows are counted up to it.
-/

namespace FlowManager

variable {μ ι : Type}

/-- The flows of an answer against the rules `before` it: some of these are kept as they are, the
others are dropped with a `Delete` event, and the new ones come with an `Add` event. -/
def Reconciled (equal : Setoid (FlowStats μ ι)) (dpid last : UInt64) (before : List (Rule μ ι))
    (flows : List (FlowStats μ ι)) (after : List (Rule μ ι)) (events : List (Event μ ι)) : Prop :=
  ∃ kept dropped added, after = kept ++ added ∧ kept.Sublist before ∧ dropped.Sublist before ∧
    (kept ++ dropped).Perm before ∧
    (∃ rest, rest.Sublist flows ∧ added = newRules dpid last rest) ∧
    events = dropped.map (fun rule => .delete { rule with active := false }) ++ added.map .add ∧
    (after.map fun rule => Quotient.mk equal rule.flow).Perm (flows.map (Quotient.mk equal))

theorem equalflows_equivalence [DecidableEq μ] [DecidableEq ι] :
    Equivalence fun one two : FlowStats μ ι => equalflows one two = true := by
  have hkey : ∀ one two : FlowStats μ ι, equalflows one two = true ↔ one.key = two.key :=
    fun one two => equalflows_iff one ⟨0, 0, two, true⟩
  simp only [hkey]
  exact eq_equivalence.comap FlowStats.key

/-- **An answer is reconciled without loss or duplication**, and only the rules of its switch
change. -/
theorem updateSwitchRules_reconciles {equal : FlowStats μ ι → FlowStats μ ι → Bool}
    (heq : Equivalence fun one two => equal one two = true) (s : FlowManager μ ι) (dpid : UInt64)
    (flows : List (FlowStats μ ι)) :
    Reconciled ⟨_, heq⟩ dpid s.lastEvent (s.allSwitchesRules dpid) flows
        ((s.updateSwitchRulesBy equal dpid flows).1.allSwitchesRules dpid)
        (s.updateSwitchRulesBy equal dpid flows).2 ∧
      ∀ other, other ≠ dpid → (s.updateSwitchRulesBy equal dpid flows).1.allSwitchesRules other =
        s.allSwitchesRules other := by
  classical
  refine ⟨⟨_, _, _, Function.update_self _ _ _, kept_sublist _ _ _, dropped_sublist _ _ _,
    kept_append_dropped_perm _ _ _, ⟨_, rest_sublist _ _ _, rfl⟩, rfl, ?_⟩,
    fun other hne => Function.update_of_ne hne _ _⟩
  have hkey : ∀ (flow : FlowStats μ ι) (rule : Rule μ ι), equal flow rule.flow = true ↔
      Quotient.mk ⟨_, heq⟩ flow = Quotient.mk ⟨_, heq⟩ rule.flow :=
    fun flow rule => ⟨fun h => Quotient.sound h, fun h => Quotient.exact h⟩
  have hperm := matching_perm hkey (s.allSwitchesRules dpid) flows
  simp only [updateSwitchRulesBy, Function.update_self, List.map_append, map_flow_newRules]
  exact hperm

/-- Two of three equal flows are reported again, with a new one. -/
theorem updateSwitchRules_reconciles_repeated :
    ((updateSwitchRulesBy equalflows
        ⟨3, fun _ => newRules 1 0 [plainFlow 1, plainFlow 1, plainFlow 1]⟩ 1
        [plainFlow 1, plainFlow 2, plainFlow 1]).1.allSwitchesRules 1).map (·.ruleId) = [1, 2, 4] ∧
      Reconciled ⟨_, equalflows_equivalence⟩ 1 3
        (newRules 1 0 [plainFlow 1, plainFlow 1, plainFlow 1])
        [plainFlow 1, plainFlow 2, plainFlow 1]
        ((updateSwitchRulesBy equalflows
          ⟨3, fun _ => newRules 1 0 [plainFlow 1, plainFlow 1, plainFlow 1]⟩ 1
          [plainFlow 1, plainFlow 2, plainFlow 1]).1.allSwitchesRules 1)
        (updateSwitchRulesBy equalflows
          ⟨3, fun _ => newRules 1 0 [plainFlow 1, plainFlow 1, plainFlow 1]⟩ 1
          [plainFlow 1, plainFlow 2, plainFlow 1]).2 :=
  ⟨by decide, (updateSwitchRules_reconciles equalflows_equivalence _ 1 _).1⟩

end FlowManager
