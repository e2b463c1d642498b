import Runos.Controller.FlowManager

/-!
# What the flow manager makes of an answer in parts

After a part, the rules of the switch are the flows of that part and no others
(`updateSwitchRules_rules`), and the rules beyond it were deleted (`updateSwitchRules_deleted`). An
answer leaves the flows of its last part, so `reflects_iff`: the rules reflect the table, and no rule
of the table is deleted on the way, exactly when everything comes in the last part, and comes alone
or finds no rule of the table that the earlier, empty parts delete.
-/

variable {μ ι : Type}

/-- What `equalflows` compares. -/
structure FlowKey (μ ι : Type) where
  cookie : UInt64
  hardTimeout : UInt16
  idleTimeout : UInt16
  priority : UInt16
  tableId : UInt8
  flags : UInt16
  match_ : μ
  instructions : ι
  deriving DecidableEq

def FlowStats.key (flow : FlowStats μ ι) : FlowKey μ ι :=
  ⟨flow.cookie, flow.hardTimeout, flow.idleTimeout, flow.priority, flow.tableId, flow.flags,
    flow.match_, flow.instructions⟩

namespace FlowManager

theorem equalflows_iff [DecidableEq μ] [DecidableEq ι] (flow : FlowStats μ ι) (rule : Rule μ ι) :
    equalflows flow rule.flow = true ↔ flow.key = rule.flow.key := by
  simp [equalflows, FlowStats.key, and_assoc]

/-- The flows, as `equalflows` sees them. -/
def flowKeys (flows : List (FlowStats μ ι)) : List (FlowKey μ ι) := flows.map (·.key)

def ruleKeys (rules : List (Rule μ ι)) : List (FlowKey μ ι) := rules.map (·.flow.key)

/-- The flows of the rules that a `Delete` event was raised for. -/
def deletedKeys (events : List (Event μ ι)) : List (FlowKey μ ι) :=
  events.filterMap fun
    | .delete rule => some rule.flow.key
    | .add _ => none

/-- The rules are the flows of the table; the deleted ones are in excess of the table. -/
structure Reflects [DecidableEq μ] [DecidableEq ι] (before : List (Rule μ ι))
    (table : List (FlowStats μ ι)) (after : List (Rule μ ι)) (events : List (Event μ ι)) : Prop where
  rules : (ruleKeys after).Perm (flowKeys table)
  kept : ∀ k, (deletedKeys events).count k ≤
    (ruleKeys before).count k - (flowKeys table).count k

/-- Every part but the last is empty, and if there is one, no rule is one of the table. -/
def InLastPart (before : List (Rule μ ι)) (parts : List (List (FlowStats μ ι))) : Prop :=
  (∀ part ∈ parts.dropLast, part = []) ∧
    (parts.length = 1 ∨ ∀ rule ∈ before, rule.flow.key ∉ flowKeys parts.flatten)

/-! ## One part -/

theorem map_flow_newRules {κ : Type} (g : FlowStats μ ι → κ) (dpid last : UInt64)
    (flows : List (FlowStats μ ι)) :
    (newRules dpid last flows).map (fun rule => g rule.flow) = flows.map g := by
  induction flows generalizing last with
  | nil => rfl
  | cons flow flows ih => exact congrArg (g flow :: ·) (ih _)

theorem ruleKeys_newRules (dpid last : UInt64) (flows : List (FlowStats μ ι)) :
    ruleKeys (newRules dpid last flows) = flowKeys flows :=
  map_flow_newRules FlowStats.key dpid last flows

theorem deletedKeys_append (events events' : List (Event μ ι)) :
    deletedKeys (events ++ events') = deletedKeys events ++ deletedKeys events' :=
  List.filterMap_append

theorem deletedKeys_add (rules : List (Rule μ ι)) : deletedKeys (rules.map .add) = [] := by
  induction rules with
  | nil => rfl
  | cons rule rules ih => exact ih

theorem deletedKeys_delete (rules : List (Rule μ ι)) :
    deletedKeys (rules.map fun rule => .delete { rule with active := false }) = ruleKeys rules := by
  induction rules with
  | nil => rfl
  | cons rule rules ih => exact congrArg (rule.flow.key :: ·) ih

theorem flowKeys_flatten_of_empty {parts : List (List (FlowStats μ ι))} (hne : parts ≠ [])
    (h : ∀ part ∈ parts.dropLast, part = []) :
    flowKeys parts.flatten = flowKeys (parts.getLast hne) := by
  induction parts with
  | nil => exact absurd rfl hne
  | cons part parts ih =>
    cases parts with
    | nil => simp [flowKeys]
    | cons part' parts =>
      have hnil : part = [] := h part (by simp)
      subst hnil
      rw [List.flatten_cons, List.nil_append, List.getLast_cons_cons]
      exact ih (by simp) fun p hp => h p (by simp [hp])

/-- A table that is all in the last part leaves the other parts empty. -/
theorem empty_of_perm_getLast {parts : List (List (FlowStats μ ι))} (hne : parts ≠ [])
    (h : (flowKeys (parts.getLast hne)).Perm (flowKeys parts.flatten)) :
    ∀ part ∈ parts.dropLast, part = [] := by
  intro part hpart
  have hlen := h.length_eq
  have hsplit := congrArg (fun l => l.flatten.length) (List.dropLast_append_getLast hne)
  simp only [List.flatten_append, List.flatten_singleton, List.length_append] at hsplit
  simp only [flowKeys, List.length_map] at hlen
  have hflat : parts.dropLast.flatten = [] := List.eq_nil_of_length_eq_zero (by omega)
  exact List.flatten_eq_nil_iff.1 hflat part hpart

variable [DecidableEq μ] [DecidableEq ι]

/-- After a part, the rules are the flows of the part. -/
theorem updateSwitchRules_rules (s : FlowManager μ ι) (dpid : UInt64)
    (flows : List (FlowStats μ ι)) :
    (ruleKeys ((s.updateSwitchRules dpid flows).1.allSwitchesRules dpid)).Perm
      (flowKeys flows) := by
  have h := matching_perm equalflows_iff (s.allSwitchesRules dpid) flows
  simp only [updateSwitchRules, updateSwitchRulesBy, Function.update_self]
  have hnew := ruleKeys_newRules dpid s.lastEvent
    (matching (fun flow rule => equalflows flow rule.flow) (s.allSwitchesRules dpid) flows).rest
  rw [ruleKeys, List.map_append]
  rw [ruleKeys] at hnew
  rw [hnew]
  exact h

/-- The rules in excess of the part are deleted. -/
theorem updateSwitchRules_deleted (s : FlowManager μ ι) (dpid : UInt64)
    (flows : List (FlowStats μ ι)) (k : FlowKey μ ι) :
    (deletedKeys (s.updateSwitchRules dpid flows).2).count k =
      (ruleKeys (s.allSwitchesRules dpid)).count k - (flowKeys flows).count k := by
  have h := matching_counts equalflows_iff (s.allSwitchesRules dpid) flows k
  simp only [updateSwitchRules, updateSwitchRulesBy, deletedKeys_append, deletedKeys_delete,
    deletedKeys_add, List.append_nil]
  exact h.2.1

/-! ## An answer -/

/-- How many rules with a flow are deleted, when there are `n` of them at first. -/
def lost (k : FlowKey μ ι) : Nat → List (List (FlowStats μ ι)) → Nat
  | _, [] => 0
  | n, part :: parts => (n - (flowKeys part).count k) + lost k ((flowKeys part).count k) parts

section
variable {switches : UInt64 → Bool} {dpid : UInt64} {parts : List (List (FlowStats μ ι))}

theorem lost_of_empty (k : FlowKey μ ι) (parts : List (List (FlowStats μ ι)))
    (h : ∀ part ∈ parts.dropLast, part = []) :
    lost k 0 parts = 0 := by
  induction parts with
  | nil => rfl
  | cons part parts ih =>
    cases parts with
    | nil => simp [lost]
    | cons part' parts =>
      have hnil : part = [] := h part (by simp)
      subst hnil
      rw [lost, flowKeys, List.map_nil, List.count_nil,
        ih fun p hp => h p (by simp [hp])]

/-- An answer leaves the flows of its last part. -/
theorem onResponses_spec (hsw : switches dpid = true) (hne : parts ≠ [])
    (s : FlowManager μ ι) :
    ∃ s' events, onResponses switches dpid parts s = some (s', events) ∧
      (ruleKeys (s'.allSwitchesRules dpid)).Perm (flowKeys (parts.getLast hne)) ∧
      ∀ k, (deletedKeys events).count k =
        lost k ((ruleKeys (s.allSwitchesRules dpid)).count k) parts := by
  induction parts generalizing s with
  | nil => exact absurd rfl hne
  | cons part parts ih =>
    have hrules := updateSwitchRules_rules s dpid part
    have hdeleted := updateSwitchRules_deleted s dpid part
    simp only [onResponses, onResponse, hsw, if_true]
    cases parts with
    | nil =>
      refine ⟨_, _, rfl, hrules, fun k => ?_⟩
      simp [lost, hdeleted]
    | cons part' parts =>
      obtain ⟨s', events, hs', hlast, hlost⟩ :=
        ih (by simp) (s.updateSwitchRules dpid part).1
      refine ⟨s', (s.updateSwitchRules dpid part).2 ++ events, ?_, ?_, fun k => ?_⟩
      · simp [hs']
      · rw [List.getLast_cons_cons]
        exact hlast
      · rw [deletedKeys_append, List.count_append, hdeleted, hlost,
          List.perm_iff_count.1 hrules]
        rfl

/-- Two parts or more, all but the last empty: every rule is deleted. -/
theorem lost_of_inLastPart (k : FlowKey μ ι) (n : Nat) (h : ∀ part ∈ parts.dropLast, part = [])
    (hlen : 2 ≤ parts.length) : lost k n parts = n := by
  match parts, hlen with
  | part :: part' :: parts, _ =>
    have hnil : part = [] := h part (by simp)
    subst hnil
    have hrest := lost_of_empty k (part' :: parts) fun p hp => h p (by simp [hp])
    rw [lost, flowKeys, List.map_nil, List.count_nil, hrest]
    rfl

/-- **The rules reflect the table** after an answer, and no rule of the table was deleted, exactly
when the table came in one part, or in the last of several with no rule of it there before. -/
theorem reflects_iff (switches : UInt64 → Bool) (dpid : UInt64) (hsw : switches dpid = true)
    (s : FlowManager μ ι) (table : List (FlowStats μ ι))
    (parts : List (List (FlowStats μ ι))) (hparts : parts.flatten = table) (hne : parts ≠ []) :
    ∃ s' events, onResponses switches dpid parts s = some (s', events) ∧
      (Reflects (s.allSwitchesRules dpid) table (s'.allSwitchesRules dpid) events ↔
        InLastPart (s.allSwitchesRules dpid) parts) := by
  subst hparts
  obtain ⟨s', events, hs', hlast, hlost⟩ := onResponses_spec hsw hne s
  have hlen : 1 ≤ parts.length := List.length_pos_iff.2 hne
  refine ⟨s', events, hs', ?_⟩
  constructor
  · intro hr
    have hempty := empty_of_perm_getLast hne (hlast.symm.trans hr.rules)
    refine ⟨hempty, ?_⟩
    by_cases h1 : parts.length = 1
    · exact .inl h1
    · refine .inr fun rule hrule hmem => ?_
      -- the rule is deleted by the first part, which is empty
      have hkept := hr.kept rule.flow.key
      rw [hlost, lost_of_inLastPart _ _ hempty (by omega)] at hkept
      have hpos := List.count_pos_iff.2 hmem
      have hpos' : 0 < (ruleKeys (s.allSwitchesRules dpid)).count rule.flow.key :=
        List.count_pos_iff.2 (List.mem_map_of_mem hrule)
      omega
  · intro hc
    obtain ⟨hempty, hc⟩ := hc
    have hflat := flowKeys_flatten_of_empty hne hempty
    refine ⟨hflat ▸ hlast, fun k => ?_⟩
    rw [hlost]
    by_cases h1 : parts.length = 1
    · obtain ⟨part, rfl⟩ := List.length_eq_one_iff.1 h1
      simp [lost]
    · rw [lost_of_inLastPart k _ hempty (by omega)]
      have hdisjoint := hc.resolve_left h1
      by_cases hk : k ∈ ruleKeys (s.allSwitchesRules dpid)
      · obtain ⟨rule, hrule, rfl⟩ := List.mem_map.1 hk
        rw [List.count_eq_zero.2 (hdisjoint rule hrule)]
        omega
      · rw [List.count_eq_zero.2 hk]
        omega

end

/-- A flow that only its priority tells from others. -/
def plainFlow (priority : UInt16) : FlowStats Unit Unit :=
  ⟨0, 0, 0, priority, 0, 0, 0, 0, 0, 0, (), ()⟩

/-- A table of two flows in one part. -/
theorem reflects_iff_single :
    ∃ s' events, onResponses (fun _ => true) 1 [[plainFlow 1, plainFlow 2]] ⟨0, fun _ => []⟩ =
        some (s', events) ∧
      Reflects [] [plainFlow 1, plainFlow 2] (s'.allSwitchesRules 1) events := by
  obtain ⟨s', events, hs', hr⟩ := reflects_iff (fun _ => true) 1 rfl ⟨0, fun _ => []⟩
    [plainFlow 1, plainFlow 2] [[plainFlow 1, plainFlow 2]] rfl (by simp)
  exact ⟨s', events, hs', hr.2 ⟨by simp, .inl rfl⟩⟩

/-- A table of two flows in two parts: the second part deletes the rule of the first. -/
theorem not_reflects_two_parts :
    ∃ s' events, onResponses (fun _ => true) 1 [[plainFlow 1], [plainFlow 2]] ⟨0, fun _ => []⟩ =
        some (s', events) ∧
      ruleKeys (s'.allSwitchesRules 1) = [(plainFlow 2).key] ∧
      deletedKeys events = [(plainFlow 1).key] ∧
      ¬ Reflects [] [plainFlow 1, plainFlow 2] (s'.allSwitchesRules 1) events := by
  refine ⟨_, _, rfl, by decide, by decide, fun hr => ?_⟩
  exact absurd hr.rules.length_eq (by decide)

end FlowManager
