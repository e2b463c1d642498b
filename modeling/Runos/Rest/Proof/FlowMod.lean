import Runos.Rest.Proof.Matches

/-!
# What a flow entry over REST means

A request is sent exactly when it is accepted: its switch is there, an added entry has a table in
range, no number of its match overflows, and its actions have types (`sent_iff`). The attributes of
what is sent are the written numbers in the widths of OpenFlow (`attribute_of_sent`). So a
request means what it says when it is refused, or when each written number fits
(`meansWhatItSays_iff`); nothing but the table of an added entry is checked to fit.
-/

namespace RestFlowMod

open Rest Fallible

variable {α : Type} {env : Env} {p : Platform α} {req : Object} {n : Nat} {command : Command}
  {fm : FlowMod α}

/-! ## Attributes of a request -/

/-- The numeric attributes. -/
inductive Attribute
  | cookie | cookieMask | tableId | idleTimeout | hardTimeout | priority | bufferId | flags
  | outPort | outGroup
  deriving DecidableEq, Repr

namespace Attribute

/-- The member of the request. -/
def field : Attribute → String
  | cookie => "cookie"
  | cookieMask => "cookie_mask"
  | tableId => "table_id"
  | idleTimeout => "idle_timeout"
  | hardTimeout => "hard_timeout"
  | priority => "priority"
  | bufferId => "buffer_id"
  | flags => "flags"
  | outPort => "out_port"
  | outGroup => "out_group"

/-- The type in OpenFlow 1.3. -/
def type : Attribute → Uint
  | cookie | cookieMask => .uint64
  | tableId => .uint8
  | idleTimeout | hardTimeout | priority | flags => .uint16
  | bufferId | outPort | outGroup => .uint32

end Attribute

def FlowMod.attribute (fm : FlowMod α) : Attribute → Nat
  | .cookie => fm.cookie.toNat
  | .cookieMask => fm.cookieMask.toNat
  | .tableId => fm.tableId.toNat
  | .idleTimeout => fm.idleTimeout.toNat
  | .hardTimeout => fm.hardTimeout.toNat
  | .priority => fm.priority.toNat
  | .bufferId => fm.bufferId.toNat
  | .flags => fm.flags.toNat
  | .outPort => fm.outPort.toNat
  | .outGroup => fm.outGroup.toNat

/-- The parameters of a request. -/
def Command.params : Command → List String
  | .add => ["flowentry"]
  | .delete => ["flowentry", "delete"]
  | .deleteStrict => ["flowentry", "delete_strict"]

/-- The value of an attribute that is not written. An entry to add has its table written, and
nothing says which port and group it has. -/
def Command.default : Command → Attribute → Option Nat
  | .add, .tableId | .add, .outPort | .add, .outGroup => none
  | .add, .idleTimeout | .add, .hardTimeout => some 10
  | _, .bufferId | _, .outPort | _, .outGroup => some 0xffffffff
  | _, _ => some 0

/-- The number is written for the attribute. -/
def Written (req : Object) (a : Attribute) (n : Nat) : Prop :=
  ∃ text, req.find a.field = some (.string text) ∧ decimal text = some n

/-- What is written for the attributes are decimal numerals of 64 bits. -/
def Numeric (req : Object) : Prop :=
  ∀ (a : Attribute) value, req.find a.field = some value →
    ∃ text n, value = .string text ∧ decimal text = some n ∧ n < 2 ^ 64

/-! ## What is promised, and when it holds -/

/-- The texts of the errors, or how they start. -/
def errorTexts : List (List Char) :=
  [incorrect, "Can't parse input request : ".toList, "Some error on request handling".toList,
    "Unsupported parameter".toList]

def Outcome.IsError (o : Outcome α) : Prop :=
  ∃ text, o.reply = some text ∧ ∃ start ∈ errorTexts, start <+: text

structure MeansWhatItSays (req : Object) (command : Command) (o : Outcome α) : Prop where
  /-- What is sent has the written number, or the default. -/
  means : ∀ dpid fm, o.sent = some (dpid, fm) → ∀ a, (∀ n, Written req a n → fm.attribute a = n) ∧
    (req.find a.field = none → ∀ n, command.default a = some n → fm.attribute a = n)
  /-- A number that does not fit is refused. -/
  refuses : (∃ a n, Written req a n ∧ 2 ^ a.type.bits ≤ n) → o.sent = none ∧ o.IsError

/-- The switch of the request is found the `k`-th time. -/
def HasSwitch (env : Env) (req : Object) (k : Nat) : Prop :=
  ∃ value dpid, req.find "dpid" = some value ∧
    jsonCast .uint64 (env.noOverflow k "dpid") value = .ok dpid ∧ env.getSwitch k dpid = true

/-- The request is valid, and no number of its match overflows. -/
structure Valid (env : Env) (p : Platform α) (command : Command) (req : Object) : Prop where
  switch : HasSwitch env req 0
  full : command = .add →
    (∃ n, Written req .tableId n ∧ n < env.handlerTable.toNat) ∧
      (req.find "match").isSome = true ∧ (req.find "actions").isSome = true
  matches_ : ∀ value, req.find "match" = some value → ¬ MatchOverflows env p value.objectItems

/-- Whatever the attributes are, the request is sent. -/
structure Accepted (env : Env) (p : Platform α) (command : Command) (req : Object) : Prop
    extends Valid env p command req where
  typed : ∀ value, req.find "actions" = some value →
    ∀ action ∈ value.arrayItems, (action.objectItems.find "type").isSome = true
  found : HasSwitch env req 1

/-- Each written number fits, and an entry to add has no other port or group than it gets anyway. -/
structure Fits (p : Platform α) (command : Command) (req : Object) : Prop where
  widths : ∀ a n, Written req a n → n < 2 ^ a.type.bits
  unset : command = .add → ∀ a, a = .outPort ∨ a = .outGroup → ∀ n, Written req a n →
    n = p.initial.attribute a

/-! ## Casts -/

theorem at_eq_ok {field : String} {value : Json} :
    req.at field = .ok value ↔ req.find field = some value := by
  unfold Object.at
  cases req.find field <;> simp

/-- A decimal numeral of 64 bits is cast to a type when it fits. -/
theorem jsonCast_decimal {text : List Char} {T : Uint} {k : Nat} {noOverflow : UInt64}
    (h : decimal text = some n) (hn : n < 2 ^ 64) :
    jsonCast T noOverflow (.string text) = .ok k ↔ n = k ∧ n < 2 ^ T.bits := by
  show stringCast T noOverflow text = .ok k ↔ _
  rw [stringCast_of_numeral (numeral_of_decimal h) fun _ => hn]
  split
  · rename_i hlt
    rw [Except.ok.injEq, and_iff_left hlt]
  · rename_i hle
    exact iff_of_false (fun he => by cases he) fun hk => hle hk.2

/-- The number of an attribute, or the alternative. -/
def valueOf (req : Object) (a : Attribute) (alternative : Nat) : Nat :=
  match req.find a.field with
  | some value => (decimal value.stringValue).getD alternative
  | none => alternative

theorem valueOf_of_written {a : Attribute} {alternative : Nat} (h : Written req a n) :
    valueOf req a alternative = n := by
  obtain ⟨text, hfind, hn⟩ := h
  rw [valueOf, hfind]
  show (decimal text).getD alternative = n
  rw [hn, Option.getD_some]

theorem valueOf_of_absent {a : Attribute} {alternative : Nat} (h : req.find a.field = none) :
    valueOf req a alternative = alternative := by
  rw [valueOf, h]

theorem chooseValue_eq (hnum : Numeric req) (a : Attribute) (alternative : Nat) :
    chooseValue env req a.field alternative = .ok (valueOf req a alternative) := by
  unfold chooseValue valueOf
  cases hfind : req.find a.field with
  | none => rfl
  | some value =>
    obtain ⟨text, n, rfl, hn, hlt⟩ := hnum a value hfind
    show jsonCast .uint64 _ (.string text) = .ok ((decimal text).getD alternative)
    rw [jsonCast_decimal hn hlt, hn, Option.getD_some]
    exact ⟨rfl, hlt⟩

/-! ## Attributes of the FlowMod -/

/-- What an attribute of a FlowMod is set to. -/
def setTo (fm : FlowMod α) (command : Command) (req : Object) (a : Attribute) : Nat :=
  if command = .add ∧ (a = .outPort ∨ a = .outGroup) then fm.attribute a
  else valueOf req a ((command.default a).getD 0) % 2 ^ a.type.bits

theorem processInfoAdd_spec (env : Env) (hnum : Numeric req) (ht : Written req .tableId n)
    (hn : n < 2 ^ 8) (fm : FlowMod α) : ∃ fm', processInfoAdd env fm req = .ok fm' ∧
      ∀ a, fm'.attribute a = setTo fm .add req a := by
  have hvalue : valueOf req .tableId 0 = n := valueOf_of_written ht
  obtain ⟨text, hfind, hdec⟩ := ht
  have hcast : jsonCast .uint8 (env.noOverflow 1 "table_id") (.string text) = .ok n :=
    (jsonCast_decimal hdec (by omega)).2 ⟨rfl, hn⟩
  refine ⟨_, bind_eq_ok.2 ⟨_, at_eq_ok.2 hfind, bind_eq_ok.2 ⟨n, hcast,
    bind_eq_ok.2 ⟨_, chooseValue_eq hnum .cookie 0,
    bind_eq_ok.2 ⟨_, chooseValue_eq hnum .cookieMask 0,
    bind_eq_ok.2 ⟨_, chooseValue_eq hnum .idleTimeout 10,
    bind_eq_ok.2 ⟨_, chooseValue_eq hnum .hardTimeout 10,
    bind_eq_ok.2 ⟨_, chooseValue_eq hnum .priority 0,
    bind_eq_ok.2 ⟨_, chooseValue_eq hnum .bufferId 0xffffffff,
    bind_eq_ok.2 ⟨_, chooseValue_eq hnum .flags 0, rfl⟩⟩⟩⟩⟩⟩⟩⟩⟩, ?_⟩
  intro a
  cases a with
  | tableId =>
    show n % 2 ^ 8 = valueOf req .tableId 0 % 2 ^ 8
    rw [hvalue]
  | _ => rfl

theorem processInfoDelete_spec (env : Env) (hnum : Numeric req) (hcommand : command ≠ .add)
    (fm : FlowMod α) : ∃ fm', processInfoDelete env fm req = .ok fm' ∧
      ∀ a, fm'.attribute a = setTo fm command req a := by
  refine ⟨_, bind_eq_ok.2 ⟨_, chooseValue_eq hnum .cookie 0,
    bind_eq_ok.2 ⟨_, chooseValue_eq hnum .cookieMask 0,
    bind_eq_ok.2 ⟨_, chooseValue_eq hnum .tableId 0,
    bind_eq_ok.2 ⟨_, chooseValue_eq hnum .idleTimeout 0,
    bind_eq_ok.2 ⟨_, chooseValue_eq hnum .hardTimeout 0,
    bind_eq_ok.2 ⟨_, chooseValue_eq hnum .priority 0,
    bind_eq_ok.2 ⟨_, chooseValue_eq hnum .bufferId ofpNoBuffer,
    bind_eq_ok.2 ⟨_, chooseValue_eq hnum .outPort ofppAny,
    bind_eq_ok.2 ⟨_, chooseValue_eq hnum .outGroup ofpgAny,
    bind_eq_ok.2 ⟨_, chooseValue_eq hnum .flags 0, rfl⟩⟩⟩⟩⟩⟩⟩⟩⟩⟩, ?_⟩
  intro a
  cases command with
  | add => exact absurd rfl hcommand
  | delete => cases a <;> rfl
  | deleteStrict => cases a <;> rfl

/-! ## Actions -/

/-- Only an action without a type stops the processing. -/
theorem processAction_cases (env : Env) (p : Platform α) (i : Nat) (action : Object) :
    ((action.find "type").isSome = true ∧
      ∃ act, (processAction env p i action).2 = .ok act) ∨
    ((action.find "type").isSome = false ∧
      (processAction env p i action).2 = .error .outOfRange) := by
  unfold processAction
  cases hfind : action.find "type" with
  | some type =>
    have hat : action.at "type" = .ok type := at_eq_ok.2 hfind
    refine .inl ⟨rfl, ?_⟩
    cases readAction env p i action with
    | ok act => exact ⟨act, rfl⟩
    | error e =>
      rw [hat]
      exact ⟨none, rfl⟩
  | none =>
    have hat : action.at "type" = .error .outOfRange := by
      rw [Object.at, hfind]
    have hread : readAction env p i action = .error .outOfRange := by
      rw [readAction, hat]
      rfl
    refine .inr ⟨rfl, ?_⟩
    rw [hread, hat]

theorem processActions_cons (env : Env) (p : Platform α) (i : Nat) (action : Json)
    (actions : List Json) : (processActions env p i (action :: actions)).2 =
      (processAction env p i action.objectItems).2 >>= fun act =>
        (processActions env p (i + 1) actions).2.map (act.toList ++ ·) := by
  rw [processActions]
  split
  · rename_i heq
    rw [heq]
    rfl
  · rename_i heq
    rw [heq]
    rfl

theorem processActions_spec (env : Env) (p : Platform α) (i : Nat) (actions : List Json) :
    ((∀ action ∈ actions, (action.objectItems.find "type").isSome = true) ∧
      ∃ acts, (processActions env p i actions).2 = .ok acts) ∨
    ((¬ ∀ action ∈ actions, (action.objectItems.find "type").isSome = true) ∧
      (processActions env p i actions).2 = .error .outOfRange) := by
  induction actions generalizing i with
  | nil => exact .inl ⟨fun _ h => absurd h List.not_mem_nil, [], rfl⟩
  | cons action actions ih =>
    rw [List.forall_mem_cons, processActions_cons]
    rcases processAction_cases env p i action.objectItems with
      ⟨htype, act, hact⟩ | ⟨htype, hact⟩
    · rw [hact]
      rcases ih (i + 1) with ⟨hall, acts, hacts⟩ | ⟨hall, hacts⟩
      · refine .inl ⟨⟨htype, hall⟩, act.toList ++ acts, ?_⟩
        show (processActions env p (i + 1) actions).2.map (act.toList ++ ·) = _
        rw [hacts]
        rfl
      · refine .inr ⟨fun h => hall h.2, ?_⟩
        show (processActions env p (i + 1) actions).2.map (act.toList ++ ·) = _
        rw [hacts]
        rfl
    · rw [hact, htype]
      exact .inr ⟨fun h => Bool.false_ne_true h.1, rfl⟩

/-! ## Validation -/

theorem checkMode_full_iff (hnum : Numeric req) : checkMode env req true = .ok () ↔
    (∃ n, Written req .tableId n ∧ n < env.handlerTable.toNat) ∧
      (req.find "match").isSome = true ∧ (req.find "actions").isSome = true := by
  simp only [checkMode, if_true, bind_eq_ok, at_eq_ok]
  refine ⟨fun h => ?_, fun h => ?_⟩
  · obtain ⟨value, hfind, k, hcast, h⟩ := h
    split at h
    · cases h
    · rename_i hlt
      simp only [bind_eq_ok, at_eq_ok] at h
      obtain ⟨m, hm, acts, hacts, -⟩ := h
      obtain ⟨text, n, rfl, hdec, hn⟩ := hnum .tableId value hfind
      obtain ⟨rfl, -⟩ := (jsonCast_decimal hdec hn).1 hcast
      exact ⟨⟨n, ⟨text, hfind, hdec⟩, Nat.lt_of_not_le hlt⟩, by rw [hm]; rfl, by rw [hacts]; rfl⟩
  · obtain ⟨⟨n, ⟨text, hfind, hdec⟩, hlt⟩, hm, hacts⟩ := h
    obtain ⟨m, hm⟩ := Option.isSome_iff_exists.1 hm
    obtain ⟨acts, hacts⟩ := Option.isSome_iff_exists.1 hacts
    have hbyte : env.handlerTable.toNat < 2 ^ 8 := env.handlerTable.toNat_lt
    refine ⟨.string text, hfind, n, (jsonCast_decimal hdec (by omega)).2 ⟨rfl, hlt.trans hbyte⟩, ?_⟩
    rw [if_neg (Nat.not_le.2 hlt)]
    exact bind_eq_ok.2 ⟨m, at_eq_ok.2 hm, bind_eq_ok.2 ⟨acts, at_eq_ok.2 hacts, rfl⟩⟩

theorem checkRequest_iff {full : Bool} : checkRequest env req full = .ok () ↔
    HasSwitch env req 0 ∧ checkMode env req full = .ok () := by
  simp only [checkRequest, bind_eq_ok, at_eq_ok, HasSwitch]
  refine ⟨fun h => ?_, fun h => ?_⟩
  · obtain ⟨value, hfind, dpid, hcast, u, hmode, h⟩ := h
    split at h
    · rename_i hswitch
      exact ⟨⟨value, dpid, hfind, hcast, hswitch⟩, hmode⟩
    · cases h
  · obtain ⟨⟨value, dpid, hfind, hcast, hswitch⟩, hmode⟩ := h
    exact ⟨value, hfind, dpid, hcast, (), hmode, if_pos hswitch⟩

theorem validateRequest_iff {full : Bool} : validateRequest env req full = .ok () ↔
    checkRequest env req full = .ok () := by
  unfold validateRequest
  cases h : checkRequest env req full with
  | ok => exact ⟨fun _ => rfl, fun _ => rfl⟩
  | error e =>
    refine iff_of_false ?_ fun he => by cases he
    cases e <;> exact fun he => by cases he

theorem findSwitch_iff : (∃ dpid, findSwitch env req = .ok dpid) ↔ HasSwitch env req 1 := by
  simp only [findSwitch, bind_eq_ok, at_eq_ok, HasSwitch]
  refine ⟨fun h => ?_, fun h => ?_⟩
  · obtain ⟨dpid, value, hfind, dpid', hcast, h⟩ := h
    split at h
    · rename_i hswitch
      exact ⟨value, dpid', hfind, hcast, hswitch⟩
    · cases h
  · obtain ⟨value, dpid, hfind, hcast, hswitch⟩ := h
    exact ⟨dpid, value, hfind, dpid, hcast, if_pos hswitch⟩

/-! ## What is sent -/

def prepare (env : Env) (p : Platform α) (req : Object) : Command → Except Exn (Prepared α)
  | .add => prepareAdd env p req
  | .delete => prepareDelete env p false req
  | .deleteStrict => prepareDelete env p true req

theorem setTo_command (fm : FlowMod α) (c command : Command) (req : Object) (a : Attribute) :
    setTo { fm with command := c } command req a = setTo fm command req a := by
  have hattr : ({ fm with command := c } : FlowMod α).attribute a = fm.attribute a := by
    cases a <;> rfl
  rw [setTo, setTo, hattr]

theorem attribute_oxmFields (fm : FlowMod α) (fields : List (Oxm α)) (a : Attribute) :
    ({ fm with oxmFields := fields } : FlowMod α).attribute a = fm.attribute a := by
  cases a <;> rfl

theorem attribute_instruction (fm : FlowMod α) (instruction : Option (List (Action α)))
    (a : Attribute) :
    ({ fm with instruction := instruction } : FlowMod α).attribute a = fm.attribute a := by
  cases a <;> rfl

theorem prepareAdd_ok (hnum : Numeric req) {actions : Option (List Json)}
    (h : prepareAdd env p req = .ok (fm, actions)) : Valid env p .add req ∧
      actions = (req.find "actions").map Json.arrayItems ∧
      ∀ a, fm.attribute a = setTo p.initial .add req a := by
  simp only [prepareAdd, bind_eq_ok, at_eq_ok] at h
  obtain ⟨u, hvalid, m, hm, acts, hacts, fm₁, hinfo, fields, hfields, h⟩ := h
  cases h
  obtain ⟨hswitch, hmode⟩ := checkRequest_iff.1 (validateRequest_iff.1 hvalid)
  have hfull := (checkMode_full_iff hnum).1 hmode
  obtain ⟨n, ht, hlt⟩ := hfull.1
  have hbyte : env.handlerTable.toNat < 2 ^ 8 := env.handlerTable.toNat_lt
  obtain ⟨fm₂, hinfo₂, hattr⟩ := processInfoAdd_spec env hnum ht (hlt.trans hbyte)
    { p.initial with command := .add }
  cases hinfo.symm.trans hinfo₂
  refine ⟨⟨hswitch, fun _ => hfull, ?_⟩, ?_, ?_⟩
  · intro value hvalue
    cases hm.symm.trans hvalue
    exact processMatches_ok_iff.1 ⟨fields, hfields⟩
  · rw [hacts]
    rfl
  · intro a
    rw [attribute_oxmFields, hattr, setTo_command]

theorem prepareDelete_ok (hnum : Numeric req) (hcommand : command ≠ .add) {strict : Bool}
    {actions : Option (List Json)} (h : prepareDelete env p strict req = .ok (fm, actions)) :
    Valid env p command req ∧ actions = (req.find "actions").map Json.arrayItems ∧
      ∀ a, fm.attribute a = setTo p.initial command req a := by
  simp only [prepareDelete, bind_eq_ok] at h
  obtain ⟨u, hvalid, fm₁, hinfo, fields, hfields, h⟩ := h
  cases h
  obtain ⟨hswitch, -⟩ := checkRequest_iff.1 (validateRequest_iff.1 hvalid)
  obtain ⟨fm₂, hinfo₂, hattr⟩ := processInfoDelete_spec env hnum hcommand
    { p.initial with command := if strict then .deleteStrict else .delete }
  cases hinfo.symm.trans hinfo₂
  refine ⟨⟨hswitch, fun hadd => absurd hadd hcommand, ?_⟩, rfl, ?_⟩
  · intro value hvalue
    rw [processOptionalMatches, hvalue] at hfields
    exact processMatches_ok_iff.1 ⟨fields, hfields⟩
  · intro a
    rw [attribute_oxmFields, hattr, setTo_command]

theorem prepare_ok (hnum : Numeric req) {actions : Option (List Json)}
    (h : prepare env p req command = .ok (fm, actions)) : Valid env p command req ∧
      actions = (req.find "actions").map Json.arrayItems ∧
      ∀ a, fm.attribute a = setTo p.initial command req a := by
  cases command with
  | add => exact prepareAdd_ok hnum h
  | delete => exact prepareDelete_ok hnum (by decide) h
  | deleteStrict => exact prepareDelete_ok hnum (by decide) h

theorem exists_prepareDelete (hnum : Numeric req) (hcommand : command ≠ .add)
    (h : Valid env p command req) (strict : Bool) :
    ∃ prepared, prepareDelete env p strict req = .ok prepared := by
  have hvalid : validateRequest env req false = .ok () :=
    validateRequest_iff.2 (checkRequest_iff.2 ⟨h.switch, rfl⟩)
  obtain ⟨fm, hinfo, -⟩ := processInfoDelete_spec env hnum hcommand
    { p.initial with command := if strict then .deleteStrict else .delete }
  have hmatches : ∃ fields, processOptionalMatches env p req = .ok fields := by
    unfold processOptionalMatches
    cases hm : req.find "match" with
    | none => exact ⟨[], rfl⟩
    | some value => exact processMatches_ok_iff.2 (h.matches_ value hm)
  obtain ⟨fields, hfields⟩ := hmatches
  simp only [prepareDelete, bind_eq_ok]
  exact ⟨_, (), hvalid, fm, hinfo, fields, hfields, rfl⟩

theorem exists_prepare (hnum : Numeric req) (h : Valid env p command req) :
    ∃ prepared, prepare env p req command = .ok prepared := by
  cases command with
  | add =>
    have hfull := h.full rfl
    have hvalid : validateRequest env req true = .ok () :=
      validateRequest_iff.2 (checkRequest_iff.2 ⟨h.switch, (checkMode_full_iff hnum).2 hfull⟩)
    obtain ⟨⟨n, ht, hlt⟩, hm, hacts⟩ := hfull
    obtain ⟨m, hm⟩ := Option.isSome_iff_exists.1 hm
    obtain ⟨acts, hacts⟩ := Option.isSome_iff_exists.1 hacts
    have hbyte : env.handlerTable.toNat < 2 ^ 8 := env.handlerTable.toNat_lt
    obtain ⟨fm, hinfo, -⟩ := processInfoAdd_spec env hnum ht (hlt.trans hbyte)
      { p.initial with command := .add }
    obtain ⟨fields, hfields⟩ := processMatches_ok_iff.2 (h.matches_ m hm)
    show ∃ prepared, prepareAdd env p req = .ok prepared
    simp only [prepareAdd, bind_eq_ok, at_eq_ok]
    exact ⟨_, (), hvalid, m, hm, acts, hacts, fm, hinfo, fields, hfields, rfl⟩
  | delete => exact exists_prepareDelete hnum (by decide) h false
  | deleteStrict => exact exists_prepareDelete hnum (by decide) h true

theorem complete_ok {actions : Option (List Json)} {sent : Nat × FlowMod α}
    (h : (complete env p req (.ok (fm, actions))).2 = .ok sent) :
    (∀ acts, actions = some acts →
      ∀ action ∈ acts, (action.objectItems.find "type").isSome = true) ∧
    HasSwitch env req 1 ∧ ∀ a, sent.2.attribute a = fm.attribute a := by
  cases actions with
  | none =>
    obtain ⟨dpid, hdpid, h⟩ := bind_eq_ok.1 h
    cases h
    exact ⟨fun acts hacts => (by cases hacts), findSwitch_iff.1 ⟨dpid, hdpid⟩, fun _ => rfl⟩
  | some actions =>
    obtain ⟨instruction, hinst, h⟩ := bind_eq_ok.1 h
    obtain ⟨dpid, hdpid, h⟩ := bind_eq_ok.1 h
    cases h
    refine ⟨?_, findSwitch_iff.1 ⟨dpid, hdpid⟩, attribute_instruction fm (some instruction)⟩
    intro acts hacts
    cases hacts
    rcases processActions_spec env p 2 actions with ⟨htyped, -⟩ | ⟨-, herror⟩
    · exact htyped
    · cases herror.symm.trans hinst

theorem exists_complete {actions : Option (List Json)}
    (htyped : ∀ acts, actions = some acts →
      ∀ action ∈ acts, (action.objectItems.find "type").isSome = true)
    (hswitch : HasSwitch env req 1) :
    ∃ sent, (complete env p req (.ok (fm, actions))).2 = .ok sent := by
  obtain ⟨dpid, hdpid⟩ := findSwitch_iff.2 hswitch
  cases actions with
  | none => exact ⟨_, bind_eq_ok.2 ⟨dpid, hdpid, rfl⟩⟩
  | some actions =>
    rcases processActions_spec env p 2 actions with ⟨-, acts, hacts⟩ | ⟨hnot, -⟩
    · exact ⟨_, bind_eq_ok.2 ⟨acts, hacts, bind_eq_ok.2 ⟨dpid, hdpid, rfl⟩⟩⟩
    · exact absurd (htyped actions rfl) hnot

/-! ## What is thrown -/

/-- A text that is thrown says that the request is incorrect. -/
def Reported (e : Exn) : Prop := ∀ text, e = .string text → incorrect <+: text

theorem throws_at (req : Object) (field : String) : Throws (req.at field) Reported := by
  unfold Object.at
  cases req.find field with
  | some value => exact .ok value
  | none => exact .error fun text h => by cases h

theorem throws_jsonCast (T : Uint) (noOverflow : UInt64) (value : Json) :
    Throws (jsonCast T noOverflow value) Reported := by
  intro e h
  rw [jsonCast_error h]
  intro text h
  cases h

theorem throws_chooseValue (env : Env) (req : Object) (field : String) (alternative : Nat) :
    Throws (chooseValue env req field alternative) Reported := by
  unfold chooseValue
  cases req.find field with
  | some value => exact throws_jsonCast _ _ value
  | none => exact .ok alternative

theorem throws_checkRequest (env : Env) (req : Object) (full : Bool) :
    Throws (checkRequest env req full) Reported := by
  have htext : ∀ text, incorrect <+: text → Reported (.string text) := by
    intro text hprefix text' h
    cases h
    exact hprefix
  refine (throws_at req _).bind fun value => (throws_jsonCast _ _ value).bind fun dpid => .bind ?_
    fun _ => ?_
  · unfold checkMode
    split
    · refine (throws_at req _).bind fun value => (throws_jsonCast _ _ value).bind fun tableId => ?_
      split
      · exact .error (htext _ ((List.prefix_append _ _).trans (List.prefix_append _ _)))
      · exact (throws_at req _).bind fun _ => (throws_at req _).bind fun _ => .pure ()
    · exact .ok ()
  · split
    · exact .pure ()
    · exact .error (htext _ (List.prefix_append _ _))

theorem throws_validateRequest (env : Env) (req : Object) (full : Bool) :
    Throws (validateRequest env req full) Reported := by
  unfold validateRequest
  cases h : checkRequest env req full with
  | ok => exact .ok ()
  | error e =>
    have he := throws_checkRequest env req full e h
    cases e with
    | string text => exact .error he
    | overflowError what => exact .error fun text h => by cases h
    | _ =>
      refine .error fun text h => ?_
      cases h
      exact List.prefix_refl _

theorem throws_processInfoAdd (env : Env) (fm : FlowMod α) (req : Object) :
    Throws (processInfoAdd env fm req) Reported := by
  have hch := throws_chooseValue env req
  exact (throws_at req _).bind fun value => (throws_jsonCast _ _ value).bind fun _ =>
    (hch _ _).bind fun _ => (hch _ _).bind fun _ => (hch _ _).bind fun _ => (hch _ _).bind fun _ =>
    (hch _ _).bind fun _ => (hch _ _).bind fun _ => (hch _ _).bind fun _ => .pure _

theorem throws_processInfoDelete (env : Env) (fm : FlowMod α) (req : Object) :
    Throws (processInfoDelete env fm req) Reported := by
  have hch := throws_chooseValue env req
  exact (hch _ _).bind fun _ => (hch _ _).bind fun _ => (hch _ _).bind fun _ =>
    (hch _ _).bind fun _ => (hch _ _).bind fun _ => (hch _ _).bind fun _ => (hch _ _).bind fun _ =>
    (hch _ _).bind fun _ => (hch _ _).bind fun _ => (hch _ _).bind fun _ => .pure _

theorem throws_handleUints (env : Env) (matches_ : Object) (m : Matching α)
    (fields : List (String × Uint)) : Throws (m.handleUints env matches_ fields) Reported := by
  refine Throws.foldlM (fun m field e h => ?_) fields m
  rcases m.handleUint_cases env matches_ field.1 field.2 with ⟨m', h', -⟩ | ⟨h', -⟩
  · cases h'.symm.trans h
  · cases h'.symm.trans h
    intro text h
    cases h

theorem throws_processMatches (env : Env) (p : Platform α) (matches_ : Object) :
    Throws (processMatches env p matches_) Reported := by
  have huint : ∀ (m : Matching α) fields, Throws (m.handleUints env matches_ fields) Reported :=
    throws_handleUints env matches_
  refine .bind ?_ fun m₁ => .bind ?_ fun m₂ => .bind ?_ fun m₃ => .bind ?_ fun m₄ => .pure _
  · exact (huint _ _).bind fun _ => (huint _ _).bind fun _ => .pure _
  · refine (huint _ _).bind fun m => ?_
    split
    · exact .pure _
    · exact .pure _
  · unfold Matching.processARP
    split
    · exact (huint _ _).bind fun _ => .pure _
    · exact .pure _
  · exact (huint _ _).bind fun _ => huint _ _

theorem throws_prepare (env : Env) (p : Platform α) (req : Object) (command : Command) :
    Throws (prepare env p req command) Reported := by
  have hdelete : ∀ strict, Throws (prepareDelete env p strict req) Reported := by
    intro strict
    refine (throws_validateRequest env req false).bind fun _ =>
      (throws_processInfoDelete env _ req).bind fun _ => .bind ?_ fun _ => .pure _
    unfold processOptionalMatches
    split
    · exact throws_processMatches env p _
    · exact .ok []
  cases command with
  | add =>
    exact (throws_validateRequest env req true).bind fun _ => (throws_at req _).bind fun _ =>
      (throws_at req _).bind fun _ => (throws_processInfoAdd env _ req).bind fun _ =>
      (throws_processMatches env p _).bind fun _ => .pure _
  | delete => exact hdelete false
  | deleteStrict => exact hdelete true

theorem throws_findSwitch (env : Env) (req : Object) : Throws (findSwitch env req) Reported := by
  refine (throws_at req _).bind fun value => (throws_jsonCast _ _ value).bind fun dpid => ?_
  split
  · exact .pure _
  · exact .error fun text h => by cases h

theorem throws_complete (env : Env) (p : Platform α) (req : Object) (command : Command) :
    Throws (complete env p req (prepare env p req command)).2 Reported := by
  cases h : prepare env p req command with
  | error e => exact .error (throws_prepare env p req command e h)
  | ok prepared =>
    obtain ⟨fm, actions⟩ := prepared
    cases actions with
    | none => exact (throws_findSwitch env req).bind fun _ => .pure _
    | some actions =>
      refine .bind ?_ fun _ => (throws_findSwitch env req).bind fun _ => .pure _
      rcases processActions_spec env p 2 actions with ⟨-, acts, hacts⟩ | ⟨-, hacts⟩
      · rw [hacts]
        exact .ok acts
      · rw [hacts]
        exact .error fun text h => by cases h

/-! ## Requests -/

def Command.reply : Command → List Char
  | .add => "new flow added".toList
  | _ => "have sent flow_mod with DELETE command".toList

theorem handlePOST_eq {response body : List Char} (h : parse env body = .ok req) :
    handlePOST env p response command.params body =
      finish response command.reply (complete env p req (prepare env p req command)) := by
  have hfirst : command.params[0]? = some "flowentry" := by cases command <;> rfl
  rw [handlePOST, if_neg (not_not.2 hfirst), h]
  cases command with
  | add => exact if_pos rfl
  | delete =>
    have hne : ¬ Command.delete.params[1]? = some "delete_strict" := by simp [Command.params]
    refine (if_neg (show ¬ Command.delete.params.length = 1 by decide)).trans ?_
    rw [if_pos (.inr rfl), decide_eq_false hne]
    rfl
  | deleteStrict =>
    have heq : Command.deleteStrict.params[1]? = some "delete_strict" := rfl
    refine (if_neg (show ¬ Command.deleteStrict.params.length = 1 by decide)).trans ?_
    rw [if_pos (.inl heq), decide_eq_true heq]
    rfl

theorem finish_sent {response msg : List Char} {r : List Char × Except Exn (Nat × FlowMod α)}
    {sent : Nat × FlowMod α} : (finish response msg r).sent = some sent ↔ r.2 = .ok sent := by
  obtain ⟨notes, r⟩ := r
  cases r with
  | ok s =>
    show some s = some sent ↔ Except.ok s = .ok sent
    rw [Option.some.injEq, Except.ok.injEq]
  | error e => exact iff_of_false (fun h => by cases h) fun h => by cases h

theorem cStr_of_incorrect {text : List Char} (h : incorrect <+: text) : incorrect <+: cStr text := by
  obtain ⟨rest, rfl⟩ := h
  have hchars : ∀ c ∈ incorrect, decide (c ≠ Char.ofNat 0) = true := List.all_eq_true.1 rfl
  rw [cStr, List.takeWhile_append_of_pos hchars]
  exact List.prefix_append _ _

/-- What is not sent is answered by an error. -/
theorem finish_isError {response msg : List Char} {r : List Char × Except Exn (Nat × FlowMod α)}
    (hr : Throws r.2 Reported) (h : (finish response msg r).sent = none) :
    (finish response msg r).IsError := by
  obtain ⟨notes, r⟩ := r
  cases r with
  | ok s => cases h
  | error e =>
    have he := hr e rfl
    refine ⟨Exn.reply e, rfl, ?_⟩
    cases e with
    | string text => exact ⟨incorrect, by simp [errorTexts], cStr_of_incorrect (he text rfl)⟩
    | _ =>
      exact ⟨"Some error on request handling".toList, by simp [errorTexts], List.prefix_refl _⟩

/-- **What is sent was accepted, and has the attributes of the request in their widths.** -/
theorem of_complete (hnum : Numeric req) {sent : Nat × FlowMod α}
    (h : (complete env p req (prepare env p req command)).2 = .ok sent) :
    Accepted env p command req ∧
      ∀ a, sent.2.attribute a = setTo p.initial command req a := by
  cases hprep : prepare env p req command with
  | error e =>
    rw [hprep] at h
    cases h
  | ok prepared =>
    rw [hprep] at h
    obtain ⟨hvalid, hactions, hattr⟩ := prepare_ok hnum hprep
    obtain ⟨htyped, hswitch, hsame⟩ := complete_ok h
    refine ⟨⟨hvalid, ?_, hswitch⟩, fun a => (hsame a).trans (hattr a)⟩
    intro value hvalue
    refine htyped value.arrayItems ?_
    rw [hactions, hvalue]
    rfl

/-- **When a request is sent.** -/
theorem sent_iff {response body : List Char} (hparse : parse env body = .ok req)
    (hnum : Numeric req) :
    (∃ sent, (handlePOST env p response command.params body).sent = some sent) ↔
      Accepted env p command req := by
  simp only [handlePOST_eq hparse, finish_sent]
  refine ⟨fun h => ?_, fun h => ?_⟩
  · obtain ⟨sent, h⟩ := h
    exact (of_complete hnum h).1
  · obtain ⟨prepared, hprep⟩ := exists_prepare hnum h.toValid
    rw [hprep]
    refine exists_complete ?_ h.found
    intro acts hacts
    rw [(prepare_ok hnum hprep).2.1] at hacts
    obtain ⟨value, hvalue, rfl⟩ := Option.map_eq_some_iff.1 hacts
    exact h.typed value hvalue

theorem attribute_of_sent {response body : List Char} {dpid : Nat}
    (hparse : parse env body = .ok req) (hnum : Numeric req)
    (h : (handlePOST env p response command.params body).sent = some (dpid, fm)) (a : Attribute) :
    fm.attribute a = setTo p.initial command req a := by
  rw [handlePOST_eq hparse, finish_sent] at h
  exact (of_complete hnum h).2 a

theorem isError_of_not_sent {response body : List Char} (hparse : parse env body = .ok req)
    (h : (handlePOST env p response command.params body).sent = none) :
    (handlePOST env p response command.params body).IsError := by
  rw [handlePOST_eq hparse] at h ⊢
  exact finish_isError (throws_complete env p req command) h

theorem setTo_of_written {a : Attribute} (hn : Written req a n) (hfits : n < 2 ^ a.type.bits)
    (hset : ¬ (command = .add ∧ (a = .outPort ∨ a = .outGroup))) : setTo fm command req a = n := by
  rw [setTo, if_neg hset, valueOf_of_written hn, Nat.mod_eq_of_lt hfits]

theorem setTo_of_absent {a : Attribute} (habsent : req.find a.field = none)
    (hdefault : command.default a = some n) : setTo fm command req a = n := by
  have hset : ¬ (command = .add ∧ (a = .outPort ∨ a = .outGroup)) := by
    intro h
    obtain ⟨rfl, rfl | rfl⟩ := h <;> cases hdefault
  have hfits : n < 2 ^ a.type.bits := by
    cases command <;> cases a <;> cases hdefault <;> decide
  rw [setTo, if_neg hset, valueOf_of_absent habsent, hdefault, Option.getD_some,
    Nat.mod_eq_of_lt hfits]

/-- A request that is sent means what it says when its numbers fit. -/
theorem meansWhatItSays_of_accepted {response body : List Char}
    (hparse : parse env body = .ok req) (hnum : Numeric req) (h : Accepted env p command req) :
    MeansWhatItSays req command (handlePOST env p response command.params body) ↔
      Fits p command req := by
  have hsome : ∃ sent, (handlePOST env p response command.params body).sent = some sent :=
    (sent_iff hparse hnum).2 h
  obtain ⟨⟨dpid, fm⟩, hsent⟩ := hsome
  refine ⟨fun hmeans => ?_, fun hfits => ?_⟩
  · refine ⟨fun a n hn => ?_, fun hadd a ha n hn => ?_⟩
    · by_contra hle
      -- a number that does not fit is not refused
      have hrefused := (hmeans.refuses ⟨a, n, hn, Nat.le_of_not_lt hle⟩).1
      rw [hsent] at hrefused
      cases hrefused
    · have hattr := attribute_of_sent hparse hnum hsent a
      rw [setTo, if_pos ⟨hadd, ha⟩] at hattr
      rw [← hattr]
      exact ((hmeans.means dpid fm hsent a).1 n hn).symm
  · refine ⟨fun dpid' fm' hsent' a => ⟨fun n hn => ?_, fun habsent n hn => ?_⟩, fun hover => ?_⟩
    · rw [attribute_of_sent hparse hnum hsent']
      by_cases hset : command = .add ∧ (a = .outPort ∨ a = .outGroup)
      · rw [setTo, if_pos hset]
        exact (hfits.unset hset.1 a hset.2 n hn).symm
      · exact setTo_of_written hn (hfits.widths a n hn) hset
    · rw [attribute_of_sent hparse hnum hsent']
      exact setTo_of_absent habsent hn
    · obtain ⟨a, n, hn, hle⟩ := hover
      exact absurd (hfits.widths a n hn) (Nat.not_lt.2 hle)

/-- **When a flow entry means what it says or is refused.** -/
theorem meansWhatItSays_iff (env : Env) (p : Platform α) (command : Command)
    (response body : List Char) (req : Object) (hparse : parse env body = .ok req)
    (hnum : Numeric req) :
    MeansWhatItSays req command (handlePOST env p response command.params body) ↔
      (Accepted env p command req → Fits p command req) := by
  by_cases h : Accepted env p command req
  · rw [meansWhatItSays_of_accepted hparse hnum h]
    exact ⟨fun hfits _ => hfits, fun hfits => hfits h⟩
  · have hnone : (handlePOST env p response command.params body).sent = none := by
      rw [Option.eq_none_iff_forall_not_mem]
      intro sent hsent
      exact h ((sent_iff hparse hnum).1 ⟨sent, hsent⟩)
    refine iff_of_true ⟨fun dpid fm hsent => ?_, fun _ => ?_⟩ fun haccepted => absurd haccepted h
    · rw [hnone] at hsent
      cases hsent
    · exact ⟨hnone, isError_of_not_sent hparse hnone⟩

/-! ## A priority that does not fit -/

/-- An entry with priority 65536, in table 0 of switch 1. -/
def wideBody : List Char :=
  ("\x7b\"dpid\": \"1\", \"table_id\": \"0\", \"match\": \x7b\x7d, \"actions\": [], " ++
    "\"priority\": \"65536\"\x7d").toList

def wideRequest : Object :=
  [("actions", .array []), ("dpid", .string ['1']), ("match", .object []),
    ("priority", .string ['6', '5', '5', '3', '6']), ("table_id", .string ['0'])]

/-- Switch 1 is there, and the first table is for entries over REST. -/
def oneSwitch : Env where
  parseJson body := if body = wideBody then .ok (.object wideRequest) else .error ['?']
  noOverflow _ _ := 0
  handlerTable := 1
  getSwitch _ dpid := dpid == 1

def zeros : Platform Unit where
  construct _ _ := some ()
  initial := ⟨.add, 0, 0, 0, 0, 0, 0, 0, 0, 0, 0, [], none⟩
  noteFirst := false

theorem parse_wideBody : parse oneSwitch wideBody = .ok wideRequest := by
  have hjson : oneSwitch.parseJson wideBody = .ok (.object wideRequest) := by
    simp only [oneSwitch, if_true]
  rw [parse, hjson]
  rfl

theorem numeric_wideRequest : Numeric wideRequest := by
  intro a value h
  cases a with
  | tableId => exact ⟨['0'], 0, (Option.some.inj h).symm, rfl, by decide⟩
  | priority =>
    exact ⟨['6', '5', '5', '3', '6'], 65536, (Option.some.inj h).symm, rfl, by decide⟩
  | _ => cases h

theorem meansWhatItSays_iff_wide :
    MeansWhatItSays wideRequest .add (handlePOST oneSwitch zeros [] ["flowentry"] wideBody) ↔
      (Accepted oneSwitch zeros .add wideRequest → Fits zeros .add wideRequest) :=
  meansWhatItSays_iff oneSwitch zeros .add [] wideBody wideRequest parse_wideBody
    numeric_wideRequest

theorem accepted_wideRequest : Accepted oneSwitch zeros .add wideRequest := by
  refine ⟨⟨⟨.string ['1'], 1, rfl, rfl, rfl⟩, fun _ => ?_, fun value h => ?_⟩, fun value h => ?_,
    .string ['1'], 1, rfl, rfl, rfl⟩
  · exact ⟨⟨0, ⟨['0'], rfl, rfl⟩, by decide⟩, rfl, rfl⟩
  · obtain rfl : Json.object [] = value := Option.some.inj h
    intro hover
    rcases hover with ⟨field, -, value, hvalue, -⟩ | ⟨-, value, hvalue, -⟩
    · cases hvalue
    · cases hvalue
  · obtain rfl : Json.array [] = value := Option.some.inj h
    exact fun action haction => absurd haction List.not_mem_nil

/-- The entry is sent, with another priority. -/
theorem wide_priority_sent : parse oneSwitch wideBody = .ok wideRequest ∧ Numeric wideRequest ∧
    ¬ MeansWhatItSays wideRequest .add
      (handlePOST oneSwitch zeros [] ["flowentry"] wideBody) := by
  refine ⟨parse_wideBody, numeric_wideRequest, fun hmeans => ?_⟩
  have hfits := (meansWhatItSays_of_accepted parse_wideBody numeric_wideRequest
    accepted_wideRequest).1 hmeans
  exact absurd (hfits.widths .priority 65536 ⟨['6', '5', '5', '3', '6'], rfl, rfl⟩) (by decide)

end RestFlowMod
