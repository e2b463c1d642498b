import Runos.Rest.StringProcessing

/-!
# Flow entries over REST (`RestFlowMod.hh`, `RestFlowMod.cc`)

A POST request adds a flow entry or deletes entries: the body is checked, its attributes, matches
and actions are put into a FlowMod, and the FlowMod is sent to the switch. A FlowMod as libfluid
builds it holds its attributes in the widths of OpenFlow 1.3, and a setter narrows what it is given.
The addresses that libfluid reads from a text are of a type `α`.
-/

namespace RestFlowMod

open Rest

/-- A field of a match: its number, or what libfluid makes of its text. -/
inductive Oxm (α : Type)
  | uint (field : String) (value : Nat)
  | text (field : String) (value : α)
  deriving DecidableEq, Repr

inductive Action (α : Type)
  | setField (field : Oxm α)
  /-- an action with the fields that the request gives -/
  | plain (type : String) (fields : List (String × Nat))
  deriving DecidableEq, Repr

inductive Command
  | add | delete | deleteStrict
  deriving DecidableEq, Repr

/-- `of13::FlowMod` -/
structure FlowMod (α : Type) where
  command : Command
  cookie : UInt64
  cookieMask : UInt64
  tableId : UInt8
  idleTimeout : UInt16
  hardTimeout : UInt16
  priority : UInt16
  bufferId : UInt32
  outPort : UInt32
  outGroup : UInt32
  flags : UInt16
  oxmFields : List (Oxm α)
  instruction : Option (List (Action α))
  deriving DecidableEq, Repr

/-- What libfluid makes of a text for a field, if its constructor does not throw; a FlowMod before
anything is set; and whether the first words of a note are written before `at` throws, which the
language leaves open. -/
structure Platform (α : Type) where
  construct : String → List Char → Option α
  initial : FlowMod α
  noteFirst : Bool

variable {α : Type}

/-! ## Attributes -/

def ofpNoBuffer : Nat := 0xffffffff
def ofppAny : Nat := 0xffffffff
def ofpgAny : Nat := 0xffffffff

def processInfoAdd (env : Env) (fm : FlowMod α) (req : Object) : Except Exn (FlowMod α) := do
  let chVal := chooseValue env req
  let tableId ← jsonCast .uint8 (env.noOverflow 1 "table_id") (← req.at "table_id")
  let cookie ← chVal "cookie" 0
  let cookieMask ← chVal "cookie_mask" 0
  let idleTimeout ← chVal "idle_timeout" 10
  let hardTimeout ← chVal "hard_timeout" 10
  let priority ← chVal "priority" 0
  let bufferId ← chVal "buffer_id" 0xffffffff
  let flags ← chVal "flags" 0
  return { fm with
    tableId := .ofNat tableId, cookie := .ofNat cookie, cookieMask := .ofNat cookieMask,
    idleTimeout := .ofNat idleTimeout, hardTimeout := .ofNat hardTimeout,
    priority := .ofNat priority, bufferId := .ofNat bufferId, flags := .ofNat flags }

def processInfoDelete (env : Env) (fm : FlowMod α) (req : Object) : Except Exn (FlowMod α) := do
  let chVal := chooseValue env req
  let cookie ← chVal "cookie" 0
  let cookieMask ← chVal "cookie_mask" 0
  let tableId ← chVal "table_id" 0
  let idleTimeout ← chVal "idle_timeout" 0
  let hardTimeout ← chVal "hard_timeout" 0
  let priority ← chVal "priority" 0
  let bufferId ← chVal "buffer_id" ofpNoBuffer
  let outPort ← chVal "out_port" ofppAny
  let outGroup ← chVal "out_group" ofpgAny
  let flags ← chVal "flags" 0
  return { fm with
    cookie := .ofNat cookie, cookieMask := .ofNat cookieMask, tableId := .ofNat tableId,
    idleTimeout := .ofNat idleTimeout, hardTimeout := .ofNat hardTimeout,
    priority := .ofNat priority, bufferId := .ofNat bufferId, outPort := .ofNat outPort,
    outGroup := .ofNat outGroup, flags := .ofNat flags }

/-! ## Matches -/

namespace EthTypes

def ipv4 : Nat := 0x0800
def arp : Nat := 0x0806

end EthTypes

namespace InetTypes

def tcp : Nat := 6
def udp : Nat := 17

end InetTypes

/-- The state of `processMatches`. -/
structure Matching (α : Type) where
  fields : List (Oxm α)
  added : Bool
  etherType : Option Nat
  deriving DecidableEq, Repr

namespace Matching

def addOxmField (m : Matching α) (field : Oxm α) : Matching α :=
  { m with fields := m.fields ++ [field], added := true }

/-- `HANDLE_UINT`: an overflow is thrown on, a field that is not there is left out. -/
def handleUint (env : Env) (matches_ : Object) (m : Matching α) (field : String) (type : Uint) :
    Except Exn (Matching α) :=
  match matches_.at field >>= jsonCast type (env.noOverflow 1 field) with
  | .ok value => .ok (m.addOxmField (.uint field value))
  | .error (.overflowError what) => .error (.overflowError what)
  | .error _ => .ok m

/-- `HANDLE_STRING` -/
def handleString (p : Platform α) (matches_ : Object) (m : Matching α) (field : String) :
    Matching α :=
  match (matches_.find field).bind fun value => p.construct field value.stringValue with
  | some value => m.addOxmField (.text field value)
  | none => m

def handleUints (env : Env) (matches_ : Object) (m : Matching α) (fields : List (String × Uint)) :
    Except Exn (Matching α) :=
  fields.foldlM (fun m field => m.handleUint env matches_ field.1 field.2) m

def handleStrings (p : Platform α) (matches_ : Object) (m : Matching α) (fields : List String) :
    Matching α :=
  fields.foldl (handleString p matches_) m

/-- The fields of the layers below, when one of this layer was added. -/
def layer (m : Matching α) (etherType : Nat) (inetType : Option Nat) : Matching α :=
  if m.added then
    { fields := m.fields ++ .uint "eth_type" etherType :: (inetType.map (.uint "ip_proto")).toList
      added := false
      etherType := some etherType }
  else m

def processL4 (env : Env) (matches_ : Object) (m : Matching α) : Except Exn (Matching α) := do
  let m ← m.handleUints env matches_ [("tcp_src", .uint16), ("tcp_dst", .uint16)]
  let m := m.layer EthTypes.ipv4 (some InetTypes.tcp)
  let m ← m.handleUints env matches_ [("udp_src", .uint16), ("udp_dst", .uint16)]
  return m.layer EthTypes.ipv4 (some InetTypes.udp)

def processIP (env : Env) (p : Platform α) (matches_ : Object) (m : Matching α) :
    Except Exn (Matching α) := do
  let m ← m.handleUints env matches_ [("ip_proto", .uint8)]
  if m.etherType = none ∨ m.etherType = some EthTypes.ipv4 then
    return (m.handleStrings p matches_ ["ipv4_src", "ipv4_dst"]).layer EthTypes.ipv4 none
  else return m

def processARP (env : Env) (p : Platform α) (matches_ : Object) (m : Matching α) :
    Except Exn (Matching α) := do
  if m.etherType = none then
    let m ← m.handleUints env matches_ [("arp_op", .uint16)]
    let m := m.handleStrings p matches_ ["arp_spa", "arp_tpa", "arp_sha", "arp_tha"]
    return m.layer EthTypes.arp none
  else return m

def processL2 (env : Env) (p : Platform α) (matches_ : Object) (m : Matching α) :
    Except Exn (Matching α) := do
  let m ← m.handleUints env matches_ [("vlan_vid", .uint16), ("vlan_pcp", .uint8),
    ("in_port", .uint32), ("in_phy_port", .uint32), ("metadata", .uint64)]
  let m := m.handleStrings p matches_ ["eth_dst", "eth_src"]
  m.handleUints env matches_ [("eth_type", .uint16)]

end Matching

/-- The fields that are added for the `match` of a request. -/
def processMatches (env : Env) (p : Platform α) (matches_ : Object) :
    Except Exn (List (Oxm α)) := do
  let m ← Matching.processL4 env matches_ ⟨[], false, none⟩
  let m ← m.processIP env p matches_
  let m ← m.processARP env p matches_
  let m ← m.processL2 env p matches_
  return m.fields

/-! ## Actions -/

/-- The fields `doSwitch` knows, with the type that a number is cast to. -/
def switchFields : List (String × Option Uint) :=
  [("metadata", some .uint64), ("eth_src", none), ("eth_dst", none), ("eth_type", some .uint16),
    ("vlan_vid", some .uint16), ("ip_dscp", some .uint8), ("ip_ecn", some .uint8),
    ("ip_proto", some .uint8), ("ipv4_src", none), ("ipv4_dst", none), ("tcp_src", some .uint16),
    ("tcp_dst", some .uint16), ("udp_src", some .uint16), ("udp_dst", some .uint16),
    ("arp_spa", none), ("arp_tpa", none), ("arp_sha", none), ("arp_tha", none),
    ("arp_op", some .uint16)]

def doSwitch (p : Platform α) (noOverflow : UInt64) (field : String) (value : List Char) :
    Except Exn (Oxm α) :=
  match switchFields.lookup field with
  | some (some type) => do return .uint field (← stringCast type noOverflow value)
  | some none =>
    match p.construct field value with
    | some a => .ok (.text field a)
    | none => .error .foreign
  | none => .error (.literal "unsupported field name".toList)

/-- The types of actions, with the fields that are read for them. -/
def actionFields : List (String × List (String × Uint)) :=
  [("OUTPUT", [("port", .uint32), ("max_len", .uint16)]), ("COPY_TTL_OUT", []), ("COPY_TTL_IN", []),
    ("SET_MPLS_TTL", [("mpls_ttl", .uint8)]), ("DEC_MPLS_TTL", []),
    ("PUSH_VLAN", [("ethertype", .uint16)]), ("POP_VLAN", []),
    ("PUSH_MPLS", [("ethertype", .uint16)]), ("POP_MPLS", [("ethertype", .uint16)]),
    ("SET_QUEUE", [("queue_id", .uint32)]), ("GROUP", [("group_id", .uint32)]),
    ("SET_NW_TTL", [("nw_ttl", .uint8)]), ("DEC_NW_TTL", []), ("PUSH_PBB", [("ethertype", .uint16)]),
    ("POP_PBB", []), ("EXPERIMENTER", [("experimenter", .uint32)])]

/-- `SET_ACT`: a field that cannot be read is not set. -/
def setAct (env : Env) (i : Nat) (action : Object) (field : String × Uint) :
    Option (String × Nat) :=
  match action.at field.1 >>= jsonCast field.2 (env.noOverflow i field.1) with
  | .ok value => some (field.1, value)
  | .error _ => none

/-- What `processAction` tries. An action of another type is passed over. -/
def readAction (env : Env) (p : Platform α) (i : Nat) (action : Object) :
    Except Exn (Option (Action α)) := do
  let type := String.ofList (← action.at "type").stringValue
  if type = "SET_FIELD" then
    let field := String.ofList (← action.at "field").stringValue
    let value := (← action.at "value").stringValue
    return some (.setField (← doSwitch p (env.noOverflow i "value") field value))
  else
    return (actionFields.lookup type).map fun fields =>
      .plain type (fields.filterMap (setAct env i action))

/-- `processAction`: what is written to the response, and the action, if one is added. -/
def processAction (env : Env) (p : Platform α) (i : Nat) (action : Object) :
    List Char × Except Exn (Option (Action α)) :=
  let note := " Incorrect input in an action ".toList
  match readAction env p i action with
  | .ok act => ([], .ok act)
  | .error _ =>
    match action.at "type" with
    | .ok type => (note ++ type.stringValue ++ ". This action is ignored.".toList, .ok none)
    | .error e => (if p.noteFirst then note else [], .error e)

/-- `processActions`, from the `i`-th cast on -/
def processActions (env : Env) (p : Platform α) (i : Nat) :
    List Json → List Char × Except Exn (List (Action α))
  | [] => ([], .ok [])
  | action :: actions =>
    match processAction env p i action.objectItems with
    | (note, .error e) => (note, .error e)
    | (note, .ok act) =>
      let (notes, rest) := processActions env p (i + 1) actions
      (note ++ notes, rest.map (act.toList ++ ·))

/-! ## Requests -/

/-- A FlowMod but for its actions, if the request has some. -/
abbrev Prepared (α : Type) := FlowMod α × Option (List Json)

/-- A new flow entry. -/
def prepareAdd (env : Env) (p : Platform α) (req : Object) : Except Exn (Prepared α) := do
  validateRequest env req true
  let matches_ := (← req.at "match").objectItems
  let actions := (← req.at "actions").arrayItems
  let fm ← processInfoAdd env { p.initial with command := .add } req
  let fields ← processMatches env p matches_
  return ({ fm with oxmFields := fm.oxmFields ++ fields }, some actions)

/-- The match of a request that may have none. -/
def processOptionalMatches (env : Env) (p : Platform α) (req : Object) :
    Except Exn (List (Oxm α)) :=
  match req.find "match" with
  | some matches_ => processMatches env p matches_.objectItems
  | none => .ok []

/-- Existing entries to delete. -/
def prepareDelete (env : Env) (p : Platform α) (strict : Bool) (req : Object) :
    Except Exn (Prepared α) := do
  validateRequest env req false
  let command := if strict then .deleteStrict else .delete
  let fm ← processInfoDelete env { p.initial with command } req
  let fields ← processOptionalMatches env p req
  return ({ fm with oxmFields := fm.oxmFields ++ fields },
    (req.find "actions").map Json.arrayItems)

/-- The switch that a FlowMod is sent to. -/
def findSwitch (env : Env) (req : Object) : Except Exn Nat := do
  let dpid ← jsonCast .uint64 (env.noOverflow 1 "dpid") (← req.at "dpid")
  if env.getSwitch 1 dpid then return dpid
  else throw (.literal "switch not found".toList)

/-- The actions, and then the switch. The notes stay when something is thrown. -/
def complete (env : Env) (p : Platform α) (req : Object) :
    Except Exn (Prepared α) → List Char × Except Exn (Nat × FlowMod α)
  | .error e => ([], .error e)
  | .ok (fm, none) => ([], do return (← findSwitch env req, fm))
  | .ok (fm, some actions) =>
    let (notes, instruction) := processActions env p 2 actions
    (notes, do
      let instruction ← instruction
      return (← findSwitch env req, { fm with instruction := some instruction }))

/-- What is sent to which switch, the text of the reply under `RestFlowMod`, which is none for an
empty object, and `response_`. -/
structure Outcome (α : Type) where
  sent : Option (Nat × FlowMod α)
  reply : Option (List Char)
  response : List Char
  deriving DecidableEq, Repr

/-- `c_str` -/
def cStr (text : List Char) : List Char := text.takeWhile (· ≠ Char.ofNat 0)

/-- The text that a `catch` clause of `handlePOST` replies. -/
def Exn.reply : Exn → List Char
  | .string errMsg => cStr errMsg
  | _ => "Some error on request handling".toList

/-- The end of `handlePOST`, whether something is thrown or not. -/
def finish (response msg : List Char) :
    List Char × Except Exn (Nat × FlowMod α) → Outcome α
  | (notes, .ok sent) => ⟨some sent, some (cStr (msg ++ (response ++ notes))), []⟩
  | (notes, .error e) => ⟨none, some (Exn.reply e), response ++ notes⟩

def handlePOST (env : Env) (p : Platform α) (response : List Char) (params : List String)
    (body : List Char) : Outcome α :=
  if params[0]? ≠ some "flowentry" then ⟨none, some "Unsupported parameter".toList, response⟩
  else
    match parse env body with
    | .error e => ⟨none, some (Exn.reply e), response⟩
    | .ok req =>
      if params.length = 1 then
        finish response "new flow added".toList (complete env p req (prepareAdd env p req))
      else if params[1]? = some "delete_strict" ∨ params[1]? = some "delete" then
        finish response "have sent flow_mod with DELETE command".toList
          (complete env p req (prepareDelete env p (params[1]? = some "delete_strict") req))
      else ⟨none, none, response⟩

end RestFlowMod
