import Runos.Raft.Proof.Returns

/-!
# Input that brings the node down

For every line on either port, in every state of the node: when its processing returns, and when a
line that holds no message does nothing but drop its session (`message_survived_iff`). What can go
wrong is a length that is announced for a vector and taken at its word (`WithinRoom`), and the fault
of a handler that is given the message (`Survives`).
-/

namespace Raft

open Stream Runs Fallible

/-! ## Lengths -/

/-- Room for every length that can be read. -/
def Room.unlimited : Room := ⟨2 ^ 64 - 1, 2 ^ 64 - 1, by decide, by decide⟩

/-- The length that a line announces for its vector, with the room there is for it. -/
def readLength (room : Room) : Extract (Nat × Nat) := do
  let name ← word
  if name = "AppendEntriesRequest" then do
    let _ ← readHeader
    let _ ← readEntryInfo
    let numElems ← unsigned 64
    return (numElems, room.entries)
  else if name = "ConfigChangeRequest" then do
    let _ ← readHeader
    let _ ← unsigned 64
    let numElems ← unsigned 64
    return (numElems, room.peerConfigs)
  else
    return (0, 0)

/-- There is room for the length that the line announces, if it gets that far. -/
def WithinRoom (room : Room) (message : String) : Prop :=
  ∀ numElems limit rest, readLength room message.toList = .ok ((numElems, limit), rest) →
    numElems ≤ limit

theorem limited_vector {α : Type} {room max : Nat} (h : room ≤ max) (elem : Extract α) :
    Limited (readVector room elem) (readVector max elem)
      (do let numElems ← unsigned 64; return (numElems, room)) := by
  apply Limited.bind_left
  intro n text
  change (if room < n then throw .exception else readElems elem n : Extract _) text =
    if room < n then .error .exception else
      (if max < n then throw .exception else readElems elem n : Extract _) text
  split
  · rfl
  · rename_i hle
    rw [if_neg (by omega)]

theorem limited_serverMessage (room : Room) :
    Limited (readServerMessage room) (readServerMessage .unlimited) (readLength room) := by
  refine .bind_left _ fun name => ?_
  unfold readBody
  by_cases happend : name = "AppendEntriesRequest"
  · rw [if_pos happend, if_pos happend, if_pos happend]
    refine Limited.bind_right ?_ _
    refine .bind_left _ fun header => .bind_left _ fun previousEntry => ?_
    exact (limited_vector (Nat.le_sub_one_of_lt room.entries_lt) _).bind_right _
  rw [if_neg happend, if_neg happend, if_neg happend]
  by_cases hconfig : name = "ConfigChangeRequest"
  · subst hconfig
    refine Limited.bind_right ?_ _
    refine .bind_left _ fun header => .bind_left _ fun previousEntry => ?_
    exact (limited_vector (Nat.le_sub_one_of_lt room.peerConfigs_lt) _).bind_right _
  rw [if_neg hconfig, if_neg hconfig, if_neg hconfig]
  exact .refl _

/-! ## Failures of the stream -/

theorem safe_entryInfo : Safe readEntryInfo :=
  (safe_unsigned 64).bind fun _ => (safe_unsigned 64).bind fun _ => .pure _

theorem safe_header : Safe readHeader :=
  safe_word.bind fun _ => safe_word.bind fun _ => (safe_unsigned 64).bind fun _ =>
    (safe_unsigned 64).bind fun _ => safe_entryInfo.bind fun _ => safe_entryInfo.bind fun _ =>
      .pure _

theorem safe_entry : Safe readEntry :=
  safe_entryInfo.bind fun _ => safe_word.bind fun _ => .pure _

theorem safe_peerConfig : Safe readPeerConfig :=
  safe_word.bind fun _ => safe_word.bind fun _ => (safe_signed 32).bind fun _ =>
    (safe_signed 32).bind fun _ => safe_bool.bind fun _ => .pure _

theorem safe_elems {α : Type} {elem : Extract α} (h : Safe elem) : ∀ n, Safe (readElems elem n)
  | 0 => .pure _
  | n + 1 => h.bind fun _ => (safe_elems h n).bind fun _ => .pure _

/-- With room for every length, a vector is read like anything else. -/
theorem safe_vector {α : Type} {elem : Extract α} (h : Safe elem) :
    Safe (readVector (2 ^ 64 - 1) elem) := by
  intro text hexc
  change (unsigned 64 text >>= _) = _ at hexc
  cases hr : unsigned 64 text with
  | error e =>
    rw [hr] at hexc
    cases hexc
    exact safe_unsigned 64 text hr
  | ok r =>
    have hlt := unsigned_lt hr
    rw [hr] at hexc
    change (if 2 ^ 64 - 1 < r.1 then throw .exception else readElems elem r.1 : Extract _) r.2 = _
      at hexc
    rw [if_neg (by omega)] at hexc
    exact safe_elems h r.1 r.2 hexc

theorem safe_serverMessage : Safe (readServerMessage .unlimited) := by
  refine safe_word.bind fun name => ?_
  unfold readBody
  refine .ite ?_ (.ite ?_ (.ite ?_ (.ite ?_ (.ite ?_ (.ite ?_ (.pure _))))))
  · refine Safe.bind ?_ fun _ => .pure _
    exact safe_header.bind fun _ => safe_entryInfo.bind fun _ =>
      (safe_vector safe_entry).bind fun _ => .pure _
  · exact (safe_header.bind fun _ => safe_bool.bind fun _ => .pure _).bind fun _ => .pure _
  · exact (safe_word.bind fun _ => .pure _).bind fun _ => .pure _
  · exact (safe_header.bind fun _ => safe_bool.bind fun _ => .pure _).bind fun _ => .pure _
  · exact (safe_header.bind fun _ => .pure _).bind fun _ => .pure _
  · refine Safe.bind ?_ fun _ => .pure _
    exact safe_header.bind fun _ => (safe_unsigned 64).bind fun _ =>
      (safe_vector safe_peerConfig).bind fun _ => .pure _

theorem safe_clientMessage : Safe readClientMessage := by
  refine safe_word.bind fun name => ?_
  refine .ite ?_ (.ite (.pure _) (.pure _))
  exact (safe_word.bind fun _ => .pure _).bind fun _ => .pure _

/-! ## The two ports -/

section
variable {room : Room} {network : Network} {self : Option Nat} {id : String} {s : Server String}

/-- The line holds a message of a node. What follows it on the line is not looked at. -/
def Denotes (message : String) (m : ServerMessage) : Prop :=
  ∃ rest, readServerMessage .unlimited message.toList = .ok (some m, rest)

/-- The line holds a message of a client. -/
def ClientDenotes (message : String) (m : ClientMessage) : Prop :=
  ∃ rest, readClientMessage message.toList = .ok (some m, rest)

/-- The message passes the identity check, or there is none for it. -/
def Delivered (network : Network) (self : Option Nat) (id : String) (s : Server String)
    (m : Message String) : Prop :=
  ∀ header, m.header = some header → (checkIdentity network self id s header.peerId).2 = true

/-- The call returns and, if the line holds no message, leaves the node as it was and drops the
session. -/
def ServerLineSurvived (ndebug : Bool) (room : Room) (network : Network) (self : Option Nat)
    (id : String) (s : Server String) (message : String) : Prop :=
  ∃ r, processServerMessage ndebug room network self id s message = .ok r ∧
    ((∀ m, ¬ Denotes message m) → r = dropSession network id s)

/-- The same for a line of a client. -/
def ClientLineSurvived (ndebug : Bool) (network : Network) (id : String) (s : Server String)
    (message : String) : Prop :=
  ∃ r, processClientMessage ndebug network id s message = .ok r ∧
    ((∀ m, ¬ ClientDenotes message m) → r = (dropSession network id s, none))

theorem exists_processRpc (ndebug : Bool) (network : Network) (self : Option Nat) (id : String)
    (s : Server String) (m : Message String) :
    (∃ r, processRpc ndebug network self id s m = .ok r) ↔
      (Delivered network self id s m → Survives ndebug s m) := by
  unfold processRpc Delivered
  cases hm : m.header with
  | none => simp [exists_handOver]
  | some header =>
    simp only [Option.some.injEq, forall_eq']
    split
    · rename_i hpass
      simp only [hpass, true_implies]
      exact exists_handOver _ _ _ _
    · rename_i hfail
      simp [hfail]

/-- Within the room, the line is read as if there were room for everything. -/
theorem readServerMessage_eq {message : String} (h : WithinRoom room message) :
    readServerMessage room message.toList = readServerMessage .unlimited message.toList := by
  rw [limited_serverMessage room]
  split
  · rename_i n limit rest hlen
    have hle := h n limit rest hlen
    rw [if_neg (by omega)]
  · rfl

theorem readServerMessage_of_not_withinRoom {message : String} (h : ¬ WithinRoom room message) :
    readServerMessage room message.toList = .error .exception := by
  unfold WithinRoom at h
  push Not at h
  obtain ⟨n, limit, rest, hlen, hlt⟩ := h
  rw [limited_serverMessage room, hlen]
  exact if_pos hlt

theorem serverLineSurvived_iff (ndebug : Bool) (room : Room) (network : Network)
    (self : Option Nat) (id : String) (s : Server String) (message : String) :
    ServerLineSurvived ndebug room network self id s message ↔
      WithinRoom room message ∧ ∀ m, Denotes message (.rpc m) →
        Delivered network self id s m → Survives ndebug s m := by
  unfold ServerLineSurvived processServerMessage
  by_cases hroom : WithinRoom room message
  swap
  · rw [readServerMessage_of_not_withinRoom hroom]
    simp [hroom]
  rw [readServerMessage_eq hroom, and_iff_right hroom]
  unfold Denotes
  cases hr : readServerMessage .unlimited message.toList with
  | error e =>
    cases e with
    | failbit => simp
    | exception => exact absurd hr (safe_serverMessage _)
  | ok r =>
    obtain ⟨m, rest⟩ := r
    cases m with
    | none => simp
    | some m =>
      cases m with
      | configChangeRequest request => simp
      | rpc m =>
        simp only [Except.ok.injEq, Prod.mk.injEq, Option.some.injEq, ServerMessage.rpc.injEq,
          exists_and_left, exists_eq', and_true, forall_eq', ← exists_processRpc]
        simp

theorem clientLineSurvived_iff (ndebug : Bool) (network : Network) (id : String)
    (s : Server String) (message : String) :
    ClientLineSurvived ndebug network id s message ↔
      ∀ request, ClientDenotes message (.clientRequest request) → Replicable s request := by
  unfold ClientLineSurvived processClientMessage ClientDenotes
  cases hr : readClientMessage message.toList with
  | error e =>
    cases e with
    | failbit => simp
    | exception => exact absurd hr (safe_clientMessage _)
  | ok r =>
    obtain ⟨m, rest⟩ := r
    cases m with
    | none => simp
    | some m =>
      cases m with
      | currentEntryRequest => simp
      | clientRequest request =>
        have hcall := exists_handOver ndebug network s
          (.clientRequest { request with clientId := id })
        simp only [Except.ok.injEq, Prod.mk.injEq, Option.some.injEq,
          ClientMessage.clientRequest.injEq, exists_and_left, exists_eq', and_true, forall_eq']
        refine Iff.trans ?_ hcall
        simp [exists_bind_ok]

end

/-- What a vector of entries can hold, and a vector of peers: the range of a pointer difference over
the size of an element. -/
def vectorRoom : Room := ⟨(2 ^ 63 - 1) / 48, (2 ^ 63 - 1) / 80, by decide, by decide⟩

end Raft
