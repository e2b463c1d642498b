import Runos.Lib.Fallible
import Runos.Lib.Trace
import Runos.Raft.Proof.Handlers

/-!
# Runs of a cluster

`Run ndebug ids good h s` is a run from the constructor states: `h` holds the past, and every step
satisfies `good`. What the later modules need of a step is in `Run.step_cases`: either no node
changes and no message is new (`Idle`), or one node makes one of its `Moves` and every new message
is one it has sent (`NodeStep`).

* `Run.node_ok`: every node satisfies `Server.Ok` in every state of a run.
* `Run.sent`: every message in flight was sent by a node in some state of the run.
* `storage_representation`: the representation of the storages, the indexes in the append requests
  in flight, and no reachable `exit(1)`.
-/

namespace Raft

open Runs Fallible

variable {α : Type}

/-- A run of the cluster `ids` in which every step satisfies `good`. -/
abbrev Run (ndebug : Bool) (ids : List String) (good : Cluster α → Event α → Prop)
    (h : List (Cluster α × Event α)) (s : Cluster α) : Prop :=
  Trace (Cluster.step ndebug) good (Cluster.init ids) h s

/-- The message an event delivers. -/
def Cluster.delivered (s : Cluster α) : Event α → Option (Envelope α)
  | .deliver k => s.network[k]?
  | _ => none

/-- No node changes and no message is new. -/
structure Idle (s s' : Cluster α) : Prop where
  ids : s'.ids = s.ids
  nodes : s'.nodes = s.nodes
  network : ∀ x ∈ s'.network, x ∈ s.network

/-- Node `p` takes the message `m`, or a timer event. -/
structure NodeStep (s : Cluster α) (e : Event α) (p : String) (m : Option (Message α))
    (s' : Cluster α) : Prop where
  mem : p ∈ s.ids
  ids : s'.ids = s.ids
  source : ∀ x, m = some x → (∃ r, x = .clientRequest r) ∨ s.delivered e = some ⟨p, x⟩
  target : ∀ x, s.delivered e = some x → p = x.destination ∧ m = some x.message
  ok : (s'.nodes p).Ok s.ids p
  moves : Moves p (s.nodes p) m (s'.nodes p)
  others : ∀ q, q ≠ p → s'.nodes q = s.nodes q
  network : ∀ x ∈ s'.network, x ∈ s.network ∨
    Sent s.ids (s'.nodes p) x ∧ Answers (s.nodes p) m x

theorem NodeStep.delivered {s s' : Cluster α} {e : Event α} {p : String} {m : Message α}
    (hn : NodeStep s e p (some m) s') (hm : ∀ r, m ≠ .clientRequest r) :
    s.delivered e = some ⟨p, m⟩ := by
  refine (hn.source m rfl).resolve_left fun hr => ?_
  obtain ⟨r, hr⟩ := hr
  exact hm r hr

/-! ## One step -/

/-- The nodes are well formed and no message in flight makes a handler fault. -/
structure Cluster.Ok (s : Cluster α) : Prop where
  nodes : ∀ p ∈ s.ids, (s.nodes p).Ok s.ids p
  messages : ∀ x ∈ s.network, MessageOk s.ids x.message

section
variable {s s' : Cluster α} {e : Event α} {p : String} {ndebug : Bool}

/-- A message from a well-formed node is one no handler faults on. -/
theorem Sent.messageOk {ids : List String} {n : Server α} {x : Envelope α} (hn : n.Ok ids p)
    (hp : p ∈ ids) (h : Sent ids n x) : MessageOk ids x.message := by
  obtain ⟨q, m⟩ := x
  obtain ⟨-, h⟩ := h
  cases m with
  | voteRequest r => trivial
  | voteResponse r =>
    obtain ⟨hid, -⟩ := h
    show r.header.peerId ∈ ids
    rwa [hid, hn.id]
  | appendEntriesRequest r =>
    obtain ⟨hid, hd, hne, -, -, -, hes⟩ := h
    refine ⟨by rw [hid, hd]; exact hne.symm, ?_⟩
    by_cases hnil : r.entries = []
    · rw [hnil]; exact .nil
    · rw [(hes hnil).2.2]
      exact hn.rep.index.drop _
  | appendEntriesResponse r =>
    obtain ⟨hid, hd, hne, -⟩ := h
    show r.header.peerId ≠ r.header.destinationId
    rw [hid, hd]; exact hne.symm
  | clientRequest r => trivial

/-- A step that runs `handler` at node `p`, in the cluster `s₁` left once the message taken is no
longer in flight. -/
structure Acts (s : Cluster α) (e : Event α) (p : String) (m : Option (Message α))
    (handler : Server α → Except Fault (Outcome α)) (s₁ : Cluster α) : Prop where
  ids : s₁.ids = s.ids
  nodes : s₁.nodes = s.nodes
  network : ∀ x ∈ s₁.network, x ∈ s.network
  source : ∀ x, m = some x → (∃ r, x = .clientRequest r) ∨ s.delivered e = some ⟨p, x⟩
  target : ∀ x, s.delivered e = some x → p = x.destination ∧ m = some x.message
  handled : p ∈ s.ids → (∃ o, handler (s.nodes p) = .ok o ∧ Handled s.ids p (s.nodes p) m o) ∨
    handler (s.nodes p) = .error .assertion

/-- A step of a well-formed cluster runs a handler or is idle. -/
theorem Cluster.Ok.step_acts (hs : s.Ok) (ndebug : Bool) (e : Event α) :
    (∃ p m handler s₁, s.step ndebug e = s₁.act p handler ∧ Acts s e p m handler s₁) ∨
      ∃ s', s.step ndebug e = .ok s' ∧ Idle s s' := by
  cases e with
  | timeout p =>
    refine .inl ⟨p, none, fun n => .ok n.timeout, s, rfl, rfl, rfl, fun _ hx => hx,
      fun _ hx => (nomatch hx), fun _ hx => (nomatch hx),
      fun hp => .inl ⟨_, rfl, timeout_handled (hs.nodes p hp)⟩⟩
  | minimumTimeout p =>
    refine .inl ⟨p, none, fun n => .ok (n.onMinimumTimeoutRequest, []), s, rfl, rfl, rfl,
      fun _ hx => hx, fun _ hx => (nomatch hx), fun _ hx => (nomatch hx),
      fun hp => .inl ⟨_, rfl, onMinimumTimeoutRequest_handled (hs.nodes p hp)⟩⟩
  | clientRequest p r =>
    refine .inl ⟨p, some (.clientRequest r), fun n => n.onClientRequest r, s, rfl, rfl, rfl,
      fun _ hx => hx, ?_, fun _ hx => (nomatch hx), ?_⟩
    · rintro x ⟨⟩; exact .inl ⟨r, rfl⟩
    · exact fun hp => .inl (onClientRequest_handled (hs.nodes p hp) r)
  | deliver k =>
    cases hk : s.network[k]? with
    | none => exact .inr ⟨s, by simp only [Cluster.step, hk], rfl, rfl, fun _ hx => hx⟩
    | some x =>
      refine .inl ⟨x.destination, some x.message, fun n => n.receive ndebug x.message,
        { s with network := s.network.eraseIdx k }, by simp only [Cluster.step, hk], rfl, rfl,
        fun _ hy => List.mem_of_mem_eraseIdx hy, ?_, ?_, ?_⟩
      · rintro _ ⟨⟩; exact .inr hk
      · intro y hy
        cases hk.symm.trans hy
        exact ⟨rfl, rfl⟩
      · exact fun hp => receive_handled _ (hs.nodes _ hp) (hs.messages x (List.mem_of_getElem? hk))
  | lose k => exact .inr ⟨_, rfl, rfl, rfl, fun _ hx => List.mem_of_mem_eraseIdx hx⟩
  | duplicate k =>
    cases hk : s.network[k]? with
    | none => exact .inr ⟨s, by simp only [Cluster.step, hk], rfl, rfl, fun _ hx => hx⟩
    | some x =>
      refine .inr ⟨{ s with network := x :: s.network }, by simp only [Cluster.step, hk], rfl, rfl,
        fun y hy => ?_⟩
      rcases List.mem_cons.1 hy with rfl | hy
      · exact List.mem_of_getElem? hk
      · exact hy

theorem Cluster.Ok.step_cases (hs : s.Ok) (h : s.step ndebug e = .ok s') :
    Idle s s' ∨ ∃ p m, NodeStep s e p m s' := by
  rcases hs.step_acts ndebug e with ⟨p, m, handler, s₁, hact, ha⟩ | ⟨s'', hs'', hidle⟩
  · rw [hact, Cluster.act, ha.ids, ha.nodes] at h
    split at h
    · rename_i hp
      obtain ⟨o, ho, h⟩ := bind_ok h
      cases h
      rcases ha.handled hp with ⟨o', ho', hd⟩ | hf
      · rw [ho] at ho'
        cases ho'
        refine .inr ⟨p, m, hp, rfl, ha.source, ha.target, ?_, ?_, fun q hq => ?_, fun x hx => ?_⟩
        · simpa using hd.ok
        · simpa using hd.moves
        · exact Function.update_of_ne hq _ _
        · rcases List.mem_append.1 hx with hx | hx
          · exact .inl (ha.network x hx)
          · exact .inr (by simpa using hd.sent x hx)
      · rw [ho] at hf; cases hf
    · cases h
      exact .inl ⟨ha.ids, ha.nodes, ha.network⟩
  · rw [h] at hs''
    cases hs''
    exact .inl hidle

/-- The only fault of a step is the assertion on the commit terms. -/
theorem Cluster.Ok.step_fault (hs : s.Ok) {f : Fault} (h : s.step ndebug e = .error f) :
    f = .assertion := by
  rcases hs.step_acts ndebug e with ⟨p, m, handler, s₁, hact, ha⟩ | ⟨s'', hs'', -⟩
  · rw [hact, Cluster.act, ha.ids, ha.nodes] at h
    split at h
    · rename_i hp
      rcases ha.handled hp with ⟨o, ho, -⟩ | hf
      · rw [ho] at h; cases h
      · rw [hf] at h; cases h; rfl
    · cases h
  · rw [h] at hs''; cases hs''

end

/-! ## Runs -/

section
variable {ndebug : Bool} {ids : List String} {good : Cluster α → Event α → Prop}
  {h : List (Cluster α × Event α)} {s s' : Cluster α} {e : Event α}

/-- The invariant behind `Run.node_ok` and `Run.sent`. -/
structure Recorded (ids : List String) (h : List (Cluster α × Event α)) (s : Cluster α) :
    Prop where
  ids_eq : s.ids = ids
  nodes : ∀ y ∈ states h s, ∀ p ∈ ids, (y.nodes p).Ok ids p
  sent : ∀ x ∈ s.network, ∃ y ∈ states h s, ∃ p ∈ ids, Sent ids (y.nodes p) x

theorem Recorded.ok (hr : Recorded ids h s) : s.Ok where
  nodes := by
    rw [hr.ids_eq]
    exact hr.nodes s (mem_states_self h s)
  messages x hx := by
    obtain ⟨y, hy, p, hp, hsent⟩ := hr.sent x hx
    rw [hr.ids_eq]
    exact hsent.messageOk (hr.nodes y hy p hp) hp

theorem init_ok (ids : List String) (p : String) : (Server.init p ids : Server α).Ok ids p where
  id := rfl
  peers := by
    show (ids.map Peer.init).map (·.id) = ids
    rw [List.map_map]
    exact List.map_id ids
  rep := .init

theorem Recorded.step (hr : Recorded ids h s) (hs : s.step ndebug e = .ok s') :
    Recorded ids ((s, e) :: h) s' := by
  rcases hr.ok.step_cases hs with hi | ⟨p, m, hn⟩
  · refine ⟨hi.ids.trans hr.ids_eq, fun y hy q hq => ?_, fun x hx => ?_⟩
    · rcases mem_states_cons.1 hy with rfl | hy
      · rw [hi.nodes]
        exact hr.nodes s (mem_states_self h s) q hq
      · exact hr.nodes y hy q hq
    · obtain ⟨y, hy, hsent⟩ := hr.sent x (hi.network x hx)
      exact ⟨y, mem_states_of_mem hy, hsent⟩
  · have hok := hn.ok
    have hnet := hn.network
    have hp := hn.mem
    rw [hr.ids_eq] at hok hnet hp
    refine ⟨hn.ids.trans hr.ids_eq, fun y hy q hq => ?_, fun x hx => ?_⟩
    · rcases mem_states_cons.1 hy with rfl | hy
      · by_cases hqp : q = p
        · rw [hqp]; exact hok
        · rw [hn.others q hqp]
          exact hr.nodes s (mem_states_self h s) q hq
      · exact hr.nodes y hy q hq
    · rcases hnet x hx with hx | hx
      · obtain ⟨y, hy, hsent⟩ := hr.sent x hx
        exact ⟨y, mem_states_of_mem hy, hsent⟩
      · exact ⟨s', mem_states_self _ _, p, hp, hx.1⟩

theorem Run.recorded (hr : Run ndebug ids good h s) : Recorded ids h s := by
  refine hr.invariant ⟨rfl, fun y hy p _ => ?_, fun x hx => by cases hx⟩
    fun h s e s' _ ih _ hs => ih.step hs
  obtain rfl : y = Cluster.init ids := by simpa [states] using hy
  exact init_ok ids p

theorem Run.ids_eq (hr : Run ndebug ids good h s) : s.ids = ids := hr.recorded.ids_eq

theorem Run.node_ok (hr : Run ndebug ids good h s) {y : Cluster α} (hy : y ∈ states h s) {p : String}
    (hp : p ∈ ids) : (y.nodes p).Ok ids p := hr.recorded.nodes y hy p hp

theorem Run.sent (hr : Run ndebug ids good h s) {x : Envelope α} (hx : x ∈ s.network) :
    ∃ y ∈ states h s, ∃ p ∈ ids, Sent ids (y.nodes p) x := hr.recorded.sent x hx

/-- What a step of a run does. -/
theorem Run.step_cases (hr : Run ndebug ids good h s) (hs : s.step ndebug e = .ok s') :
    Idle s s' ∨ ∃ p m, NodeStep s e p m s' := hr.recorded.ok.step_cases hs

/-- **The representation invariant** of the storages over every run, duplicated messages
included. -/
theorem storage_representation (hr : Run ndebug ids good h s) :
    (∀ p ∈ ids, (s.nodes p).storage.Rep) ∧
    (∀ x ∈ s.network, ∀ r, x.message = .appendEntriesRequest r →
      Consecutive r.previousEntry.index r.entries) ∧
    ∀ e, s.step ndebug e ≠ .error .exit := by
  refine ⟨fun p hp => (hr.node_ok (mem_states_self h s) hp).rep, fun x hx r hm => ?_, fun e he => ?_⟩
  · have := hr.recorded.ok.messages x hx
    rw [hm] at this
    exact this.2
  · cases hr.recorded.ok.step_fault he

end

/-- An entry replicated to `b` by a request that is delivered twice. -/
theorem storage_representation_replicated : ∃ h, ∃ s : Cluster String,
    Run false ["a", "b", "c"] (fun _ _ => True) h s ∧
    (s.nodes "b").storage.entries = [⟨⟨1, 1⟩, "x"⟩] ∧ (∃ x ∈ s.network, x.destination = "b") ∧
    (∀ p ∈ ["a", "b", "c"], (s.nodes p).storage.Rep) ∧
    (∀ x ∈ s.network, ∀ r, x.message = .appendEntriesRequest r →
      Consecutive r.previousEntry.index r.entries) ∧
    ∀ e, s.step false e ≠ .error .exit := by
  obtain ⟨h, s, hr, hb, hx⟩ := exists_trace (Cluster.step (α := String) false)
    (fun _ _ => True) (Cluster.init ["a", "b", "c"])
    [.timeout "a", .deliver 0, .deliver 1, .deliver 1, .deliver 2,
      .clientRequest "a" ⟨"client", "1", "x"⟩, .duplicate 2, .deliver 3]
    (P := fun _ s => (s.nodes "b").storage.entries = [⟨⟨1, 1⟩, "x"⟩] ∧
      ∃ x ∈ s.network, x.destination = "b")
    (by decide +kernel)
  exact ⟨h, s, hr, hb, hx, storage_representation hr⟩

end Raft
