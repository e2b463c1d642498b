import Runos.Lib.Fallible
import Runos.Raft.Proof.Logs

/-!
# The log of a leader

Every handler can run at a leader, that of `AppendEntriesRequest` included. A request of the same
term is kept away from the storage by `leader_id` alone: a leader with a non-empty id is its own
`leader_id` (`Run.leadsItself`) and drops the requests of every other node. The empty id stands for
"no leader" in `leader_id`, so a leader of that name takes the requests of another
(`leader_append_only_unnamed`).
-/

namespace Raft

open Runs Fallible

variable {α : Type}

/-- A leader takes itself for the leader. -/
def Server.LeadsItself (n : Server α) : Prop :=
  n.state.role = .leader → n.state.leaderId = n.state.id

/-! ## Inputs of the nodes of a cluster -/

/-- The message an input is, if any. -/
def Input.message? : Input α → Option (Message α)
  | .timeout => none
  | .minimumTimeout => none
  | .clientRequest r => some (.clientRequest r)
  | .message m => some m

section
variable {ids : List String} {id p : String} {n : Server α} {ndebug : Bool} {s s' : Cluster α}
  {e : Event α}

/-- The handler an event runs, over a cluster that differs in the network alone. -/
theorem Cluster.step_eq_act (ndebug : Bool) {input : Input α} (h : s.input e = some (p, input)) :
    ∃ s₁ : Cluster α, s₁.nodes = s.nodes ∧ s₁.ids = s.ids ∧
      s.step ndebug e = s₁.act p (·.handle ndebug input) := by
  cases e with
  | timeout q => cases h; exact ⟨s, rfl, rfl, rfl⟩
  | minimumTimeout q => cases h; exact ⟨s, rfl, rfl, rfl⟩
  | clientRequest q r => cases h; exact ⟨s, rfl, rfl, rfl⟩
  | deliver k =>
    rw [Cluster.input] at h
    cases hk : s.network[k]? with
    | none => rw [hk] at h; cases h
    | some x =>
      rw [hk] at h
      cases h
      exact ⟨{ s with network := s.network.eraseIdx k }, rfl, rfl,
        by simp only [Cluster.step, hk]; rfl⟩
  | lose k => cases h
  | duplicate k => cases h

/-- An event no handler takes changes no node. -/
theorem Cluster.step_of_no_input (hin : s.input e = none) (h : s.step ndebug e = .ok s') :
    s'.nodes = s.nodes := by
  cases e with
  | timeout q => cases hin
  | minimumTimeout q => cases hin
  | clientRequest q r => cases hin
  | deliver k =>
    simp only [Cluster.step] at h
    split at h
    · cases h; rfl
    · rename_i x hx
      rw [Cluster.input, hx] at hin
      cases hin
  | lose k => cases h; rfl
  | duplicate k =>
    simp only [Cluster.step] at h
    split at h <;> cases h <;> rfl

/-- The node an event concerns is the one its handler leaves; no other changes. -/
theorem Cluster.step_handle {input : Input α} (hin : s.input e = some (p, input))
    (h : s.step ndebug e = .ok s') :
    (p ∈ s.ids → ∃ cbs, (s.nodes p).handle ndebug input = .ok (s'.nodes p, cbs)) ∧
      ∀ q, q ≠ p ∨ p ∉ s.ids → s'.nodes q = s.nodes q := by
  obtain ⟨s₁, hnodes, hids, hact⟩ := Cluster.step_eq_act ndebug hin
  rw [hact, Cluster.act, hids, hnodes] at h
  split at h
  · rename_i hp
    obtain ⟨⟨n, cbs⟩, ho, h⟩ := bind_ok h
    cases h
    refine ⟨fun _ => ⟨cbs, by simpa using ho⟩, fun q hq => ?_⟩
    exact Function.update_of_ne (hq.resolve_right (absurd hp)) _ _
  · rename_i hp
    cases h
    exact ⟨fun hp' => absurd hp' hp, fun q _ => by rw [hnodes]⟩

/-- A node that a step changes has handled the input of the event. -/
theorem Cluster.step_input (h : s.step ndebug e = .ok s') (p : String) :
    s'.nodes p = s.nodes p ∨ p ∈ s.ids ∧ ∃ input cbs, s.input e = some (p, input) ∧
      (s.nodes p).handle ndebug input = .ok (s'.nodes p, cbs) := by
  cases hin : s.input e with
  | none => exact .inl (by rw [Cluster.step_of_no_input hin h])
  | some x =>
    obtain ⟨q, input⟩ := x
    obtain ⟨hat, hother⟩ := Cluster.step_handle hin h
    by_cases hq : p = q ∧ q ∈ s.ids
    · obtain ⟨rfl, hq⟩ := hq
      obtain ⟨cbs, ho⟩ := hat hq
      exact .inr ⟨hq, input, cbs, rfl, ho⟩
    · exact .inl (hother p (Classical.not_and_iff_not_or_not.1 hq))

theorem Cluster.input_message {m : Message α} (h : s.input e = some (p, .message m)) :
    (⟨p, m⟩ : Envelope α) ∈ s.network := by
  cases e with
  | deliver k =>
    obtain ⟨x, hx, heq⟩ := Option.map_eq_some_iff.1 h
    cases heq
    exact List.mem_of_getElem? hx
  | _ => cases h

/-- A client request comes from a client or from another node. -/
theorem Cluster.input_clientRequest {input : Input α} {r : ClientRequest α}
    (h : s.input e = some (p, input)) (hm : input.message? = some (.clientRequest r)) :
    e = .clientRequest p r ∨ s.delivered e = some ⟨p, .clientRequest r⟩ := by
  cases e with
  | clientRequest q r' => cases h; cases hm; exact .inl rfl
  | deliver k =>
    obtain ⟨⟨q, msg⟩, hx, heq⟩ := Option.map_eq_some_iff.1 h
    cases heq
    cases hm
    exact .inr hx
  | timeout q => cases h; cases hm
  | minimumTimeout q => cases h; cases hm
  | lose k => cases h
  | duplicate k => cases h

/-- An input of a node of the cluster is handled, or the assertion on the commit terms fails. -/
theorem handle_handled (ndebug : Bool) {input : Input α} (hn : n.Ok ids id)
    (hm : ∀ m, input = .message m → MessageOk ids m) :
    (∃ o, n.handle ndebug input = .ok o ∧ Handled ids id n input.message? o) ∨
      n.handle ndebug input = .error .assertion := by
  cases input with
  | timeout => exact .inl ⟨_, rfl, timeout_handled hn⟩
  | minimumTimeout => exact .inl ⟨_, rfl, onMinimumTimeoutRequest_handled hn⟩
  | clientRequest r => exact .inl (onClientRequest_handled hn r)
  | message m => exact receive_handled ndebug hn (hm m rfl)

/-! ## The leader id of a leader -/

theorem leadsItself_follower {n' : Server α} (h : n'.state.role = .follower) : n'.LeadsItself := by
  intro hl
  rw [h] at hl
  cases hl

theorem timeout_leadsItself (h : n.LeadsItself) : n.timeout.1.LeadsItself := by
  unfold Server.timeout
  split
  · exact h
  · intro hl; cases hl

theorem onVoteRequest_leadsItself (h : n.LeadsItself) (r : VoteRequest) :
    (n.onVoteRequest r).1.LeadsItself := by
  have answer : ∀ n₁ : Server α, n₁.LeadsItself → (n₁.answerVote r).1.LeadsItself := by
    intro n₁ h₁
    have hdown := stepDown_role n₁ r.header.term
    unfold Server.answerVote
    dsimp only
    split
    · exact h₁
    split
    · exact h₁
    split
    · exact leadsItself_follower hdown
    · exact leadsItself_follower hdown
  unfold Server.onVoteRequest
  dsimp only
  split
  · exact h
  split
  · exact answer _ h
  · exact answer _ h

theorem onVoteResponse_leadsItself (h : n.LeadsItself) {r : VoteResponse} {o : Outcome α}
    (ho : n.onVoteResponse r = .ok o) : o.1.LeadsItself := by
  unfold Server.onVoteResponse at ho
  dsimp only at ho
  split at ho
  · cases ho
  split at ho
  · split at ho <;> cases ho <;> exact h
  split at ho
  · cases ho; exact leadsItself_follower (stepDown_role _ _)
  split at ho
  · cases ho; exact h
  split at ho
  · cases ho; exact fun _ => rfl
  · cases ho; exact h

theorem onAppendEntriesResponse_leadsItself (h : n.LeadsItself) {r : AppendEntriesResponse}
    {o : Outcome α} (ho : n.onAppendEntriesResponse r = .ok o) : o.1.LeadsItself := by
  unfold Server.onAppendEntriesResponse at ho
  dsimp only at ho
  split at ho
  · cases ho; exact h
  split at ho
  · cases ho; exact h
  split at ho
  · cases ho; exact h
  split at ho
  · cases ho; exact leadsItself_follower (stepDown_role _ _)
  split at ho
  · cases ho; exact h
  split at ho
  · obtain ⟨_, -, ho⟩ := bind_ok ho
    obtain ⟨_, -, ho⟩ := bind_ok ho
    cases ho; exact h
  split at ho
  · obtain ⟨index, -, ho⟩ := bind_ok ho
    dsimp only at ho
    split at ho
    · obtain ⟨_, -, ho⟩ := bind_ok ho
      cases ho; exact h
    · cases ho; exact h
  · cases ho; exact h

theorem onClientRequest_leadsItself (h : n.LeadsItself) {r : ClientRequest α} {o : Outcome α}
    (ho : n.onClientRequest r = .ok o) : o.1.LeadsItself := by
  unfold Server.onClientRequest at ho
  split at ho
  · split at ho <;> cases ho <;> exact h
  · cases ho; exact h
  · obtain ⟨_, -, ho⟩ := bind_ok ho
    dsimp only at ho
    split at ho
    · cases ho
    · obtain ⟨_, -, ho⟩ := bind_ok ho
      cases ho; exact h

/-- A leader that is its own leader id takes no append request of its term, so it leads no more
once it has taken one. -/
theorem Server.LeadsItself.request_role (h : n.LeadsItself) {r : AppendEntriesRequest α}
    {role : Role} (hne : n.state.id ≠ "") (hpeer : r.header.peerId ≠ n.state.id)
    (hterm : n.storage.currentTerm ≤ r.header.term)
    (hleader : n.storage.currentTerm = r.header.term →
      n.state.leaderId = r.header.peerId ∨ n.state.leaderId = "")
    (hrole : role = if n.storage.currentTerm < r.header.term then .follower else n.state.role) :
    role ≠ .leader := by
  intro hl
  by_cases hlt : n.storage.currentTerm < r.header.term
  · rw [if_pos hlt, hl] at hrole
    cases hrole
  · rw [if_neg hlt, hl] at hrole
    have hself := h hrole.symm
    rcases hleader (by omega) with hlead | hlead
    · exact hpeer (hlead.symm.trans hself)
    · exact hne (hself.symm.trans hlead)

theorem onAppendEntriesRequest_leadsItself {r : AppendEntriesRequest α} {o : Outcome α}
    (hn : n.Ok ids id) (hne : id ≠ "") (hm : MessageOk ids (.appendEntriesRequest r))
    (h : n.LeadsItself) (ho : n.onAppendEntriesRequest ndebug r = .ok o) : o.1.LeadsItself := by
  obtain ⟨hpd, hes⟩ := hm
  rcases onAppendEntriesRequest_cases ndebug hn r with ⟨-, hx⟩ | ⟨⟨hd, -⟩, ⟨-, hx⟩ | ⟨-, hx⟩ |
    ⟨n₁, cbs, hfol, -, -, hx⟩⟩
  · cases ho.symm.trans hx; exact h
  · cases ho.symm.trans hx; exact h
  · cases ho.symm.trans hx; exact h
  · rw [ho] at hx
    have hrole : n₁.state.role ≠ .leader :=
      h.request_role (by rw [hn.id]; exact hne) (by rw [← hd]; exact hpd) hfol.term hfol.leader
        hfol.role
    have done : ∀ n₂ : Server α, n₂.state.role = n₁.state.role → n₂.LeadsItself :=
      fun n₂ he hl => absurd (he.symm.trans hl) hrole
    obtain ha | ha | ⟨-, ha | ⟨cbs', ha, -⟩⟩ := acceptEntries_cases hfol.ok.rep hes
      (rfl : n₁.acceptEntries ndebug r _ = _)
    · rw [ha] at hx; cases hx; exact done _ rfl
    · rw [ha] at hx; cases hx; exact done _ rfl
    · rw [ha] at hx; cases hx
    · rw [ha] at hx; cases hx; exact done _ rfl

theorem handle_leadsItself {input : Input α} {o : Outcome α} (hn : n.Ok ids id) (hne : id ≠ "")
    (hm : ∀ m, input = .message m → MessageOk ids m) (h : n.LeadsItself)
    (ho : n.handle ndebug input = .ok o) : o.1.LeadsItself := by
  cases input with
  | timeout => cases ho; exact timeout_leadsItself h
  | minimumTimeout => cases ho; exact h
  | clientRequest r => exact onClientRequest_leadsItself h ho
  | message m =>
    have hm := hm m rfl
    cases m with
    | voteRequest r => cases ho; exact onVoteRequest_leadsItself h r
    | voteResponse r => exact onVoteResponse_leadsItself h ho
    | appendEntriesRequest r => exact onAppendEntriesRequest_leadsItself hn hne hm h ho
    | appendEntriesResponse r => exact onAppendEntriesResponse_leadsItself h ho
    | clientRequest r => exact onClientRequest_leadsItself h ho

end

/-! ## Runs -/

section
variable {ndebug : Bool} {ids : List String} {good : Cluster α → Event α → Prop}
  {h : List (Cluster α × Event α)} {s s' : Cluster α} {e : Event α} {p : String}

theorem Run.input_ok (hr : Run ndebug ids good h s) {input : Input α}
    (hin : s.input e = some (p, input)) : ∀ m, input = .message m → MessageOk ids m := by
  rintro m rfl
  have := hr.recorded.ok.messages _ (Cluster.input_message hin)
  rwa [hr.ids_eq] at this

theorem Run.leadsItself (hr : Run ndebug ids good h s) (hne : p ≠ "") :
    (s.nodes p).LeadsItself := by
  induction hr with
  | nil => exact fun _ => rfl
  | @snoc h s s' e hr hok hs ih =>
    rcases Cluster.step_input hs p with heq | ⟨hp, input, cbs, hin, ho⟩
    · rw [heq]; exact ih
    · rw [Run.ids_eq hr] at hp
      exact handle_leadsItself (Run.node_ok hr (mem_states_self h s) hp) hne
        (Run.input_ok hr hin) ih ho

/-- **Leader append-only**, over every run: while a node with a non-empty id leads a term, only
client requests change its log, and each appends one entry of the term. -/
theorem leader_append_only (hr : Run ndebug ids good h s) (hs : s.step ndebug e = .ok s')
    (hp : p ∈ ids) (hne : p ≠ "") (hl : s.role p = .leader) (hl' : s'.role p = .leader)
    (_ht : s'.term p = s.term p) :
    s.log p <+: s'.log p ∧ (s'.log p = s.log p ∨ ∃ request,
      (e = .clientRequest p request ∨ s.delivered e = some ⟨p, .clientRequest request⟩) ∧
      s'.log p = s.log p ++
        [⟨⟨(s.nodes p).storage.uncommit.index + 1, s.term p⟩, request.data⟩]) := by
  have hok := hr.node_ok (mem_states_self h s) hp
  rcases Cluster.step_input hs p with heq | ⟨-, input, cbs, hin, ho⟩
  · rw [Cluster.log, Cluster.log, heq]
    exact ⟨List.prefix_refl _, .inl rfl⟩
  have hmsg := hr.input_ok hin
  have same : s'.log p = s.log p → s.log p <+: s'.log p ∧ (s'.log p = s.log p ∨ ∃ request,
      (e = .clientRequest p request ∨ s.delivered e = some ⟨p, .clientRequest request⟩) ∧
      s'.log p = s.log p ++
        [⟨⟨(s.nodes p).storage.uncommit.index + 1, s.term p⟩, request.data⟩]) :=
    fun hlog => ⟨by rw [hlog], .inl hlog⟩
  rcases handle_handled ndebug hok hmsg with ⟨o, ho', hd⟩ | hf
  swap
  · rw [ho] at hf; cases hf
  cases ho.symm.trans ho'
  have hmoves := hd.moves
  generalize hm : input.message? = m at hmoves
  cases hmoves with
  | quiet hst => exact same (congrArg MemStorage.entries hst)
  | stepDown _ _ hst => exact same (congrArg MemStorage.entries hst :)
  | candidacy hrole => exact absurd hl hrole
  | grant _ _ hst => exact same (congrArg MemStorage.entries hst :)
  | vote _ hst => exact same (congrArg MemStorage.entries hst)
  | @accept _ r ha hrole =>
    -- the request of another leader of the term
    have hmsg' : MessageOk ids (.appendEntriesRequest r : Message α) := by
      cases input with
      | message m => cases hm; exact hmsg _ rfl
      | _ => cases hm
    have hpd : r.header.peerId ≠ (s.nodes p).state.id := by
      rw [← ha.destination]
      exact hmsg'.1
    exact absurd hl' ((hr.leadsItself hne).request_role (by rw [hok.id]; exact hne) hpd ha.term
      ha.leader hrole)
  | ack _ _ _ _ hst => exact same (by rw [Cluster.log, hst]; split <;> rfl)
  | @append _ r _ _ hst =>
    have hlog : s'.log p = s.log p ++
        [⟨⟨(s.nodes p).storage.uncommit.index + 1, s.term p⟩, r.data⟩] := by
      rw [Cluster.log, hst, hok.rep.uncommit_index]
      simp [MemStorage.appended, MemStorage.spliced, splice, Cluster.log, Cluster.term]
    refine ⟨by rw [hlog]; exact List.prefix_append _ _, .inr ⟨r, ?_, hlog⟩⟩
    exact Cluster.input_clientRequest hin hm

end

/-- The leader `a` of term 1 takes a client request. -/
theorem leader_append_only_request : ∃ s s' : Cluster String, ∃ h e,
    Run false ["a", "b", "c"] (fun _ _ => True) h s ∧ s.step false e = .ok s' ∧
    s.log "a" = [] ∧ s'.log "a" = [⟨⟨1, 1⟩, "x"⟩] ∧
    s.log "a" <+: s'.log "a" ∧ (s'.log "a" = s.log "a" ∨ ∃ request,
      (e = .clientRequest "a" request ∨ s.delivered e = some ⟨"a", .clientRequest request⟩) ∧
      s'.log "a" = s.log "a" ++
        [⟨⟨(s.nodes "a").storage.uncommit.index + 1, s.term "a"⟩, request.data⟩]) := by
  obtain ⟨h, s', hr, hl', ht', hlog', hh⟩ := exists_trace (Cluster.step (α := String) false)
    (fun _ _ => True) (Cluster.init ["a", "b", "c"])
    [.timeout "a", .deliver 0, .deliver 1, .clientRequest "a" ⟨"client", "1", "x"⟩]
    (P := fun h s' => s'.role "a" = .leader ∧ s'.term "a" = 1 ∧ s'.log "a" = [⟨⟨1, 1⟩, "x"⟩] ∧
      ∃ y ∈ h.head?, y.1.role "a" = .leader ∧ y.1.term "a" = 1 ∧ y.1.log "a" = [])
    (by decide +kernel)
  cases hr with
  | nil => simp at hh
  | @snoc h s _ e hr hok hs =>
    obtain ⟨_, ⟨⟩, hl, ht, hlog⟩ := hh
    exact ⟨s, s', h, e, hr, hs, hlog, hlog', leader_append_only hr hs (by decide) (by decide) hl hl'
      (ht'.trans ht.symm)⟩

/-- The leader with the empty id, which takes `c`, the other leader of term 2, for its leader,
appends an entry of `c`. -/
theorem leader_append_only_unnamed : ∃ s s' : Cluster String, ∃ h e,
    Run false ["", "b", "c"] (fun _ e => e.isDuplicate = false) h s ∧ s.step false e = .ok s' ∧
    s.role "" = .leader ∧ s'.role "" = .leader ∧ s.term "" = 2 ∧ s'.term "" = 2 ∧
    (∃ r, s.delivered e = some ⟨"", .appendEntriesRequest r⟩) ∧
    s.log "" = [] ∧ s'.log "" = [⟨⟨1, 2⟩, "x"⟩] := by
  obtain ⟨h, s', hr, hl', ht', hlog', hh⟩ := exists_trace (Cluster.step (α := String) false)
    (fun _ e => e.isDuplicate = false) (Cluster.init ["", "b", "c"])
    [.timeout "", .deliver 0, .timeout "", .deliver 1, .timeout "c", .timeout "c", .deliver 8,
      .deliver 8, .deliver 8, .deliver 9, .clientRequest "c" ⟨"client", "1", "x"⟩, .deliver 9]
    (P := fun h s' => s'.role "" = .leader ∧ s'.term "" = 2 ∧ s'.log "" = [⟨⟨1, 2⟩, "x"⟩] ∧
      ∃ y ∈ h.head?, y.1.role "" = .leader ∧ y.1.term "" = 2 ∧ y.1.log "" = [] ∧
        y.1.delivered y.2 = some ⟨"", .appendEntriesRequest
          ⟨⟨"c", "", 4, 2, ⟨⟨0, 0⟩, ⟨1, 2⟩⟩⟩, ⟨0, 0⟩, [⟨⟨1, 2⟩, "x"⟩]⟩⟩)
    (by decide +kernel)
  cases hr with
  | nil => simp at hh
  | @snoc h s _ e hr hok hs =>
    obtain ⟨_, ⟨⟩, hl, ht, hlog, hd⟩ := hh
    exact ⟨s, s', h, e, hr, hs, hl, hl', ht, ht', ⟨_, hd⟩, hlog, hlog'⟩

end Raft
