import Runos.Raft.Clients
import Runos.Raft.Proof.AppendOnly

/-!
# What the clients are told

`commit_advanced` broadcasts the infos of the entries `watermark_index_, …, commit_index - 1`, and
the watermark starts at `0`: the first broadcast names the info `{0,0}` of no entry, and the entry
that has just been committed is not among them. Every handler calls `commit_advanced` exactly when
it moves the commit entry, with a positive index (`handle_reports`), so a node tells its clients
about its committed entries exactly until the first of them is committed
(`broadcasts_committed_iff`).
-/

namespace Raft

open Runs Fallible

variable {α : Type}

/-! ## The calls of the handlers -/

/-- The indexes `commit_advanced` is called with. -/
def commits (callbacks : List (Callback α)) : List Nat :=
  callbacks.filterMap fun
    | .commitAdvanced commitIndex => some commitIndex
    | _ => none

@[simp] theorem commits_append (cs cs' : List (Callback α)) :
    commits (cs ++ cs') = commits cs ++ commits cs' := by simp [commits]

@[simp] theorem commits_broadcast (id : String) (peers : List Peer) (message : Peer → Message α) :
    commits (Server.broadcast id peers message) = [] := by
  simp [commits, Server.broadcast]

/-- The commit entry moves only with a call of `commit_advanced`. There is one call at most, with
an index above the commit index, and no session is dropped by the handler that makes it. -/
def Reports (n : Server α) (o : Outcome α) : Prop :=
  commits o.2 = [] ∧ o.1.storage.commit = n.storage.commit ∨
    ∃ k, commits o.2 = [k] ∧ n.storage.commit.index < k ∧ ∀ q, .drop q ∉ o.2

section
variable {n : Server α} {o : Outcome α} {ndebug : Bool}

theorem append_commit {st st' : MemStorage α} {es : List (Entry α)} {info : EntryInfo}
    (h : st.append es = .ok (st', info)) : st'.commit = st.commit := by
  cases es with
  | nil => cases h; rfl
  | cons front rest =>
    obtain ⟨kept, -, h⟩ := bind_ok h
    cases h
    rfl

theorem answerVote_reports (n : Server α) (r : VoteRequest) : Reports n (n.answerVote r) := by
  unfold Server.answerVote
  dsimp only
  split
  · exact .inl ⟨rfl, rfl⟩
  · split
    · exact .inl ⟨rfl, rfl⟩
    · split <;> exact .inl ⟨rfl, rfl⟩

theorem onVoteRequest_reports (n : Server α) (r : VoteRequest) :
    Reports n (n.onVoteRequest r) := by
  unfold Server.onVoteRequest
  dsimp only
  split
  · exact .inl ⟨rfl, rfl⟩
  · split
    · exact answerVote_reports (n.modifyPeer _ _) r
    · exact answerVote_reports n r

theorem becomeLeader_reports (n : Server α) : Reports n n.becomeLeader := by
  refine .inl ⟨?_, rfl⟩
  unfold Server.becomeLeader
  dsimp only
  simp only [commits_append, commits_broadcast]
  split <;> rfl

theorem onVoteResponse_reports {r : VoteResponse} (h : n.onVoteResponse r = .ok o) :
    Reports n o := by
  unfold Server.onVoteResponse at h
  dsimp only at h
  split at h
  · cases h
  · split at h
    · split at h <;> cases h <;> exact .inl ⟨rfl, rfl⟩
    · split at h
      · cases h; exact .inl ⟨rfl, rfl⟩
      · split at h
        · cases h; exact .inl ⟨rfl, rfl⟩
        · split at h <;> cases h
          · exact becomeLeader_reports _
          · exact .inl ⟨rfl, rfl⟩

theorem acceptEntries_reports {r : AppendEntriesRequest α} {response : AppendEntriesResponse}
    (h : n.acceptEntries ndebug r response = .ok o) : Reports n o := by
  unfold Server.acceptEntries at h
  dsimp only at h
  split at h
  · cases h; exact .inl ⟨rfl, rfl⟩
  · split at h
    · cases h; exact .inl ⟨rfl, rfl⟩
    · split at h
      · cases h; exact .inl ⟨rfl, rfl⟩
      · obtain ⟨⟨st, info⟩, ha, h⟩ := bind_ok h
        have hcommit := append_commit ha
        dsimp only at h
        split at h
        · rename_i hlt
          split at h
          · cases h
          · obtain ⟨st', -, h⟩ := bind_ok h
            cases h
            exact .inr ⟨_, rfl, hcommit ▸ hlt, by simp⟩
        · cases h
          exact .inl ⟨rfl, hcommit⟩

theorem Reports.newLeaderElected {id : String} {o : Outcome α} (h : Reports n o) :
    Reports n (o.1, .newLeaderElected id :: o.2) := by
  rcases h with h | ⟨k, hk, hlt, hq⟩
  · exact .inl h
  · exact .inr ⟨k, hk, hlt, by simpa using hq⟩

theorem Reports.of_stepDown {t : Nat} (h : Reports (n.stepDown t) o) : Reports n o := h

theorem onAppendEntriesRequest_reports {r : AppendEntriesRequest α}
    (h : n.onAppendEntriesRequest ndebug r = .ok o) : Reports n o := by
  unfold Server.onAppendEntriesRequest at h
  dsimp only at h
  split at h
  · cases h; exact .inl ⟨rfl, rfl⟩
  · split at h
    · cases h; exact .inl ⟨rfl, rfl⟩
    · split at h
      · split at h
        · obtain ⟨o', ha, h⟩ := bind_ok h
          cases h
          exact (acceptEntries_reports ha).newLeaderElected
        · exact (acceptEntries_reports h).of_stepDown
      · split at h
        · split at h
          · obtain ⟨o', ha, h⟩ := bind_ok h
            cases h
            exact (acceptEntries_reports ha).newLeaderElected
          · cases h; exact .inl ⟨rfl, rfl⟩
        · exact acceptEntries_reports h

theorem onAppendEntriesResponse_reports {r : AppendEntriesResponse}
    (h : n.onAppendEntriesResponse r = .ok o) : Reports n o := by
  unfold Server.onAppendEntriesResponse at h
  dsimp only at h
  split at h
  · cases h; exact .inl ⟨rfl, rfl⟩
  · split at h
    · cases h; exact .inl ⟨rfl, rfl⟩
    · split at h
      · cases h; exact .inl ⟨rfl, rfl⟩
      · split at h
        · cases h; exact .inl ⟨rfl, rfl⟩
        · split at h
          · cases h; exact .inl ⟨rfl, rfl⟩
          · split at h
            · obtain ⟨info, -, h⟩ := bind_ok h
              obtain ⟨es, -, h⟩ := bind_ok h
              cases h
              exact .inl ⟨rfl, rfl⟩
            · split at h
              · obtain ⟨k, -, h⟩ := bind_ok h
                dsimp only at h
                split at h
                · rename_i hlt
                  obtain ⟨st, -, h⟩ := bind_ok h
                  cases h
                  exact .inr ⟨k, rfl, hlt, by simp⟩
                · cases h; exact .inl ⟨rfl, rfl⟩
              · cases h; exact .inl ⟨rfl, rfl⟩

theorem replicateTo_commits {newIndex : Nat} {req req' : AppendEntriesRequest α} {p p' : Peer}
    {cbs : List (Callback α)} (h : n.replicateTo newIndex req p = .ok (req', p', cbs)) :
    commits cbs = [] := by
  unfold Server.replicateTo at h
  split at h
  · cases h; rfl
  · split at h
    · cases h; rfl
    · dsimp only at h
      split at h
      · obtain ⟨info, -, h⟩ := bind_ok h
        obtain ⟨es, -, h⟩ := bind_ok h
        cases h
        rfl
      · cases h; rfl

theorem replicate_commits {newIndex : Nat} {ps ps' : List Peer} {cbs : List (Callback α)} :
    ∀ {req : AppendEntriesRequest α}, n.replicate newIndex req ps = .ok (ps', cbs) →
      commits cbs = [] := by
  induction ps generalizing ps' cbs with
  | nil => intro req h; cases h; rfl
  | cons p ps ih =>
    intro req h
    obtain ⟨⟨req', p', here⟩, hp, h⟩ := bind_ok h
    obtain ⟨⟨ps'', rest⟩, hps, h⟩ := bind_ok h
    cases h
    rw [commits_append, replicateTo_commits hp, ih hps]
    rfl

theorem onClientRequest_reports {r : ClientRequest α} (h : n.onClientRequest r = .ok o) :
    Reports n o := by
  unfold Server.onClientRequest at h
  split at h
  · split at h <;> cases h <;> exact .inl ⟨rfl, rfl⟩
  · cases h; exact .inl ⟨rfl, rfl⟩
  · obtain ⟨⟨st, info⟩, ha, h⟩ := bind_ok h
    dsimp only at h
    split at h
    · cases h
    · obtain ⟨⟨ps, cbs⟩, hs, h⟩ := bind_ok h
      cases h
      refine .inl ⟨?_, append_commit ha⟩
      rw [commits_append, replicate_commits hs]
      rfl

theorem handle_reports {input : Input α} (h : n.handle ndebug input = .ok o) : Reports n o := by
  cases input with
  | timeout =>
    cases h
    unfold Server.timeout
    split
    · refine .inl ⟨?_, rfl⟩
      rw [Server.onHeartbeatRequest, commits_append, commits_broadcast]
      rfl
    · refine .inl ⟨?_, rfl⟩
      rw [Server.onTimeoutRequest, commits_append, commits_broadcast]
      rfl
  | minimumTimeout => cases h; exact .inl ⟨rfl, rfl⟩
  | clientRequest r => exact onClientRequest_reports h
  | message m =>
    cases m with
    | voteRequest r => cases h; exact onVoteRequest_reports n r
    | voteResponse r => exact onVoteResponse_reports h
    | appendEntriesRequest r => exact onAppendEntriesRequest_reports h
    | appendEntriesResponse r => exact onAppendEntriesResponse_reports h
    | clientRequest r => exact onClientRequest_reports h

end

/-! ## The client side of a node -/

namespace Clients

section
variable {st : MemStorage α} {c c' : Clients}

/-- The passes of the loop, over a storage in its representation. -/
theorem announce_eq (h : st.Rep) (n : Nat) (c : Clients) :
    c.announce st n = .ok { c with
      broadcasts := c.broadcasts ++
        (List.range' c.watermarkIndex n).map fun k => ⟨infoAt st.entries k, c.allClients⟩
      watermarkIndex := c.watermarkIndex + n } := by
  induction n generalizing c with
  | zero => simp [announce]
  | succ n ih =>
    rw [announce, h.getEntryInfo]
    simp only [bind, Except.bind, ih, List.range'_succ, List.map_cons, List.append_assoc,
      List.singleton_append]
    rw [Nat.add_assoc, Nat.add_comm 1 n]

/-- What `commit_advanced` does while some client is connected. -/
theorem commitAdvanced_eq (h : st.Rep) (hstop : c.stop = false) (hc : c.allClients ≠ []) (k : Nat) :
    c.commitAdvanced st k = .ok { c with
      broadcasts := c.broadcasts ++ (List.range' c.watermarkIndex (k - c.watermarkIndex)).map
        fun k => ⟨infoAt st.entries k, c.allClients⟩
      watermarkIndex := c.watermarkIndex + (k - c.watermarkIndex) } := by
  rw [commitAdvanced, if_neg (by simp [hstop, hc]), announce_eq h]

/-- What was broadcast, and how far. -/
def told (c : Clients) : List Broadcast × Nat := (c.broadcasts, c.watermarkIndex)

@[simp] theorem told_accept (c : Clients) (id : String) : (c.accept id).told = c.told := by
  unfold accept
  split
  · rfl
  · split <;> rfl

@[simp] theorem told_stopAll (c : Clients) : c.stopAll.told = c.told := by
  unfold stopAll
  split <;> rfl

@[simp] theorem told_drop (c : Clients) (id : String) : (c.drop id).told = c.told := by
  unfold drop
  split
  · rfl
  · split <;> rfl

theorem callbacks_silent {cbs : List (Callback α)} (hcbs : commits cbs = [])
    (h : c.callbacks st cbs = .ok c') : c'.told = c.told := by
  induction cbs generalizing c with
  | nil => cases h; rfl
  | cons cb cbs ih =>
    cases cb with
    | commitAdvanced k => cases hcbs
    | drop q => rw [ih hcbs h, told_drop]
    | _ => exact ih hcbs h

theorem callbacks_eq {cbs : List (Callback α)} (hdrop : ∀ q, .drop q ∉ cbs) {k : Nat}
    (hcbs : commits cbs = [k]) (c : Clients) : c.callbacks st cbs = c.commitAdvanced st k := by
  have rest : ∀ {cbs : List (Callback α)}, (∀ q, .drop q ∉ cbs) → commits cbs = [] →
      ∀ c : Clients, c.callbacks st cbs = .ok c := by
    intro cbs hdrop hcbs c
    induction cbs with
    | nil => rfl
    | cons cb cbs ih =>
      have hdrop' : ∀ q, .drop q ∉ cbs := fun q hq => hdrop q (List.mem_cons_of_mem _ hq)
      cases cb with
      | commitAdvanced k => cases hcbs
      | drop q => exact absurd List.mem_cons_self (hdrop q)
      | _ => exact ih hdrop' hcbs
  induction cbs with
  | nil => cases hcbs
  | cons cb cbs ih =>
    have hdrop' : ∀ q, .drop q ∉ cbs := fun q hq => hdrop q (List.mem_cons_of_mem _ hq)
    cases cb with
    | commitAdvanced k' =>
      obtain ⟨rfl, hnil⟩ : k' = k ∧ commits cbs = [] := by simpa [commits] using hcbs
      rw [callbacks]
      cases hadv : c.commitAdvanced st k' with
      | error f => rfl
      | ok c' => exact rest hdrop' hnil c'
    | drop q => exact absurd List.mem_cons_self (hdrop q)
    | _ => exact ih hdrop' hcbs

end

end Clients

/-! ## Runs -/

/-- The infos of the committed entries. -/
def MemStorage.committed (st : MemStorage α) : List EntryInfo :=
  (st.entries.take st.commit.index).map (·.info)

/-- An entry has a positive index. -/
theorem MemStorage.Rep.committed_pos {st : MemStorage α} (h : st.Rep) {info : EntryInfo}
    (hi : info ∈ st.committed) : 0 < info.index := by
  obtain ⟨entry, he, rfl⟩ := List.mem_map.1 hi
  obtain ⟨k, hk⟩ := List.mem_iff_getElem?.1 (List.mem_of_mem_take he)
  rw [h.index k entry hk]
  omega

namespace Service

/-- The indexes an event has `commit_advanced` called with at node `id`. -/
def reported (ndebug : Bool) (s : Service α) (id : String) : Event α → List Nat
  | .raft event =>
    match s.cluster.input event with
    | some (p, input) =>
      if p = id ∧ p ∈ s.cluster.ids then
        match (s.cluster.nodes p).handle ndebug input with
        | .ok o => commits o.2
        | .error _ => []
      else
        []
    | none => []
  | _ => []

/-- Node `id` runs, with a client session connected, whenever one of its handlers calls
`commit_advanced`. -/
def Attended (ndebug : Bool) (id : String) (s : Service α) (e : Event α) : Prop :=
  s.reported ndebug id e ≠ [] → (s.clients id).stop = false ∧ (s.clients id).allClients ≠ []

instance (ndebug : Bool) (id : String) (s : Service α) (e : Event α) :
    Decidable (Attended ndebug id s e) := inferInstanceAs (Decidable (_ → _))

/-- The clients of node `id` were told of its committed entries, each once and in order. -/
def Announced (s : Service α) (id : String) : Prop :=
  (s.clients id).broadcasts.map (·.entryInfo) = (s.cluster.nodes id).storage.committed

instance (s : Service α) (id : String) : Decidable (s.Announced id) :=
  inferInstanceAs (Decidable (_ = _))

section
variable {ndebug : Bool} {ids : List String} {id : String} {s s' : Service α} {e : Event α}

/-- The cluster of a service takes a step of its own, or none. -/
theorem step_cluster (h : s.step ndebug e = .ok s') :
    s'.cluster = s.cluster ∨ ∃ event, s.cluster.step ndebug event = .ok s'.cluster := by
  cases e with
  | raft event =>
    obtain ⟨cluster, hc, h⟩ := bind_ok h
    refine .inr ⟨event, ?_⟩
    rw [hc]
    split at h
    · cases h; rfl
    · obtain ⟨clients, -, h⟩ := bind_ok h
      cases h
      rfl
  | start p =>
    rw [step] at h
    split at h
    · obtain ⟨cluster, hc, h⟩ := bind_ok h
      cases h
      exact .inr ⟨_, hc⟩
    · cases h; exact .inl rfl
  | stop p => cases h; exact .inl rfl
  | accept p client => cases h; exact .inl rfl
  | drop p session => cases h; exact .inl rfl

theorem told_modifyClients (s : Service α) (p : String) {f : Clients → Clients}
    (hf : ∀ c, (f c).told = c.told) (id : String) :
    ((s.modifyClients p f).clients id).told = (s.clients id).told := by
  unfold modifyClients
  by_cases hp : id = p
  · subst hp
    simp [hf]
  · simp [hp]

/-- The handler that `start` runs keeps every storage. -/
theorem minimumTimeout_storage {t t' : Cluster α} {p : String}
    (h : t.step ndebug (.minimumTimeout p) = .ok t') (q : String) :
    (t'.nodes q).storage = (t.nodes q).storage := by
  rcases Cluster.step_input h q with hq | ⟨-, input, cbs, hin, ho⟩
  · rw [hq]
  · cases hin
    obtain ⟨hn, -⟩ := Prod.mk.inj (Except.ok.inj ho)
    rw [← hn]
    rfl

/-- A handler at node `id`: nothing is reported and nothing is told, or `commit_advanced` is called
once, over the storage the handler leaves. -/
theorem raft_cases {event : Raft.Event α} (h : s.step ndebug (.raft event) = .ok s')
    (id : String) :
    s.reported ndebug id (.raft event) = [] ∧
        (s'.cluster.nodes id).storage.commit = (s.cluster.nodes id).storage.commit ∧
        (s'.clients id).told = (s.clients id).told ∨
      ∃ k, s.reported ndebug id (.raft event) = [k] ∧
        (s.cluster.nodes id).storage.commit.index < k ∧
        (s.clients id).commitAdvanced (s'.cluster.nodes id).storage k = .ok (s'.clients id) := by
  obtain ⟨cluster, hc, h⟩ := bind_ok h
  cases hin : s.cluster.input event with
  | none =>
    rw [hin] at h
    cases h
    exact .inl ⟨by simp only [reported, hin], by rw [Cluster.step_of_no_input hin hc], rfl⟩
  | some x =>
    obtain ⟨p, input⟩ := x
    simp only [hin] at h
    obtain ⟨clients, hn, h⟩ := bind_ok h
    cases h
    obtain ⟨hat, hother⟩ := Cluster.step_handle hin hc
    simp only [reported, hin]
    rw [notify] at hn
    split at hn
    · rename_i hp
      obtain ⟨cbs, ho⟩ := hat hp
      obtain ⟨o, ho', hn⟩ := bind_ok hn
      rw [ho] at ho'
      cases ho'
      obtain ⟨c, hcb, hn⟩ := bind_ok hn
      cases hn
      by_cases hpid : p = id
      · subst hpid
        simp only [hp, and_self, if_true, ho, Function.update_self]
        rcases handle_reports ho with ⟨hnil, hcommit⟩ | ⟨k, hk, hlt, hdrop⟩
        · exact .inl ⟨hnil, hcommit, Clients.callbacks_silent hnil hcb⟩
        · exact .inr ⟨k, hk, hlt, by rw [← Clients.callbacks_eq hdrop hk]; exact hcb⟩
      · refine .inl ⟨by simp [hpid], by rw [hother id (.inl (Ne.symm hpid))], ?_⟩
        rw [Function.update_of_ne (Ne.symm hpid)]
    · rename_i hp
      cases hn
      exact .inl ⟨by simp [hp], by rw [hother id (.inr hp)], rfl⟩

/-- What a step does for node `id`. -/
theorem step_cases (h : s.step ndebug e = .ok s') (id : String) :
    s.reported ndebug id e = [] ∧
        (s'.cluster.nodes id).storage.commit = (s.cluster.nodes id).storage.commit ∧
        (s'.clients id).told = (s.clients id).told ∨
      ∃ k, s.reported ndebug id e = [k] ∧ (s.cluster.nodes id).storage.commit.index < k ∧
        (s.clients id).commitAdvanced (s'.cluster.nodes id).storage k = .ok (s'.clients id) := by
  cases e with
  | raft event => exact raft_cases h id
  | start p =>
    rw [step] at h
    split at h
    · obtain ⟨cluster, hc, h⟩ := bind_ok h
      cases h
      refine .inl ⟨rfl, by rw [minimumTimeout_storage hc], ?_⟩
      exact told_modifyClients s p (f := ({ · with stop := false })) (fun _ => rfl) id
    · cases h; exact .inl ⟨rfl, rfl, rfl⟩
  | stop p => cases h; exact .inl ⟨rfl, rfl, told_modifyClients s p (by simp) id⟩
  | accept p client => cases h; exact .inl ⟨rfl, rfl, told_modifyClients s p (by simp) id⟩
  | drop p session => cases h; exact .inl ⟨rfl, rfl, told_modifyClients s p (by simp) id⟩

/-- A run of a service is a run of its cluster. -/
theorem cluster_run {good : Service α → Event α → Prop} {h : List (Service α × Event α)}
    (hr : Trace (step ndebug) good (init ids) h s) :
    ∃ h', Run ndebug ids (fun _ _ => True) h' s.cluster := by
  refine hr.invariant_state (I := fun s => ∃ h', Run ndebug ids (fun _ _ => True) h' s.cluster)
    ⟨[], .nil⟩ fun s e s' ih _ hs => ?_
  obtain ⟨h', hrun⟩ := ih
  rcases step_cluster hs with heq | ⟨event, hc⟩
  · rw [heq]
    exact ⟨h', hrun⟩
  · exact ⟨_, hrun.snoc trivial hc⟩

theorem storage_rep {good : Service α → Event α → Prop} {h : List (Service α × Event α)}
    (hr : Trace (step ndebug) good (init ids) h s) (hid : id ∈ ids) :
    (s.cluster.nodes id).storage.Rep := by
  obtain ⟨h', hrun⟩ := cluster_run hr
  exact (hrun.node_ok (mem_states_self h' _) hid).rep

/-- Before the first call of `commit_advanced` nothing is committed and nothing is told; after it
the first broadcast names the info of no entry. -/
def FirstTold (ndebug : Bool) (id : String) (h : List (Service α × Event α)) (s : Service α) :
    Prop :=
  ((∀ x ∈ h, x.1.reported ndebug id x.2 = []) ∧
      (s.cluster.nodes id).storage.commit.index = 0 ∧ (s.clients id).told = ([], 0)) ∨
    (∃ x ∈ h, x.1.reported ndebug id x.2 ≠ []) ∧
      ∃ clients rest, (s.clients id).broadcasts = ⟨⟨0, 0⟩, clients⟩ :: rest

theorem FirstTold.step {h : List (Service α × Event α)} (ih : FirstTold ndebug id h s)
    (hgood : Attended ndebug id s e) (hs : s.step ndebug e = .ok s')
    (hrep : (s'.cluster.nodes id).storage.Rep) : FirstTold ndebug id ((s, e) :: h) s' := by
  rcases step_cases hs id with ⟨hnil, hcommit, htold⟩ | ⟨k, hk, hlt, hadv⟩
  · rcases ih with ⟨hall, h0, ht⟩ | ⟨hsome, hled⟩
    · exact .inl ⟨List.forall_mem_cons.2 ⟨hnil, hall⟩, by rw [hcommit, h0], by rw [htold, ht]⟩
    · have hb : (s'.clients id).broadcasts = (s.clients id).broadcasts := congrArg Prod.fst htold
      exact .inr ⟨List.exists_mem_cons_of_exists hsome, by rw [hb]; exact hled⟩
  · have hne : s.reported ndebug id e ≠ [] := by rw [hk]; simp
    obtain ⟨hstop, hc⟩ := hgood hne
    rw [Clients.commitAdvanced_eq hrep hstop hc] at hadv
    have hb := congrArg Clients.broadcasts (Except.ok.inj hadv)
    refine .inr ⟨⟨(s, e), List.mem_cons_self, hne⟩, ?_⟩
    rcases ih with ⟨-, -, ht⟩ | ⟨-, clients, rest, hled⟩
    · obtain ⟨hbs, hw⟩ := Prod.mk.inj ht
      obtain ⟨j, rfl⟩ : ∃ j, k = j + 1 := ⟨k - 1, by omega⟩
      rw [← hb]
      simp only [hbs, hw, Nat.sub_zero, List.range'_succ, List.map_cons, List.nil_append]
      exact ⟨_, _, rfl⟩
    · rw [← hb]
      simp only [hled, List.cons_append]
      exact ⟨_, _, rfl⟩

/-- **What the clients are told**: with a client connected at every commit, the broadcasts are the
infos of the committed entries exactly as long as nothing is committed. -/
theorem broadcasts_committed_iff {h : List (Service α × Event α)}
    (hr : Trace (step ndebug) (Attended ndebug id) (init ids) h s) (hid : id ∈ ids) :
    s.Announced id ↔ ∀ x ∈ h, x.1.reported ndebug id x.2 = [] := by
  have hfirst : FirstTold ndebug id h s := by
    refine hr.invariant (I := FirstTold ndebug id) (.inl ⟨by simp, rfl, rfl⟩)
      fun h s e s' hr ih hgood hs => ih.step hgood hs (storage_rep (hr.snoc hgood hs) hid)
  have hrep := storage_rep hr hid
  rcases hfirst with ⟨hall, h0, ht⟩ | ⟨⟨x, hx, hne⟩, clients, rest, hled⟩
  · have hb : (s.clients id).broadcasts = [] := congrArg Prod.fst ht
    simp only [Announced, MemStorage.committed, hb, h0, List.take_zero, List.map_nil, true_iff]
    exact hall
  · refine iff_of_false (fun ha => ?_) fun hall => hne (hall x hx)
    rw [Announced, hled] at ha
    have hmem : (⟨0, 0⟩ : EntryInfo) ∈ (s.cluster.nodes id).storage.committed := by
      rw [← ha]
      exact List.mem_cons_self
    exact Nat.lt_irrefl 0 (hrep.committed_pos hmem)

end

/-- The events up to the first commit of a leader with a client connected since its start. -/
def firstCommit : List (Event String) :=
  [.start "a", .accept "a" "-1", .raft (.timeout "a"), .raft (.deliver 0), .raft (.deliver 1),
    .raft (.deliver 1), .raft (.deliver 2), .raft (.clientRequest "a" ⟨"client", "1", "x"⟩),
    .raft (.deliver 2), .raft (.deliver 2)]

/-- The entry `{1,1}` is committed, and the client is told of `{0,0}`. -/
theorem broadcasts_committed_iff_first : ∃ h, ∃ s : Service String,
    Trace (step false) (Attended false "a") (init ["a", "b", "c"]) h s ∧
    (s.cluster.nodes "a").storage.committed = [⟨1, 1⟩] ∧
    (s.clients "a").broadcasts = [⟨⟨0, 0⟩, ["-1"]⟩] ∧
    (s.Announced "a" ↔ ∀ x ∈ h, x.1.reported false "a" x.2 = []) := by
  obtain ⟨h, s, hr, hc, hb⟩ := exists_trace (step false) (Attended false "a")
    (init ["a", "b", "c"]) firstCommit
    (P := fun _ s => (s.cluster.nodes "a").storage.committed = [⟨1, 1⟩] ∧
      (s.clients "a").broadcasts = [⟨⟨0, 0⟩, ["-1"]⟩])
    (by decide +kernel)
  exact ⟨h, s, hr, hc, hb, broadcasts_committed_iff hr (by simp)⟩

/-- The clients of a node are not told about its committed entries. -/
theorem broadcasts_not_committed : ¬ ∀ (ids : List String) (id : String) (ndebug : Bool)
    (h : List (Service String × Event String)) (s : Service String), id ∈ ids →
    Trace (step ndebug) (Attended ndebug id) (init ids) h s → s.Announced id := by
  intro hall
  obtain ⟨h, s, hr, hs⟩ := exists_trace (step false) (Attended false "a")
    (init ["a", "b", "c"]) firstCommit (P := fun _ s => ¬ s.Announced "a") (by decide +kernel)
  exact hs (hall ["a", "b", "c"] "a" false h s (by simp) hr)

end Service

end Raft
