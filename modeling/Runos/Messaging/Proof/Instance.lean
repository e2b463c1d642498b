import Runos.Lib.Fallible
import Runos.Messaging.Instance
import Runos.Messaging.Proof.Entries

/-!
# Every local event once

Runs of an instance in a cluster with a stable leader (`Stable`): the leader's log only grows by the
requests it is handed, and what is committed at the instance stays so and is in the leader's log. A
request is popped only after an entry with its ids is committed, and no two committed entries have
the same ids (`ExactlyOnce`), in every run that meets `Once`:

* a pass submits the front of the queue only while no entry with its ids is in the leader's log and
  no request with them is on its way there, since the leader does not look for duplicates;
* a request of another node reaches the leader only under the same condition;
* a poll takes entries only while no uncommitted entry carries the ids of a request in the queue,
  since it takes all entries of the log.

`Tracked` is the invariant: entries and requests on their way have ids of their own.
-/

namespace Messaging

open Runs Fallible
open Raft (Server ClientRequest Entry)

/-- The ids in the data of an entry, as `process_entries` reads them. -/
def idsOf (data : String) : Option String × Option String := ((split data)[0]?, (split data)[1]?)

/-- The data carries the ids of the request. -/
def Carries (data : String) (r : ClientRequest String) : Prop :=
  idsOf data = (some r.clientId, some r.messageId)

instance (data : String) (r : ClientRequest String) : Decidable (Carries data r) :=
  inferInstanceAs (Decidable (_ = _))

/-! ## Processing entries -/

section
variable {ndebug : Bool} {choice : EdgeChoice Topology.LinkProperty} {s s' : Messaging}

/-- The topology is changed, the queue is not. -/
theorem processTokens_queue {tokens : List String}
    (h : s.processTokens ndebug choice tokens = .ok s') :
    s'.requestQueue = s.requestQueue ∧ s'.popped = s.popped := by
  obtain ⟨kind, -, h⟩ := bind_ok h
  split at h
  · obtain ⟨_, -, h⟩ := bind_ok h
    obtain ⟨_, -, h⟩ := bind_ok h
    obtain ⟨_, -, h⟩ := bind_ok h
    obtain ⟨_, -, h⟩ := bind_ok h
    obtain ⟨_, -, h⟩ := bind_ok h
    obtain ⟨_, -, h⟩ := bind_ok h
    obtain ⟨_, -, h⟩ := bind_ok h
    cases h
    exact ⟨rfl, rfl⟩
  split at h
  · obtain ⟨_, -, h⟩ := bind_ok h
    obtain ⟨_, -, h⟩ := bind_ok h
    cases h
    exact ⟨rfl, rfl⟩
  split at h
  · obtain ⟨_, -, h⟩ := bind_ok h
    obtain ⟨_, -, h⟩ := bind_ok h
    cases h
    exact ⟨rfl, rfl⟩
  · cases h
    exact ⟨rfl, rfl⟩

/-- The requests that are popped were in the queue, and an entry carries their ids. -/
def PopsOnly (entries : List String) (s s' : Messaging) : Prop :=
  (∀ r ∈ s'.requestQueue, r ∈ s.requestQueue) ∧
    ∀ r ∈ s'.popped, r ∈ s.popped ∨ r ∈ s.requestQueue ∧ ∃ data ∈ entries, Carries data r

theorem popRequest_pops {data : String} (h : s.popRequest (split data) = .ok s') :
    PopsOnly [data] s s' := by
  unfold popRequest at h
  split at h
  · cases h
  · rename_i front rest hq
    split at h
    · rename_i hids
      cases h
      refine ⟨fun r hr => ?_, fun r hr => ?_⟩
      · rw [hq]
        exact List.mem_cons_of_mem _ hr
      · rcases List.mem_cons.1 hr with rfl | hr
        · refine .inr ⟨by rw [hq]; exact List.mem_cons_self, data, List.mem_cons_self, ?_⟩
          simp [Carries, idsOf, hids.1, hids.2]
        · exact .inl hr
    · cases h
      exact ⟨fun _ hr => hr, fun _ hr => .inl hr⟩

theorem processEntry_pops {data : String} (h : s.processEntry ndebug choice data = .ok s') :
    PopsOnly [data] s s' := by
  obtain ⟨s₁, h₁, h⟩ := bind_ok h
  obtain ⟨hq, hp⟩ := processTokens_queue h₁
  obtain ⟨hqueue, hpopped⟩ := popRequest_pops h
  rw [hq] at hqueue hpopped
  rw [hp] at hpopped
  exact ⟨hqueue, hpopped⟩

/-- **`process_entries`** pops only requests whose ids an entry carries. -/
theorem processEntries_pops {entries : List String}
    (h : s.processEntries ndebug choice entries = .ok s') : PopsOnly entries s s' := by
  induction entries generalizing s with
  | nil =>
    cases h
    exact ⟨fun _ hr => hr, fun _ hr => .inl hr⟩
  | cons data entries ih =>
    rw [processEntries, List.foldlM_cons] at h
    obtain ⟨s₁, h₁, h⟩ := bind_ok h
    obtain ⟨hq₁, hp₁⟩ := processEntry_pops h₁
    obtain ⟨hq, hp⟩ := ih h
    refine ⟨fun r hr => hq₁ r (hq r hr), fun r hr => ?_⟩
    rcases hp r hr with hr | ⟨hr, d, hd, hc⟩
    · rcases hp₁ r hr with hr | ⟨hr, d, hd, hc⟩
      · exact .inl hr
      · obtain rfl := List.mem_singleton.1 hd
        exact .inr ⟨hr, d, List.mem_cons_self, hc⟩
    · exact .inr ⟨hq₁ r hr, d, List.mem_cons_of_mem _ hd, hc⟩

end

/-! ## Submitting a request -/

section
variable {n n' : Server String} {r : ClientRequest String}
  {callbacks : List (Raft.Callback String)}

/-- The leader appends the request, whatever its log holds. -/
theorem onClientRequest_leader (hl : n.state.role = .leader)
    (h : n.onClientRequest r = .ok (n', callbacks)) :
    n'.state.role = .leader ∧ n'.state.id = n.state.id ∧ n'.storage.commit = n.storage.commit ∧
      ∃ e, e.data = r.data ∧ n'.storage.entries = n.storage.entries ++ [e] := by
  have hkept : n.storage.eraseFrom (n.storage.uncommit.index + 1) = .ok n.storage.entries := by
    rw [Raft.MemStorage.eraseFrom, if_neg (by omega)]
  have happ : n.storage.append [⟨⟨n.storage.uncommit.index + 1, n.storage.currentTerm⟩, r.data⟩] =
      .ok ({ n.storage with
          entries := n.storage.entries ++
            [⟨⟨n.storage.uncommit.index + 1, n.storage.currentTerm⟩, r.data⟩]
          uncommit := ⟨n.storage.uncommit.index + 1, n.storage.currentTerm⟩ },
        ⟨n.storage.uncommit.index + 1, n.storage.currentTerm⟩) := by
    simp [Raft.MemStorage.append, hkept, bind, Except.bind]
  simp only [Server.onClientRequest, hl, happ] at h
  obtain ⟨_, hst, h⟩ := bind_ok h
  cases hst
  simp only [ne_eq, not_true_eq_false, if_false] at h
  obtain ⟨_, -, h⟩ := bind_ok h
  cases h
  exact ⟨rfl, rfl, rfl, _, rfl, rfl⟩

/-- A follower sends it on, to the leader it knows. -/
theorem onClientRequest_follower (hf : n.state.role = .follower)
    (h : n.onClientRequest r = .ok (n', callbacks)) (id : String) :
    n' = n ∧ (Instance.forwarded id callbacks = [] ∨ Instance.forwarded id callbacks = [r]) := by
  simp only [Server.onClientRequest, hf] at h
  split at h
  · cases h
    exact ⟨rfl, .inl rfl⟩
  · rename_i leader hleader
    cases h
    refine ⟨rfl, ?_⟩
    by_cases hid : leader.id = id
    · exact .inr (by simp [Instance.forwarded, hid])
    · exact .inl (by simp [Instance.forwarded, hid])

end

/-! ## Runs -/

namespace Instance

/-- The ids of the entries of the leader's log and of the requests on their way to it. -/
def ids (s : Instance) : List (Option String × Option String) :=
  s.log.map (fun e => idsOf e.data) ++ s.toLeader.map (fun r => idsOf r.data)

/-- One of the two nodes leads, the other one follows. -/
def Led (server : Server String) : Option (Server String) → Prop
  | none => server.state.role = .leader
  | some leader => leader.state.role = .leader ∧ server.state.role = .follower

/-- The log of the instance becomes `entries`, while the leader's log stays the same; what is
committed of it, up to `commit`, is in the leader's log. -/
def Replicated (s : Instance) (entries : List (Entry String)) (commit : Nat) :
    Option (Server String) → Prop
  | none => s.leader = none ∧ entries = s.log
  | some leader =>
    s.leader ≠ none ∧ leader.storage.entries = s.log ∧ entries.take commit <+: s.log

/-- What a stable leader allows. -/
def Stable (s : Instance) : Event → Prop
  | .raft server leader => Led server leader ∧
      s.committed <+: server.storage.entries.take server.storage.commit.index ∧
      Replicated s server.storage.entries server.storage.commit.index leader
  | _ => True

/-- A request that is submitted, or a poll that takes entries, as in the module doc. -/
def Once (s : Instance) : Event → Prop
  | .pass => s.server.state.findPeer s.server.state.leaderId ≠ none →
      ∀ front ∈ s.app.requestQueue.head?, idsOf front.data ∉ s.ids
  | .foreign request => idsOf request.data ∉ s.ids
  | .processEntries => s.polling = true →
      ∀ e ∈ s.uncommitted, ∀ r ∈ s.app.requestQueue, ¬ Carries e.data r
  | _ => True

instance (server : Server String) : DecidablePred (Led server)
  | none => inferInstanceAs (Decidable (_ = _))
  | some _ => inferInstanceAs (Decidable (_ ∧ _))

instance (s : Instance) (entries : List (Entry String)) (commit : Nat) :
    DecidablePred (Replicated s entries commit)
  | none => inferInstanceAs (Decidable (_ ∧ _))
  | some _ => inferInstanceAs (Decidable (_ ∧ _ ∧ _))

instance (s : Instance) : DecidablePred (Stable s)
  | .raft _ leader => inferInstanceAs (Decidable (_ ∧ _ ∧ Replicated s _ _ leader))
  | .event _ | .pass | .deliver _ | .lose _ | .foreign _ | .readCommit | .processEntries =>
    .isTrue trivial

instance (s : Instance) : DecidablePred (Once s)
  | .pass => inferInstanceAs (Decidable (_ → ∀ front ∈ s.app.requestQueue.head?, _))
  | .foreign _ => inferInstanceAs (Decidable (¬ _))
  | .processEntries => inferInstanceAs (Decidable (_ → ∀ _ ∈ _, ∀ _ ∈ _, _))
  | .event _ | .deliver _ | .lose _ | .raft _ _ | .readCommit => .isTrue trivial

structure ExactlyOnce (s : Instance) : Prop where
  popped : ∀ r ∈ s.app.popped, ∃ e ∈ s.committed, Carries e.data r
  once : (s.committed.map fun e => idsOf e.data).Nodup

structure Tracked (s : Instance) : Prop where
  led : Led s.server s.leader
  within : s.committed <+: s.log
  ids : s.ids.Nodup
  popped : ∀ r ∈ s.app.popped, ∃ e ∈ s.committed, Carries e.data r

section
variable {ndebug : Bool} {choice : EdgeChoice Topology.LinkProperty} {s s' : Instance}
  {e : Event} {r : ClientRequest String}

theorem Tracked.exactlyOnce (h : Tracked s) : ExactlyOnce s where
  popped := h.popped
  once := by
    have hlog : (s.log.map fun e => idsOf e.data).Nodup := (List.nodup_append.1 h.ids).1
    exact hlog.sublist (h.within.sublist.map _)

theorem Tracked.popped_mono (h : Tracked s) (happ : s'.app.popped = s.app.popped)
    (hc : s.committed <+: s'.committed) :
    ∀ r ∈ s'.app.popped, ∃ e ∈ s'.committed, Carries e.data r := by
  intro r hr
  rw [happ] at hr
  obtain ⟨e, he, hcar⟩ := h.popped r hr
  exact ⟨e, hc.subset he, hcar⟩

/-! ### Requests that reach the leader -/

/-- The leader's log grows by a request; what the instance has committed stays. -/
structure Appended (data : String) (s s' : Instance) : Prop where
  app : s'.app = s.app
  toLeader : s'.toLeader = s.toLeader
  led : Led s'.server s'.leader
  log : ∃ e : Entry String, e.data = data ∧ s'.log = s.log ++ [e]
  grows : s.committed <+: s'.committed
  within : s'.committed <+: s'.log

/-- The node of the instance leads and takes the request. -/
theorem appended_server {server : Server String} {callbacks : List (Raft.Callback String)}
    (hl : s.leader = none) (hrole : s.server.state.role = .leader)
    (h : s.server.onClientRequest r = .ok (server, callbacks)) :
    Appended r.data s { s with server } := by
  obtain ⟨hrole', -, hcommit, e, he, hentries⟩ := onClientRequest_leader hrole h
  have hprefix : s.server.storage.entries <+: server.storage.entries := ⟨[e], hentries.symm⟩
  refine ⟨rfl, rfl, ?_, ⟨e, he, ?_⟩, ?_, ?_⟩
  · simpa [hl, Led] using hrole'
  · simpa [log, hl] using hentries
  · simpa only [committed, hcommit] using hprefix.take _
  · simpa [log, hl, committed] using List.take_prefix _ _

theorem submit_appended (hled : Led s.server s.leader) (hw : s.committed <+: s.log)
    (h : s.submit r = .ok s') :
    Appended r.data s s' := by
  cases hl : s.leader with
  | none =>
    rw [hl] at hled
    simp only [submit, hl] at h
    obtain ⟨⟨server, callbacks⟩, hs, h⟩ := bind_ok h
    cases h
    simpa only [hl] using appended_server hl hled (mapError_ok hs)
  | some l =>
    rw [hl] at hled
    simp only [submit, hl] at h
    obtain ⟨⟨l', callbacks⟩, hs, h⟩ := bind_ok h
    cases h
    obtain ⟨hrole, -, -, e, he, hentries⟩ := onClientRequest_leader hled.1 (mapError_ok hs)
    have hlog : s.log = l.storage.entries := by simp [log, hl]
    refine ⟨rfl, rfl, ⟨hrole, hled.2⟩, ⟨e, he, ?_⟩, List.prefix_rfl, ?_⟩
    · rw [hlog]
      exact hentries
    · rw [hlog] at hw
      exact hw.trans ⟨[e], hentries.symm⟩

theorem Appended.ids {data : String} (h : Appended data s s') :
    s'.ids.Perm (idsOf data :: s.ids) := by
  obtain ⟨e, he, hlog⟩ := h.log
  rw [Instance.ids, Instance.ids, hlog, h.toLeader, List.map_append, List.append_assoc]
  simp [he]

/-- The log takes a request with new ids. -/
theorem Tracked.appended {data : String} (h : Tracked s) (ha : Appended data s s')
    (hnew : idsOf data ∉ s.ids) : Tracked s' where
  led := ha.led
  within := ha.within
  ids := ha.ids.nodup_iff.2 (List.nodup_cons.2 ⟨hnew, h.ids⟩)
  popped := h.popped_mono (by rw [ha.app]) ha.grows

/-! ### Steps -/

/-- Requests on their way get lost. -/
theorem Tracked.lose (h : Tracked s) (k : Nat) :
    Tracked { s with toLeader := s.toLeader.eraseIdx k } where
  led := h.led
  within := h.within
  ids := h.ids.sublist (((List.eraseIdx_sublist _ k).map _).append_left _)
  popped := h.popped

theorem Tracked.pass (h : Tracked s) (ho : Once s .pass) (hs : s.pass = .ok s') : Tracked s' := by
  unfold Instance.pass at hs
  split at hs
  · rename_i leader front rest hknown hq
    have hnew : idsOf front.data ∉ s.ids := by
      refine ho ?_ front ?_
      · simp [hknown]
      · simp [hq]
    obtain ⟨⟨server, callbacks⟩, hserver, hs⟩ := bind_ok hs
    have hserver := mapError_ok hserver
    cases hl : s.leader with
    | none =>
      have hled := h.led
      rw [hl] at hled
      simp only [hl, List.append_nil] at hs
      cases hs
      have ha := appended_server hl hled hserver
      simpa only [hl] using h.appended ha hnew
    | some l =>
      have hled := h.led
      rw [hl] at hled
      obtain ⟨rfl, hsent⟩ := onClientRequest_follower hled.2 hserver l.state.id
      simp only [hl] at hs
      cases hs
      refine ⟨hled, by simpa only [committed, log, hl] using h.within, ?_, h.popped⟩
      rcases hsent with hsent | hsent
      · simpa only [Instance.ids, log, hl, hsent, List.append_nil] using h.ids
      · have hids := h.ids
        simp only [Instance.ids, log, hl] at hids hnew ⊢
        rw [hsent, List.map_append, ← List.append_assoc, List.nodup_append_comm]
        exact List.nodup_cons.2 ⟨hnew, hids⟩
  · cases hs
    exact h

theorem Tracked.deliver (h : Tracked s) {k : Nat} (hk : s.toLeader[k]? = some r)
    (hs : { s with toLeader := s.toLeader.eraseIdx k }.submit r = .ok s') : Tracked s' := by
  have ha := submit_appended (s := { s with toLeader := s.toLeader.eraseIdx k }) h.led h.within hs
  refine (h.lose k).appended ha ?_
  -- the ids of the request were among the others
  obtain ⟨hlt, hr⟩ := List.getElem?_eq_some_iff.1 hk
  have hperm := (List.getElem_cons_eraseIdx_perm hlt).map fun r => idsOf r.data
  have hids := h.ids
  rw [Instance.ids, ((List.Perm.append_left _ hperm).nodup_iff).symm, List.map_cons,
    List.nodup_middle, hr] at hids
  exact (List.nodup_cons.1 hids).1

theorem Tracked.raft (h : Tracked s) {server : Server String} {leader : Option (Server String)}
    (hst : Stable s (.raft server leader)) : Tracked { s with server, leader } := by
  obtain ⟨hled, hc, hlog⟩ := hst
  have hsame : log { s with server, leader } = s.log ∧
      committed { s with server, leader } <+: log { s with server, leader } := by
    cases leader with
    | none => exact ⟨hlog.2, List.take_prefix _ _⟩
    | some l =>
      obtain ⟨-, hsame, hwithin⟩ := hlog
      refine ⟨hsame, ?_⟩
      show server.storage.entries.take server.storage.commit.index <+: l.storage.entries
      rw [hsame]
      exact hwithin
  refine ⟨hled, hsame.2, ?_, h.popped_mono rfl hc⟩
  rw [Instance.ids, hsame.1]
  exact h.ids

/-- The entries a poll takes are in the log. -/
theorem checker_processEntries {c : Checker String} (h : s.checker.processEntries = .ok c) :
    ∀ x ∈ c.processed, x ∈ s.server.storage.entries := by
  obtain ⟨entries, he, h⟩ := bind_ok h
  cases h
  intro x hx
  have hx : x ∈ entries := hx
  unfold Raft.MemStorage.entriesSince at he
  split at he
  · cases he
    cases hx
  · split at he
    · cases he
    · cases he
      exact List.mem_of_mem_drop hx

theorem Tracked.processEntries (h : Tracked s) (hp : s.polling = true)
    (ho : Once s .processEntries) (hs : s.processEntries ndebug choice = .ok s') : Tracked s' := by
  obtain ⟨c, hc, hs⟩ := bind_ok hs
  obtain ⟨app, happ, hs⟩ := bind_ok hs
  cases hs
  have hin := checker_processEntries (mapError_ok hc)
  obtain ⟨-, hpops⟩ := processEntries_pops (mapError_ok happ)
  refine ⟨h.led, h.within, h.ids, ?_⟩
  intro r hr
  rcases hpops r hr with hr | ⟨hr, data, hdata, hcar⟩
  · exact h.popped r hr
  · obtain ⟨x, hx, rfl⟩ := List.mem_map.1 hdata
    have hmem := hin x hx
    rw [← List.take_append_drop s.server.storage.commit.index s.server.storage.entries,
      List.mem_append] at hmem
    rcases hmem with hmem | hmem
    · exact ⟨x, hmem, hcar⟩
    · exact absurd hcar (ho hp x hmem r hr)

/-- **One step.** -/
theorem Tracked.step (h : Tracked s) (hst : Stable s e) (ho : Once s e)
    (hs : s.step ndebug choice e = .ok s') : Tracked s' := by
  cases e with
  | event event =>
    obtain ⟨app, happ, hs⟩ := bind_ok hs
    cases hs
    refine ⟨h.led, h.within, h.ids, h.popped_mono ?_ List.prefix_rfl⟩
    rcases receive_spec (mapError_ok happ) with rfl | ⟨request, rfl⟩ <;> rfl
  | pass => exact h.pass ho hs
  | deliver k =>
    simp only [Instance.step] at hs
    split at hs
    · rename_i r hk
      exact h.deliver hk hs
    · cases hs
      exact h
  | lose k =>
    cases hs
    exact h.lose k
  | foreign request => exact h.appended (submit_appended h.led h.within hs) ho
  | raft server leader =>
    cases hs
    exact h.raft hst
  | readCommit =>
    cases hs
    split
    · exact h
    · exact ⟨h.led, h.within, h.ids, h.popped⟩
  | processEntries =>
    simp only [Instance.step] at hs
    split at hs
    · rename_i hp
      exact h.processEntries hp ho hs
    · cases hs
      exact h

/-- The nodes an instance starts next to: one leads, what is committed is in its log, and no two of
its entries have the same ids. -/
structure Ready (server : Server String) (leader : Option (Server String)) : Prop where
  led : Led server leader
  within : server.storage.entries.take server.storage.commit.index <+:
    (leader.getD server).storage.entries
  ids : ((leader.getD server).storage.entries.map fun e => idsOf e.data).Nodup

/-- **Every local event is committed at most once, and popped only when it is**, in every run that
meets `Once`. -/
theorem exactly_once {clientId : String} {server : Server String}
    {leader : Option (Server String)} (hready : Ready server leader)
    {h : List (Instance × Event)}
    (hr : Trace (Instance.step ndebug choice) (fun s e => Stable s e ∧ Once s e)
      (.start clientId server leader) h s) : ExactlyOnce s := by
  have hstart : Tracked (.start clientId server leader) := by
    refine ⟨hready.led, hready.within, ?_, fun r hr => nomatch hr⟩
    simpa [Instance.ids, log, start] using hready.ids
  have ht : Tracked s :=
    hr.invariant_state hstart fun s e s' ht hok hs => ht.step hok.1 hok.2 hs
  exact ht.exactlyOnce

end

/-- A node of the cluster `["n1", "n2"]` in term 1. -/
def node (id leaderId : String) (role : Raft.Role) (log : List String) (commit : Nat) :
    Server String where
  state := { Raft.State.init id (["n1", "n2"].map Raft.Peer.init) with role, leaderId }
  storage :=
    { entries := log.zipIdx.map fun x => ⟨⟨x.2 + 1, 1⟩, x.1⟩
      votedFor := leaderId
      uncommit := ⟨log.length, 1⟩
      commit := ⟨commit, 1⟩
      currentTerm := 1 }

/-- A follower takes two requests, submits the first one, and pops it once it is committed; then
the second one. -/
theorem exactly_once_two_requests : ∃ h s,
    Trace (Instance.step false .first) (fun s e => Stable s e ∧ Once s e)
      (.start "n1" (node "n1" "n2" .follower [] 0) (some (node "n2" "n2" .leader [] 0))) h s ∧
    s.app.popped.map (·.messageId) = ["2", "1"] ∧ ExactlyOnce s := by
  obtain ⟨h, s, hr, hp⟩ := exists_trace (Instance.step false .first)
    (fun s e => Stable s e ∧ Once s e)
    (.start "n1" (node "n1" "n2" .follower [] 0) (some (node "n2" "n2" .leader [] 0)))
    [.event (.linkDiscovered ⟨1, 1⟩ ⟨2, 1⟩), .event (.linkBroken ⟨1, 1⟩ ⟨2, 1⟩), .pass, .deliver 0,
      .raft (node "n1" "n2" .follower ["n1,1,linkDiscovered,1,1,2,1"] 1)
        (some (node "n2" "n2" .leader ["n1,1,linkDiscovered,1,1,2,1"] 1)),
      .readCommit, .processEntries, .pass, .deliver 0,
      .raft (node "n1" "n2" .follower
          ["n1,1,linkDiscovered,1,1,2,1", "n1,2,linkBroken,1,1,2,1"] 2)
        (some (node "n2" "n2" .leader
          ["n1,1,linkDiscovered,1,1,2,1", "n1,2,linkBroken,1,1,2,1"] 2)),
      .readCommit, .processEntries]
    (P := fun _ s => s.app.popped.map (·.messageId) = ["2", "1"])
    (by decide +kernel)
  have hready : Ready (node "n1" "n2" .follower [] 0) (some (node "n2" "n2" .leader [] 0)) :=
    ⟨by decide, List.nil_prefix, List.nodup_nil⟩
  exact ⟨h, s, hr, hp, exactly_once hready hr⟩

/-- A leader submits its request on two passes, before the poll that would pop it: both entries are
committed. -/
theorem exactly_once_resubmitted : ∃ h s,
    Trace (Instance.step false .first) Stable (.start "n1" (node "n1" "n1" .leader [] 0) none) h s ∧
    s.committed.map (·.data) = ["n1,1,linkDiscovered,1,1,2,1", "n1,1,linkDiscovered,1,1,2,1"] ∧
    ¬ ExactlyOnce s := by
  obtain ⟨h, s, hr, hc⟩ := exists_trace (Instance.step false .first) Stable
    (.start "n1" (node "n1" "n1" .leader [] 0) none)
    [.event (.linkDiscovered ⟨1, 1⟩ ⟨2, 1⟩), .pass, .pass,
      .raft (node "n1" "n1" .leader
        ["n1,1,linkDiscovered,1,1,2,1", "n1,1,linkDiscovered,1,1,2,1"] 2) none]
    (P := fun _ s => s.committed.map (·.data) =
      ["n1,1,linkDiscovered,1,1,2,1", "n1,1,linkDiscovered,1,1,2,1"])
    (by decide +kernel)
  refine ⟨h, s, hr, hc, fun ho => ?_⟩
  have hnodup := ho.once
  rw [show (fun e : Entry String => idsOf e.data) = idsOf ∘ (·.data) from rfl, ← List.map_map, hc]
    at hnodup
  simp at hnodup

end Instance

end Messaging
