import Runos.Lib.Fallible
import Runos.Lib.Trace
import Runos.Raft.Processor
import Runos.Raft.Proof.Handlers

/-!
# When a handler returns

A storage that holds what other nodes sent need not have its entries in place: the handlers then
leave through `exit(1)`, or read beyond the vector. For every operation of the storage, and from
these for every handler, the exact condition on the storage and the message under which the call
returns (`exists_getEntryInfo`, `exists_append`, `exists_commitUntil`, …, `exists_on`). Nothing is
assumed of the node.
-/

namespace Raft

open Runs Fallible

variable {α : Type} {st : MemStorage α} {es : List (Entry α)} {i : Nat}

/-! ## The storage -/

namespace MemStorage

/-- The entry with an index is at its place. -/
def At (st : MemStorage α) (i : Nat) : Prop := ∃ e ∈ st.entries[i - 1]?, e.info.index = i

/-- The info of an index can be read. -/
def Gettable (st : MemStorage α) (i : Nat) : Prop := i = 0 ∨ st.entries.length < i ∨ st.At i

/-- The first of the entries after an index is at its place. -/
def Since (st : MemStorage α) (i : Nat) : Prop := ∀ e ∈ st.entries[i]?, e.info.index = i + 1

/-- If the entries replace some, the last one of the log is at its place and the first of the new
ones has a positive index. -/
def Appendable (st : MemStorage α) (es : List (Entry α)) : Prop :=
  ∀ front ∈ es.head?, front.info.index ≤ st.uncommit.index →
    1 ≤ front.info.index ∧ st.At st.uncommit.index

/-- The entries that are left of the log. -/
def keptBefore (st : MemStorage α) (es : List (Entry α)) : List (Entry α) :=
  match es.head? with
  | some front =>
    if front.info.index ≤ st.uncommit.index then st.entries.take (front.info.index - 1)
    else st.entries
  | none => st.entries

/-- The storage with the entries appended. -/
def afterAppend (st : MemStorage α) (es : List (Entry α)) : MemStorage α :=
  { st with
    entries := st.keptBefore es ++ es
    uncommit := (es.getLast?.map (·.info)).getD st.uncommit }

/-- The index can be committed. -/
def Committable (st : MemStorage α) (c : Nat) : Prop :=
  st.commit.index ≠ min st.uncommit.index c → st.Gettable (min st.uncommit.index c)

theorem exists_getEntryInfo (st : MemStorage α) (i : Nat) :
    (∃ info, st.getEntryInfo i = .ok info) ↔ st.Gettable i := by
  unfold getEntryInfo
  split
  · rename_i h
    refine iff_of_true ⟨_, rfl⟩ ?_
    rcases h with h | h
    · exact .inl h
    · exact .inr (.inl h)
  · rename_i h
    obtain ⟨k, rfl⟩ : ∃ k, i = k + 1 := ⟨i - 1, by omega⟩
    have hk : st.entries[k]? = some st.entries[k] := List.getElem?_eq_getElem (by omega)
    have hget : st.Gettable (k + 1) ↔ st.entries[k].info.index = k + 1 := by
      simp only [Gettable, At, Nat.add_sub_cancel, hk, Option.mem_some_iff, exists_eq_left']
      omega
    rw [vecPred_of_some hk, hget]
    simp only [bind, Except.bind]
    split <;> simp_all

theorem exists_entriesSince (st : MemStorage α) (i : Nat) :
    (∃ es, st.entriesSince i = .ok es) ↔ st.Since i := by
  unfold entriesSince Since
  cases st.entries[i]? with
  | none => simp
  | some e =>
    simp only [Option.mem_some_iff, forall_eq']
    split <;> simp_all

/-- Erasing everything from an index on. -/
theorem exists_eraseFrom (st : MemStorage α) (i : Nat) :
    (∃ kept, st.eraseFrom i = .ok kept) ↔
      (i ≤ st.uncommit.index → 1 ≤ i ∧ st.At st.uncommit.index) := by
  unfold eraseFrom
  by_cases hi : i ≤ st.uncommit.index
  · rw [if_pos hi]
    simp only [hi, true_implies, exists_bind_ok]
    cases hu : st.uncommit.index with
    | zero =>
      simp only [vecPred, reduceCtorEq, false_and, exists_false, false_iff]
      omega
    | succ u =>
      cases hk : st.entries[u]? with
      | none => simp [vecPred, hk, At]
      | some last =>
        have hlt := (List.getElem?_eq_some_iff.1 hk).1
        simp only [vecPred_of_some hk, Except.ok.injEq, exists_eq_left', At, Nat.add_sub_cancel, hk,
          Option.mem_some_iff]
        cases i with
        | zero =>
          simp only [vecErasePred]
          split <;> simp
        | succ k =>
          have hle : k ≤ st.entries.length := by omega
          simp only [vecErasePred, hle, if_true]
          split <;> simp_all
  · rw [if_neg hi]
    simp [hi]

/-- What is erased. -/
theorem eraseFrom_eq {kept : List (Entry α)} (h : st.eraseFrom i = .ok kept) :
    kept = if i ≤ st.uncommit.index then st.entries.take (i - 1) else st.entries := by
  unfold eraseFrom at h
  by_cases hi : i ≤ st.uncommit.index
  · rw [if_pos hi] at h ⊢
    obtain ⟨last, -, h⟩ := bind_ok h
    split at h
    · cases h
    · cases i with
      | zero => cases h
      | succ k =>
        simp only [vecErasePred] at h
        split at h
        · cases h; rfl
        · cases h
  · rw [if_neg hi] at h ⊢
    cases h
    rfl

theorem exists_append (st : MemStorage α) (es : List (Entry α)) :
    (∃ r, st.append es = .ok r) ↔ st.Appendable es := by
  unfold append Appendable
  cases es with
  | nil => simp
  | cons front rest =>
    simp only [exists_bind_ok, List.head?_cons, Option.mem_some_iff, forall_eq',
      ← exists_eraseFrom]
    simp

theorem append_eq {r : MemStorage α × EntryInfo} (h : st.append es = .ok r) :
    r = (st.afterAppend es, (st.afterAppend es).uncommit) := by
  unfold append at h
  cases es with
  | nil =>
    cases h
    simp [afterAppend, keptBefore]
  | cons front rest =>
    obtain ⟨kept, hkept, h⟩ := bind_ok h
    cases h
    simp only [afterAppend, keptBefore, List.head?_cons, ← eraseFrom_eq hkept,
      List.getLast?_eq_some_getLast (List.cons_ne_nil front rest), Option.map_some,
      Option.getD_some]

/-- An entry with the index 0 is never appended. -/
theorem not_appendable_zero (st : MemStorage α) (term : Nat) (data : α) (rest : List (Entry α)) :
    ¬ st.Appendable (⟨⟨0, term⟩, data⟩ :: rest) := by
  intro h
  have := (h _ rfl (Nat.zero_le _)).1
  exact absurd this (by simp)

theorem exists_commitUntil (st : MemStorage α) (c : Nat) :
    (∃ st', st.commitUntil c = .ok st') ↔ st.Committable c := by
  unfold commitUntil Committable
  simp only
  split
  · rename_i h
    simp [h]
  · rename_i h
    rw [exists_bind_ok, ← exists_getEntryInfo]
    simp [h]

end MemStorage

/-! ## `on(AppendEntriesRequest)` -/

section
variable {ndebug : Bool} {s : Server α} {request : AppendEntriesRequest α}
  {response : AppendEntriesResponse}

/-- The entries of the request can be appended and, if it commits more, its commit index is not of
an older term (unless `assert` is skipped) and can be committed then. -/
def Takes (ndebug : Bool) (st : MemStorage α) (request : AppendEntriesRequest α) : Prop :=
  st.Appendable request.entries ∧
    (st.commit.index < request.header.logState.commit.index →
      (ndebug = false → st.commit.term ≤ request.header.logState.commit.term) ∧
        (st.afterAppend request.entries).Committable request.header.logState.commit.index)

theorem exists_acceptEntries (ndebug : Bool) (s : Server α) (request : AppendEntriesRequest α)
    (response : AppendEntriesResponse) :
    (∃ o, s.acceptEntries ndebug request response = .ok o) ↔
      (s.storage.commit.index ≤ request.previousEntry.index →
        request.previousEntry.index ≤ s.storage.uncommit.index →
          Takes ndebug s.storage request) := by
  unfold Server.acceptEntries
  simp only [EntryInfo.ne_eq_true, true_and]
  split
  · rename_i hlow
    refine iff_of_true ⟨_, rfl⟩ fun h => ?_
    exact absurd hlow (Nat.not_lt_of_le h)
  rename_i hlow
  split
  · rename_i hhigh
    refine iff_of_true ⟨_, rfl⟩ fun _ h => ?_
    exact absurd hhigh (Nat.not_lt_of_le h)
  rename_i hhigh
  have hlow' : s.storage.commit.index ≤ request.previousEntry.index := Nat.le_of_not_lt hlow
  have hhigh' : request.previousEntry.index ≤ s.storage.uncommit.index := Nat.le_of_not_lt hhigh
  simp only [hlow', hhigh', true_implies]
  unfold Takes
  cases happ : s.storage.append request.entries with
  | error f =>
    have hna : ¬ s.storage.Appendable request.entries := by
      rw [← MemStorage.exists_append, happ]
      simp
    simp [bind, Except.bind, hna]
  | ok r =>
    have ha : s.storage.Appendable request.entries :=
      (MemStorage.exists_append _ _).1 ⟨r, happ⟩
    rw [MemStorage.append_eq happ]
    generalize hst : s.storage.afterAppend request.entries = st
    have hcommit : st.commit = s.storage.commit := by rw [← hst]; rfl
    simp only [bind, Except.bind, hcommit, ha, true_and]
    split
    · rename_i hlt
      simp only [hlt, true_implies, ← MemStorage.exists_commitUntil]
      split
      · rename_i hassert
        refine iff_of_false (by simp) fun h => ?_
        have := h.1 hassert.1
        omega
      · rename_i hassert
        have hterm : ndebug = false →
            s.storage.commit.term ≤ request.header.logState.commit.term := by
          intro hnd
          by_contra hlt'
          exact hassert ⟨hnd, by omega⟩
        rw [and_iff_right hterm]
        cases st.commitUntil request.header.logState.commit.index with
        | error f => simp
        | ok st' => simp
    · rename_i hge
      simp [hge]

/-- Behind the checks of the term and of the leader only the place of the entries is left of
`Accepts`; `s'` is the node after the steps before. -/
theorem exists_acceptEntries_checked (hd : request.header.destinationId = s.state.id)
    (hk : s.state.findPeer request.header.peerId ≠ none)
    (hterm : s.storage.currentTerm ≤ request.header.term)
    (hl : s.storage.currentTerm = request.header.term →
      s.state.leaderId = request.header.peerId ∨ s.state.leaderId = "")
    {s' : Server α}
    (hs : s'.storage = s.storage ∨ s'.storage = (s.stepDown request.header.term).storage) :
    (∃ o, s'.acceptEntries ndebug request response = .ok o) ↔
      (s.state.findPeer request.header.peerId ≠ none → Accepts s request →
        Takes ndebug s.storage request) := by
  have hacc : Accepts s request ↔ s.storage.commit.index ≤ request.previousEntry.index ∧
      request.previousEntry.index ≤ s.storage.uncommit.index :=
    ⟨fun h => ⟨h.commit, h.uncommit⟩, fun h => ⟨hd, hterm, hl, h.1, h.2⟩⟩
  have hsame : (∃ o, s'.acceptEntries ndebug request response = .ok o) ↔
      (s.storage.commit.index ≤ request.previousEntry.index →
        request.previousEntry.index ≤ s.storage.uncommit.index →
          Takes ndebug s.storage request) := by
    rw [exists_acceptEntries]
    rcases hs with hs | hs
    · rw [hs]
    · -- the term and the vote are all that changed
      rw [hs]
      exact Iff.rfl
  rw [hsame, hacc]
  simp only [ne_eq, hk, not_false_eq_true, true_implies, and_imp]

/-- The callbacks before the rest. -/
theorem exists_bind_callbacks {x : Except Fault (Outcome α)} {c : Callback α} :
    (∃ o, (do let (s, callbacks) ← x; .ok (s, c :: callbacks)) = .ok o) ↔ ∃ o, x = .ok o := by
  cases x <;> simp [bind, Except.bind]

theorem exists_onAppendEntriesRequest (ndebug : Bool) (s : Server α)
    (request : AppendEntriesRequest α) :
    (∃ o, s.onAppendEntriesRequest ndebug request = .ok o) ↔
      (s.state.findPeer request.header.peerId ≠ none → Accepts s request →
        Takes ndebug s.storage request) := by
  unfold Server.onAppendEntriesRequest
  simp only
  split
  · rename_i hguard
    refine iff_of_true ⟨_, rfl⟩ fun hk ha => ?_
    rcases hguard with hd | hn
    · exact absurd ha.destination hd
    · exact absurd hn hk
  rename_i hguard
  have hd : request.header.destinationId = s.state.id := by
    by_contra h; exact hguard (.inl h)
  have hk : s.state.findPeer request.header.peerId ≠ none := fun h => hguard (.inr h)
  split
  · rename_i hterm
    refine iff_of_true ⟨_, rfl⟩ fun _ ha => ?_
    have := ha.term
    omega
  rename_i hterm
  split
  · rename_i hlt
    have hl : s.storage.currentTerm = request.header.term →
        s.state.leaderId = request.header.peerId ∨ s.state.leaderId = "" := fun h => by omega
    split
    · rw [exists_bind_callbacks]
      refine exists_acceptEntries_checked hd hk (Nat.le_of_not_lt hterm) hl (.inr ?_)
      rfl
    · exact exists_acceptEntries_checked hd hk (Nat.le_of_not_lt hterm) hl (.inr rfl)
  · rename_i hge
    have heq : s.storage.currentTerm = request.header.term := by omega
    split
    · rename_i hne
      split
      · rename_i hempty
        rw [exists_bind_callbacks]
        refine exists_acceptEntries_checked hd hk heq.le (fun _ => .inr hempty) (.inl ?_)
        rfl
      · rename_i hempty
        refine iff_of_true ⟨_, rfl⟩ fun _ ha => ?_
        rcases ha.leader heq with h | h
        · exact absurd h hne
        · exact absurd h hempty
    · rename_i hne
      have hleader : s.state.leaderId = request.header.peerId := by simpa using hne
      exact exists_acceptEntries_checked hd hk heq.le (fun _ => .inl hleader) (.inl rfl)

end

/-! ## `on(VoteResponse)` -/

theorem exists_onVoteResponse (s : Server α) (response : VoteResponse) :
    (∃ o, s.onVoteResponse response = .ok o) ↔
      s.state.findPeer response.header.peerId ≠ none := by
  unfold Server.onVoteResponse
  cases hf : s.state.findPeer response.header.peerId with
  | none => simp [hf]
  | some peer =>
    refine iff_of_true ?_ (by simp)
    simp only [hf]
    split
    · split
      · exact ⟨_, rfl⟩
      · exact ⟨_, rfl⟩
    split
    · exact ⟨_, rfl⟩
    split
    · exact ⟨_, rfl⟩
    split
    · exact ⟨_, rfl⟩
    · exact ⟨_, rfl⟩

/-! ## `on(AppendEntriesResponse)` -/

/-- The entries after an index can be sent. -/
def MemStorage.Sendable (st : MemStorage α) (i : Nat) : Prop := st.Gettable i ∧ st.Since i

/-- The index before the next one of a peer, once the leader has backed off. -/
def Peer.backedOff (peer : Peer) : Nat :=
  if peer.nextEntry.index = 0 then Server.uint64Max - 1 else peer.nextEntry.index - 2

/-- The index the leader commits when the peer acknowledges an index can be committed. -/
def Acknowledgeable (s : Server α) (peerId : String) (index : Nat) : Prop :=
  ∀ commitIndex, Server.newCommit (modifyPeer peerId (Peer.acked index) s.state.knownPeers) =
      .ok commitIndex →
    s.storage.commit.index < commitIndex → s.storage.Committable commitIndex

theorem exists_resend (s : Server α) (peer : Peer) :
    (∃ o, s.resend peer = .ok o) ↔ s.storage.Sendable (peer.nextEntry.index - 2) := by
  have hnext : (if peer.nextEntry.index - 1 = 0 then 1 else peer.nextEntry.index - 1) - 1 =
      peer.nextEntry.index - 2 := by
    split <;> omega
  unfold Server.resend MemStorage.Sendable
  simp only [hnext, exists_bind_ok, ← MemStorage.exists_getEntryInfo,
    ← MemStorage.exists_entriesSince]
  simp

/-- The index to commit depends on the match indexes only. -/
theorem newCommit_congr {ps qs : List Peer}
    (h : ps.map (·.matchEntry.index) = qs.map (·.matchEntry.index)) :
    Server.newCommit ps = Server.newCommit qs := by
  have hlen : ps.length = qs.length := by simpa using congrArg List.length h
  unfold Server.newCommit
  rw [h, hlen]

theorem modifyPeer_ne_nil {q : String} {f : Peer → Peer} {ps : List Peer} (h : ps ≠ []) :
    modifyPeer q f ps ≠ [] := by
  obtain ⟨p, ps, rfl⟩ := List.exists_cons_of_ne_nil h
  unfold modifyPeer
  split <;> simp

theorem exists_acknowledge (s : Server α) (peer : Peer) (index : Nat)
    (hne : s.state.knownPeers ≠ []) :
    (∃ o, s.acknowledge peer index = .ok o) ↔ Acknowledgeable s peer.id index := by
  obtain ⟨commitIndex, hc⟩ :=
    newCommit_ok (modifyPeer_ne_nil (q := peer.id) (f := Peer.acked index) hne)
  have hack : s.acknowledge peer index =
      if s.storage.commit.index < commitIndex then do
        let storage ← s.storage.commitUntil commitIndex
        .ok ({ s.modifyPeer peer.id (Peer.acked index) with storage }, [.commitAdvanced commitIndex])
      else .ok (s.modifyPeer peer.id (Peer.acked index), []) := by
    change (Server.newCommit (modifyPeer peer.id (Peer.acked index) s.state.knownPeers) >>= _) = _
    rw [hc]
    rfl
  unfold Acknowledgeable
  rw [hack]
  simp only [hc, Except.ok.injEq, forall_eq', ← MemStorage.exists_commitUntil]
  split
  · rename_i hlt
    rw [exists_bind_ok]
    simp [hlt]
  · rename_i hge
    simp [hge]

/-- Marking a peer changes nothing for its acknowledgement. -/
theorem acknowledgeable_marked (s : Server α) (peerId : String) (index : Nat) :
    Acknowledgeable (s.modifyPeer peerId ({ · with waitingForResponse := false })) peerId index ↔
      Acknowledgeable s peerId index := by
  have hcongr : Server.newCommit (modifyPeer peerId (Peer.acked index)
      (modifyPeer peerId ({ · with waitingForResponse := false }) s.state.knownPeers)) =
      Server.newCommit (modifyPeer peerId (Peer.acked index) s.state.knownPeers) := by
    apply newCommit_congr
    rw [modifyPeer_modifyPeer (by exact fun _ => rfl)]
    refine map_modifyPeer_congr ?_ _ _
    exact fun _ => rfl
  unfold Acknowledgeable
  change (∀ commitIndex, Server.newCommit (modifyPeer peerId (Peer.acked index)
    (modifyPeer peerId _ s.state.knownPeers)) = .ok commitIndex → _) ↔ _
  rw [hcongr]
  exact Iff.rfl

section
variable {s : Server String} {response : AppendEntriesResponse} {peer : Peer}

/-- Any other response. -/
theorem onAppendEntriesResponse_of_not_awaits
    (hf : s.state.findPeer response.header.peerId = some peer) (h : ¬ s.Awaits response peer) :
    ∃ o, s.onAppendEntriesResponse response = .ok o := by
  unfold Server.onAppendEntriesResponse
  simp only [hf]
  split
  · exact ⟨_, rfl⟩
  rename_i hd
  split
  · exact ⟨_, rfl⟩
  rename_i hguard
  simp only [ne_eq, not_or, not_not, Bool.not_eq_false, Nat.not_lt] at hd hguard
  split
  · exact ⟨_, rfl⟩
  rename_i hterm
  split
  · exact ⟨_, rfl⟩
  rename_i hrole
  have hle : response.header.term ≤ s.storage.currentTerm := Nat.le_of_not_lt hterm
  have hrole' : s.state.role = .leader := Classical.not_not.1 hrole
  exact absurd ⟨hd, hguard.1, hguard.2.1, le_antisymm hle hguard.2.2, hrole'⟩ h

end

/-- For a response the leader waits for, what it sends or commits next is in place. -/
def Answerable (s : Server String) (response : AppendEntriesResponse) : Prop :=
  ∀ peer, s.state.findPeer response.header.peerId = some peer → s.Awaits response peer →
    (response.success = false → s.storage.Sendable peer.backedOff) ∧
      (response.success = true → peer.matchEntry.index < response.header.logState.uncommit.index →
        Acknowledgeable s response.header.peerId response.header.logState.uncommit.index)

theorem exists_onAppendEntriesResponse64 (s : Server String) (response : AppendEntriesResponse) :
    (∃ o, s.onAppendEntriesResponse64 response = .ok o) ↔ Answerable s response := by
  unfold Server.onAppendEntriesResponse64 Answerable
  cases hf : s.state.findPeer response.header.peerId with
  | none => simp [Server.onAppendEntriesResponse, hf]
  | some peer =>
    simp only [Option.some.injEq, forall_eq']
    by_cases hwait : s.Awaits response peer
    · simp only [hwait, true_and, true_implies, onAppendEntriesResponse_of_awaits hf hwait]
      obtain ⟨hmem, hid⟩ := findPeer_some hf
      have hne : s.state.knownPeers ≠ [] := List.ne_nil_of_mem hmem
      cases hs : response.success with
      | false =>
        simp only [true_and, true_implies, reduceCtorEq, false_implies, and_true, if_true,
          Peer.backedOff]
        split
        · exact exists_resend _ _
        · exact exists_resend _ _
      | true =>
        simp only [reduceCtorEq, false_and, if_false, false_implies, true_and, true_implies]
        split
        · rename_i hlt
          rw [exists_acknowledge _ _ _ (modifyPeer_ne_nil hne), hid, acknowledgeable_marked]
          simp only [hlt, true_implies]
        · rename_i hge
          simp [hge]
    · simp only [hwait, false_and, if_false, false_implies, iff_true]
      exact onAppendEntriesResponse_of_not_awaits hf hwait

/-! ## `on(ClientRequest)` -/

section
variable {s : Server α} {newIndex : Nat} {req : AppendEntriesRequest α} {peer : Peer}

/-- The peer is sent the new entry. -/
def Ready (s : Server α) (newIndex : Nat) (peer : Peer) : Prop :=
  peer.id ≠ s.state.id ∧ peer.nextEntry.index = newIndex ∧ peer.waitingForResponse = false

/-- A pass over a peer that is sent nothing leaves the shared request. -/
theorem replicateTo_of_not_ready (h : ¬ Ready s newIndex peer) (req : AppendEntriesRequest α) :
    ∃ peer' sends, s.replicateTo newIndex req peer = .ok (req, peer', sends) := by
  unfold Server.replicateTo
  split
  · exact ⟨_, _, rfl⟩
  rename_i hself
  split
  · exact ⟨_, _, rfl⟩
  rename_i hskip
  simp only [ne_eq, not_or, not_not, Bool.not_eq_true] at hskip
  exact absurd ⟨by simpa using hself, hskip⟩ h

/-- A pass over the other peers reads the storage, unless an earlier one has. -/
theorem replicateTo_of_ready (h : Ready s newIndex peer) (req : AppendEntriesRequest α) :
    (∃ r, s.replicateTo newIndex req peer = .ok r) ↔
      (req.previousEntry.index ≠ newIndex - 1 → s.storage.Sendable (newIndex - 1)) := by
  obtain ⟨hself, hnext, hwait⟩ := h
  unfold Server.replicateTo MemStorage.Sendable
  rw [if_neg (by simpa using hself), if_neg (by simp [hnext, hwait])]
  simp only [hnext]
  split
  · rename_i hne
    simp only [exists_bind_ok, ← MemStorage.exists_getEntryInfo, ← MemStorage.exists_entriesSince]
    simp [hne]
  · rename_i heq
    simp [bind, Except.bind, heq]

/-- It leaves the entry before the new one in the shared request. -/
theorem previousEntry_of_replicateTo (h : Ready s newIndex peer)
    {r : AppendEntriesRequest α × Peer × List (Callback α)}
    (hr : s.replicateTo newIndex req peer = .ok r) : r.1.previousEntry.index = newIndex - 1 := by
  obtain ⟨hself, hnext, hwait⟩ := h
  unfold Server.replicateTo at hr
  rw [if_neg (by simpa using hself), if_neg (by simp [hnext, hwait])] at hr
  simp only [hnext] at hr
  split at hr
  · obtain ⟨info, -, hr⟩ := bind_ok hr
    obtain ⟨entries, -, hr⟩ := bind_ok hr
    cases hr
    rfl
  · rename_i heq
    cases hr
    simpa using heq

theorem exists_replicate (s : Server α) (newIndex : Nat) :
    ∀ (peers : List Peer) (req : AppendEntriesRequest α),
      (∃ r, s.replicate newIndex req peers = .ok r) ↔
        (req.previousEntry.index ≠ newIndex - 1 → (∃ peer ∈ peers, Ready s newIndex peer) →
          s.storage.Sendable (newIndex - 1))
  | [], _ => by simp [Server.replicate]
  | peer :: peers, req => by
    have ih := exists_replicate s newIndex peers
    have hrest : ∀ r : AppendEntriesRequest α × Peer × List (Callback α),
        (∃ o, (do
          let after ← s.replicate newIndex r.1 peers
          .ok (r.2.1 :: after.1, r.2.2 ++ after.2) : Except Fault _) = .ok o) ↔
        (r.1.previousEntry.index ≠ newIndex - 1 → (∃ peer ∈ peers, Ready s newIndex peer) →
          s.storage.Sendable (newIndex - 1)) := by
      intro r
      rw [← ih, exists_bind_ok]
      simp
    have hcall : (∃ o, s.replicate newIndex req (peer :: peers) = .ok o) ↔
        ∃ r, s.replicateTo newIndex req peer = .ok r ∧
          (r.1.previousEntry.index ≠ newIndex - 1 → (∃ peer ∈ peers, Ready s newIndex peer) →
            s.storage.Sendable (newIndex - 1)) := by
      unfold Server.replicate
      rw [exists_bind_ok]
      exact exists_congr fun r => and_congr_right fun _ => hrest r
    rw [hcall]
    by_cases h : Ready s newIndex peer
    · have hall : (∃ p ∈ peer :: peers, Ready s newIndex p) := ⟨peer, List.mem_cons_self, h⟩
      simp only [hall, true_implies, ← replicateTo_of_ready h]
      constructor
      · intro hr
        exact ⟨hr.choose, hr.choose_spec.1⟩
      · intro hr
        obtain ⟨r, hr⟩ := hr
        exact ⟨r, hr, fun hne => absurd (previousEntry_of_replicateTo h hr) hne⟩
    · obtain ⟨peer', sends, hto⟩ := replicateTo_of_not_ready h req
      rw [hto]
      simp only [Except.ok.injEq, exists_eq_left', List.mem_cons, exists_eq_or_imp, h, false_or]

end

/-- The new entry gets an index, and can be sent if a peer waits for it. -/
def Replicable (s : Server String) (request : ClientRequest String) : Prop :=
  s.state.role = .leader →
    s.storage.uncommit.index ≠ Server.uint64Max ∧
      ((∃ peer ∈ s.state.knownPeers, Ready s (s.storage.uncommit.index + 1) peer) →
        (s.storage.afterAppend [⟨⟨s.storage.uncommit.index + 1, s.storage.currentTerm⟩,
          request.data⟩]).Sendable s.storage.uncommit.index)

theorem exists_onClientRequest64 (s : Server String) (request : ClientRequest String) :
    (∃ o, s.onClientRequest64 request = .ok o) ↔ Replicable s request := by
  unfold Server.onClientRequest64 Replicable
  by_cases hlead : s.state.role = .leader
  · simp only [hlead, true_and, true_implies]
    by_cases hmax : s.storage.uncommit.index = Server.uint64Max
    · have hna := s.storage.not_appendable_zero s.storage.currentTerm request.data []
      rw [← MemStorage.exists_append] at hna
      rw [if_pos hmax, exists_bind_ok]
      refine iff_of_false (fun h => ?_) (fun h => h.1 hmax)
      obtain ⟨r, hr, -⟩ := h
      exact hna ⟨r, hr⟩
    · rw [if_neg hmax, and_iff_right hmax]
      unfold Server.onClientRequest
      simp only [hlead]
      generalize he : (⟨⟨s.storage.uncommit.index + 1, s.storage.currentTerm⟩, request.data⟩ :
        Entry String) = e
      have hidx : e.info.index = s.storage.uncommit.index + 1 := by rw [← he]
      have happ : s.storage.Appendable [e] := by
        intro front hfront hle
        cases hfront
        omega
      obtain ⟨r, hr⟩ := (MemStorage.exists_append _ _).2 happ
      have hlast : (s.storage.afterAppend [e]).uncommit.index = s.storage.uncommit.index + 1 := hidx
      rw [hr, MemStorage.append_eq hr]
      simp only [bind, Except.bind, hlast, ne_eq, not_true_eq_false, if_false]
      -- no earlier pass has left this index in the shared request
      have hfirst : Server.uint64Max ≠ s.storage.uncommit.index := Ne.symm hmax
      have hrep := exists_replicate { s with storage := s.storage.afterAppend [e] }
        (s.storage.uncommit.index + 1) s.state.knownPeers
        ⟨Server.header { s with storage := s.storage.afterAppend [e] } "" 0
          (s.storage.afterAppend [e]).currentTerm, ⟨Server.uint64Max, Server.uint64Max⟩, []⟩
      simp only [Nat.add_sub_cancel, ne_eq, hfirst, not_false_eq_true, true_implies] at hrep
      refine Iff.trans ?_ hrep
      split
      · rename_i hfault
        simp [hfault]
      · rename_i hok
        simp [hok]
  · simp only [hlead, false_and, if_false, false_implies, iff_true]
    unfold Server.onClientRequest
    split
    · split
      · exact ⟨_, rfl⟩
      · exact ⟨_, rfl⟩
    · exact ⟨_, rfl⟩
    · rename_i h
      exact absurd h hlead

/-! ## All messages -/

/-- What the handler of the message needs of the node. -/
def Survives (ndebug : Bool) (s : Server String) : Message String → Prop
  | .voteRequest _ => True
  | .voteResponse response => s.state.findPeer response.header.peerId ≠ none
  | .appendEntriesRequest request => s.state.findPeer request.header.peerId ≠ none →
      Accepts s request → Takes ndebug s.storage request
  | .appendEntriesResponse response => Answerable s response
  | .clientRequest request => Replicable s request

theorem exists_on (ndebug : Bool) (s : Server String) (message : Message String) :
    (∃ o, s.on ndebug message = .ok o) ↔ Survives ndebug s message := by
  cases message with
  | voteRequest request => exact iff_of_true ⟨_, rfl⟩ trivial
  | voteResponse response => exact exists_onVoteResponse s response
  | appendEntriesRequest request => exact exists_onAppendEntriesRequest ndebug s request
  | appendEntriesResponse response => exact exists_onAppendEntriesResponse64 s response
  | clientRequest request => exact exists_onClientRequest64 s request

theorem exists_handOver (ndebug : Bool) (network : Network) (s : Server String)
    (message : Message String) :
    (∃ r, handOver ndebug network s message = .ok r) ↔ Survives ndebug s message := by
  rw [← exists_on, handOver, exists_bind_ok]
  cases s.on ndebug message with
  | error f => simp [Except.mapError]
  | ok o => simp [Except.mapError]

end Raft
