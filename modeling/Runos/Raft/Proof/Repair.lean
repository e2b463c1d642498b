import Runos.Raft.Proof.Following
import Runos.Raft.Proof.Quorum

/-!
# Log repair

A leader that is told that a follower has not got as far as `previous_entry` backs off by one
entry and sends everything from there on. `Repairing` is the state of the two nodes while such a
request is on its way: each round trip brings it one entry closer to the end of the follower's log,
where the follower takes it (`Repairing.declined`, `Repairing.accepted`). So one round trip for each
missing entry and a last one leave the follower with its own log and the missing rest of the
leader's (`log_repaired`). The follower's entries are not compared with the leader's.
-/

namespace Raft

open Runs

variable {α : Type}

/-! ## Peers -/

section
variable {f : Peer → Peer} {q : String} {n : Server α}

theorem find?_modifyPeer (hf : ∀ p, (f p).id = p.id) :
    ∀ ps : List Peer, (modifyPeer q f ps).find? (·.id == q) = (ps.find? (·.id == q)).map f
  | [] => rfl
  | p :: ps => by
    unfold modifyPeer
    split
    · rename_i hp
      simp [hf, hp]
    · rename_i hp
      simp [hp, find?_modifyPeer hf ps]

/-- The record that was written is found. -/
theorem findPeer_modifyPeer (hf : ∀ p, (f p).id = p.id) (n : Server α) (q : String) :
    (n.modifyPeer q f).state.findPeer q = (n.state.findPeer q).map f :=
  find?_modifyPeer hf _

end

/-! ## A request on its way -/

section
variable {ids : List String} {ℓ p : String} {ndebug : Bool} {L F : Server α} {peer : Peer}
  {r : AppendEntriesRequest α} {a : AppendEntriesResponse}

/-- The leader `ℓ` waits for the answer of `p` to `r`, which has everything that comes after
`previous_entry` in its log; `p` has no more than what comes before, and will follow `ℓ`. -/
structure Repairing (ids : List String) (ℓ p : String) (ndebug : Bool) (L F : Server α)
    (r : AppendEntriesRequest α) : Prop where
  leader : L.Ok ids ℓ
  follower : F.Ok ids p
  role : L.state.role = .leader
  awaits : ∃ peer, L.state.findPeer p = some peer ∧ peer.waitingForResponse = true ∧
    peer.lastMessageId = r.header.messageId ∧
    peer.nextEntry.index = r.previousEntry.index + 1 ∧
    peer.matchEntry.index ≤ F.storage.entries.length
  source : r.header.peerId = ℓ
  destination : r.header.destinationId = p
  member : ℓ ∈ ids
  term : r.header.term = L.storage.currentTerm
  logState : r.header.logState = L.storage.logState
  entries : r.entries = L.storage.entries.drop r.previousEntry.index
  previous_le : r.previousEntry.index ≤ L.storage.entries.length
  behind : F.storage.entries.length ≤ r.previousEntry.index
  term_le : F.storage.currentTerm ≤ L.storage.currentTerm
  follows : F.storage.currentTerm = L.storage.currentTerm →
    F.state.leaderId = ℓ ∨ F.state.leaderId = ""
  asserted : ndebug = false → F.storage.commit.index < L.storage.commit.index →
    F.storage.commit.term ≤ L.storage.commit.term

/-- The follower has the rest of the leader's log after its own, and the leader knows it. -/
structure Repaired (p : String) (L F L' F' : Server α) : Prop where
  entries : F'.storage.entries =
    F.storage.entries ++ L.storage.entries.drop F.storage.entries.length
  commit : F'.storage.commit.index = max F.storage.commit.index L.storage.commit.index
  leader : L'.storage.entries = L.storage.entries ∧ L'.state.role = .leader ∧
    L'.storage.currentTerm = L.storage.currentTerm
  matched : ∃ peer, L'.state.findPeer p = some peer ∧ peer.waitingForResponse = false ∧
    peer.matchEntry.index = L.storage.entries.length ∧
    peer.nextEntry.index = L.storage.entries.length + 1
  commits : F.storage.entries.length < L.storage.entries.length →
    L'.state.knownPeers.length / 2 + 1 ≤
      (acknowledging L'.state.knownPeers L.storage.entries.length).card →
    L'.storage.commit.index = L.storage.entries.length

/-- The follower has answered `r` with `a`, and the leader has taken the answer and sent `next`. -/
def Exchange (ndebug : Bool) (L F : Server α) (r : AppendEntriesRequest α) (L' F' : Server α)
    (next : List (Envelope α)) : Prop :=
  ∃ a cbs cbs', F.onAppendEntriesRequest ndebug r = .ok (F', cbs) ∧
    sends cbs = [⟨L.state.id, .appendEntriesResponse a⟩] ∧
    L.onAppendEntriesResponse a = .ok (L', cbs') ∧ sends cbs' = next

/-- What the leader sends when it backs off to the entry after `k`. -/
theorem resend_eq (hn : L.storage.Rep) {k : Nat} (hnext : peer.nextEntry.index = k + 2) :
    L.resend peer = .ok
      (L.modifyPeer peer.id fun q => { q with
        nextEntry := { q.nextEntry with index := k + 1 }
        lastMessageId := peer.lastMessageId + 1
        waitingForResponse := true },
      [.send peer.id (.appendEntriesRequest
        { header := L.header peer.id (peer.lastMessageId + 1) L.storage.currentTerm
          previousEntry := infoAt L.storage.entries k
          entries := L.storage.entries.drop k })]) := by
  have hback : (if peer.nextEntry.index - 1 = 0 then 1 else peer.nextEntry.index - 1) = k + 1 := by
    rw [if_neg (by omega)]
    omega
  unfold Server.resend
  simp only [hback, Nat.add_sub_cancel, hn.getEntryInfo, hn.entriesSince, bind, Except.bind]

/-- What a follower answers that takes the request. -/
theorem acceptEntries_taken (response : AppendEntriesResponse) (hF : F.storage.Rep)
    (hes : Consecutive r.previousEntry.index r.entries)
    (hlow : F.storage.commit.index ≤ r.previousEntry.index)
    (hhigh : r.previousEntry.index ≤ F.storage.uncommit.index)
    (has : ndebug = false → F.storage.commit.index < r.header.logState.commit.index →
      F.storage.commit.term ≤ r.header.logState.commit.term) :
    ∃ cbs, F.acceptEntries ndebug r response =
        .ok ({ state := { F.state with minimumTimeoutReached := false }
               storage := F.storage.taken r }, cbs) ∧
      sends cbs = [⟨r.header.peerId, .appendEntriesResponse
        { header := { response.header with logState := (F.storage.taken r).logState }
          success := true }⟩] := by
  have hprev : r.previousEntry.index ≤ F.storage.entries.length := by
    rwa [← hF.uncommit_index]
  have hrep := hF.spliced hprev hes hlow
  unfold Server.acceptEntries
  simp only [EntryInfo.ne_eq_true, true_and, MemStorage.logState, Nat.not_lt.2 hlow,
    Nat.not_lt.2 hhigh, if_false, hF.append hprev hes, bind, Except.bind]
  split
  · rename_i hadv
    have hadv : F.storage.commit.index < r.header.logState.commit.index := hadv
    have htaken : F.storage.taken r = _ := if_pos hadv
    have hpass : ¬ (ndebug = false ∧
        r.header.logState.commit.term < (F.storage.spliced r.previousEntry.index
          r.entries).commit.term) := fun hfail =>
      absurd (has hfail.1 hadv) (Nat.not_le.2 hfail.2)
    rw [if_neg hpass]
    simp only [hrep.commitUntil]
    rw [htaken]
    exact ⟨_, rfl, rfl⟩
  · rename_i hadv
    have htaken : F.storage.taken r = _ := if_neg hadv
    rw [htaken]
    exact ⟨_, rfl, rfl⟩

/-- What the leader does with an acknowledged index: the commit index is raised to what a majority
has. -/
theorem acknowledge_eq (hL : L.Ok ids ℓ) (hne : L.state.knownPeers ≠ []) (peer : Peer)
    (index : Nat) :
    ∃ v storage cbs,
      Server.newCommit (modifyPeer peer.id (Peer.acked index) L.state.knownPeers) = .ok v ∧
      L.acknowledge peer index =
        .ok ({ L.modifyPeer peer.id (Peer.acked index) with storage }, cbs) ∧
      sends cbs = [] ∧ storage.entries = L.storage.entries ∧
      storage.currentTerm = L.storage.currentTerm ∧
      storage.commit.index = max L.storage.commit.index (min L.storage.entries.length v) := by
  have hne' : modifyPeer peer.id (Peer.acked index) L.state.knownPeers ≠ [] := by
    intro hnil
    have hmap := map_modifyPeer (g := fun _ => ()) (f := Peer.acked index) (fun _ => rfl) peer.id
      L.state.knownPeers
    rw [hnil] at hmap
    exact hne (List.map_eq_nil_iff.1 hmap.symm)
  obtain ⟨v, hv⟩ := newCommit_ok hne'
  have hcall : L.acknowledge peer index =
      if L.storage.commit.index < v then do
        let storage ← L.storage.commitUntil v
        .ok ({ L.modifyPeer peer.id (Peer.acked index) with storage }, [.commitAdvanced v])
      else .ok (L.modifyPeer peer.id (Peer.acked index), []) := by
    change (Server.newCommit (modifyPeer peer.id (Peer.acked index) L.state.knownPeers) >>= _) = _
    rw [hv]
    rfl
  have hle := hL.rep.commit_le
  rw [hcall]
  split
  · rename_i hlt
    refine ⟨v, { L.storage with
      commit := infoAt L.storage.entries (min L.storage.entries.length v) }, _, hv,
      by rw [hL.rep.commitUntil]; rfl, rfl, rfl, rfl, ?_⟩
    rw [Nat.max_eq_right (by omega)]
    exact infoAt_index hL.rep.index (Nat.min_le_left _ _)
  · rename_i hge
    refine ⟨v, L.storage, _, hv, rfl, rfl, rfl, rfl, ?_⟩
    rw [Nat.max_eq_left (by omega)]

namespace Repairing

theorem consecutive (h : Repairing ids ℓ p ndebug L F r) :
    Consecutive r.previousEntry.index r.entries := by
  rw [h.entries]
  exact h.leader.rep.index.drop _

/-- The follower goes on with `acceptEntries`. -/
theorem request (h : Repairing ids ℓ p ndebug L F r) :
    ∃ F₁ cbs, Follows ids p F r F₁ ∧ F₁.state.leaderId = ℓ ∧ sends cbs = [] ∧
      F.onAppendEntriesRequest ndebug r =
        (F₁.acceptEntries ndebug r ⟨F.header ℓ r.header.messageId r.header.term, false⟩).map
          fun o => (o.1, cbs ++ o.2) := by
  have hknown : r.header.destinationId = F.state.id ∧
      F.state.findPeer r.header.peerId ≠ none := by
    obtain ⟨peer, hpeer⟩ := h.follower.findPeer_of_mem (h.source ▸ h.member)
    exact ⟨h.destination.trans h.follower.id.symm, by simp [hpeer]⟩
  rcases onAppendEntriesRequest_cases ndebug h.follower r with ⟨hx, -⟩ | ⟨-, ⟨hlt, -⟩ |
    ⟨⟨heq, hother, hsome⟩, -⟩ | ⟨F₁, cbs, hfol, hlead, hcbs, hx⟩⟩
  · exact absurd hknown hx
  · have hle := h.term_le
    rw [← h.term] at hle
    exact absurd hlt (Nat.not_lt.2 hle)
  · rw [h.source] at hother
    exact (h.follows (heq.trans h.term)).elim (fun hx => absurd hx hother) fun hx =>
      absurd hx hsome
  · rw [h.source] at hlead hx
    exact ⟨F₁, cbs, hfol, hlead, hcbs, hx⟩

/-- The answer `a` finds the leader waiting for it. -/
theorem answered (h : Repairing ids ℓ p ndebug L F r) (ha : a.header =
      { F.header ℓ r.header.messageId r.header.term with logState := a.header.logState }) :
    ∃ peer, L.state.findPeer a.header.peerId = some peer ∧ peer.id = p ∧
      peer.lastMessageId = r.header.messageId ∧
      peer.nextEntry.index = r.previousEntry.index + 1 ∧
      peer.matchEntry.index ≤ F.storage.entries.length ∧
      L.onAppendEntriesResponse a =
        let s := L.modifyPeer p ({ · with waitingForResponse := false })
        if a.success = false then s.resend peer
        else if peer.matchEntry.index < a.header.logState.uncommit.index then
          s.acknowledge peer a.header.logState.uncommit.index
        else .ok (s, []) := by
  obtain ⟨peer, hf, hw, hm, hnext, hmatch⟩ := h.awaits
  have hsource : a.header.peerId = p := by
    rw [ha]
    exact h.follower.id
  have hdest : a.header.destinationId = L.state.id := by
    rw [ha]
    exact h.leader.id.symm
  have hid : a.header.messageId = r.header.messageId := by rw [ha]; rfl
  have hterm : a.header.term = L.storage.currentTerm := by rw [ha]; exact h.term
  refine ⟨peer, hsource ▸ hf, (findPeer_some hf).2, hm, hnext, hmatch, ?_⟩
  rw [onAppendEntriesResponse_of_awaits (hsource ▸ hf)
    ⟨hdest, hw, hm.trans hid.symm, hterm, h.role⟩, hsource]

/-- **A declined request**: the leader backs off by one entry. -/
theorem declined (h : Repairing ids ℓ p ndebug L F r)
    (hgap : F.storage.entries.length < r.previousEntry.index) :
    ∃ L' F' r', Exchange ndebug L F r L' F' [⟨p, .appendEntriesRequest r'⟩] ∧
      Repairing ids ℓ p ndebug L' F' r' ∧
      r'.previousEntry.index + 1 = r.previousEntry.index ∧ L'.storage = L.storage ∧
      F'.storage.entries = F.storage.entries ∧ F'.storage.commit = F.storage.commit := by
  obtain ⟨F₁, cbs, hfol, hlead, hcbs, hreq⟩ := h.request
  have hcommit : F₁.storage.commit.index ≤ F.storage.entries.length := by
    rw [hfol.commit]
    exact h.follower.rep.commit_le
  have hentries : F₁.storage.entries = F.storage.entries := by
    rw [hfol.storage]
    split <;> rfl
  have huncommit : F₁.storage.uncommit.index = F.storage.entries.length := by
    rw [hfol.uncommit, h.follower.rep.uncommit_index]
  have hanswer : F₁.acceptEntries ndebug r ⟨F.header ℓ r.header.messageId r.header.term, false⟩ =
      .ok (F₁, [.send ℓ (.appendEntriesResponse
        ⟨F.header ℓ r.header.messageId r.header.term, false⟩)]) := by
    have hlow : ¬ r.previousEntry.index < F₁.storage.commit.index := by omega
    have hhigh : F₁.storage.uncommit.index < r.previousEntry.index := by omega
    simp only [Server.acceptEntries, EntryInfo.ne_eq_true, true_and, MemStorage.logState, hlow,
      if_false, hhigh, if_true, h.source]
  obtain ⟨peer, hf, hpid, hm, hnext, hmatch, hresp⟩ :=
    h.answered (a := ⟨F.header ℓ r.header.messageId r.header.term, false⟩) rfl
  obtain ⟨k, hk⟩ : ∃ k, r.previousEntry.index = k + 1 := ⟨r.previousEntry.index - 1, by omega⟩
  have hmarked : (L.modifyPeer p ({ · with waitingForResponse := false })).Ok ids ℓ :=
    modifyPeer_ok h.leader fun _ => rfl
  have hprev : (infoAt L.storage.entries k).index = k := by
    have := h.previous_le
    exact infoAt_index h.leader.rep.index (by omega)
  rw [if_pos rfl, resend_eq hmarked.rep (k := k) (by omega), hpid] at hresp
  refine ⟨_, F₁, _, ⟨_, _, _, by rw [hreq, hanswer]; rfl, ?_, hresp, rfl⟩, ?_, ?_, rfl,
    hentries, hfol.commit⟩
  · rw [sends_append, hcbs, h.leader.id]
    rfl
  · have hpeer : L.state.findPeer p = some peer := by
      rwa [show (F.header ℓ r.header.messageId r.header.term).peerId = p from
        h.follower.id] at hf
    let peer' : Peer := { peer with
      nextEntry := { peer.nextEntry with index := k + 1 }
      lastMessageId := peer.lastMessageId + 1
      waitingForResponse := true }
    refine ⟨modifyPeer_ok hmarked fun _ => rfl, hfol.ok, h.role, ⟨peer', ?_, rfl, rfl, ?_, ?_⟩,
      h.leader.id, rfl, h.member, rfl, rfl, ?_, ?_, ?_, ?_, fun _ => .inl hlead, ?_⟩
    · rw [findPeer_modifyPeer (by exact fun _ => rfl), findPeer_modifyPeer (by exact fun _ => rfl),
        hpeer]
      rfl
    · exact congrArg (· + 1) hprev.symm
    · rw [hentries]
      exact hmatch
    · exact congrArg (L.storage.entries.drop ·) hprev.symm
    · show (infoAt L.storage.entries k).index ≤ L.storage.entries.length
      have := h.previous_le
      omega
    · show F₁.storage.entries.length ≤ (infoAt L.storage.entries k).index
      rw [hentries]
      omega
    · exact (hfol.currentTerm.trans h.term).le
    · intro hnd hlt
      rw [hfol.commit] at hlt ⊢
      exact h.asserted hnd hlt
  · exact (congrArg (· + 1) hprev).trans hk.symm

/-- The storage of the follower once it has taken the request. -/
theorem taken_storage (h : Repairing ids ℓ p ndebug L F r)
    (hend : F.storage.entries.length = r.previousEntry.index) :
    (F.storage.taken r).entries =
        F.storage.entries ++ L.storage.entries.drop F.storage.entries.length ∧
      (F.storage.taken r).Rep ∧
      (F.storage.taken r).commit.index = max F.storage.commit.index L.storage.commit.index := by
  have hsplice : splice F.storage.entries r.previousEntry.index r.entries =
      F.storage.entries ++ L.storage.entries.drop F.storage.entries.length := by
    rw [h.entries, ← hend]
    unfold splice
    split
    · rename_i hnil
      rw [hnil, List.append_nil]
    · rw [List.take_length]
  have hlen : (splice F.storage.entries r.previousEntry.index r.entries).length =
      L.storage.entries.length := by
    have := h.previous_le
    rw [hsplice, List.length_append, List.length_drop]
    omega
  have hrep : (F.storage.taken r).Rep :=
    h.follower.rep.taken hend.ge h.consecutive (by rw [← hend]; exact h.follower.rep.commit_le)
  have hcommit : L.storage.commit.index ≤ L.storage.entries.length := h.leader.rep.commit_le
  refine ⟨?_, hrep, ?_⟩
  · rw [← hsplice]
    unfold MemStorage.taken
    dsimp only
    split <;> rfl
  · have hidx := hrep.index
    unfold MemStorage.taken at hidx ⊢
    dsimp only [MemStorage.spliced] at hidx ⊢
    rw [show r.header.logState.commit = L.storage.commit by rw [h.logState]; rfl] at hidx ⊢
    split at hidx
    · rename_i hlt
      rw [if_pos hlt, hlen, Nat.min_eq_right hcommit, Nat.max_eq_right hlt.le]
      exact infoAt_index hidx (by rw [hlen]; exact hcommit)
    · rename_i hge
      rw [if_neg hge, Nat.max_eq_left (Nat.le_of_not_lt hge)]

/-- The follower takes the last request, and says how far it has got. -/
theorem takes (h : Repairing ids ℓ p ndebug L F r)
    (hend : F.storage.entries.length = r.previousEntry.index) :
    ∃ F' cbs a, F.onAppendEntriesRequest ndebug r = .ok (F', cbs) ∧
      sends cbs = [⟨ℓ, .appendEntriesResponse a⟩] ∧ a.success = true ∧
      a.header = { F.header ℓ r.header.messageId r.header.term with
        logState := a.header.logState } ∧
      a.header.logState.uncommit.index = L.storage.entries.length ∧
      F'.storage.entries =
        F.storage.entries ++ L.storage.entries.drop F.storage.entries.length ∧
      F'.storage.commit.index = max F.storage.commit.index L.storage.commit.index := by
  obtain ⟨F₁, cbs, hfol, hlead, hcbs, hreq⟩ := h.request
  obtain ⟨hentries, hrep, hcommit⟩ := h.taken_storage hend
  -- a new term changes neither the log nor the commit index
  have htaken : (F₁.storage.taken r).entries = (F.storage.taken r).entries ∧
      (F₁.storage.taken r).uncommit = (F.storage.taken r).uncommit ∧
      (F₁.storage.taken r).commit = (F.storage.taken r).commit := by
    rw [hfol.storage]
    split
    · unfold MemStorage.taken
      dsimp only [MemStorage.spliced, MemStorage.steppedDown]
      split
      · exact ⟨rfl, rfl, rfl⟩
      · exact ⟨rfl, rfl, rfl⟩
    · exact ⟨rfl, rfl, rfl⟩
  have hlog : r.header.logState.commit = L.storage.commit := by rw [h.logState]; rfl
  have hlow : F₁.storage.commit.index ≤ r.previousEntry.index := by
    rw [hfol.commit, ← hend]
    exact h.follower.rep.commit_le
  have hhigh : r.previousEntry.index ≤ F₁.storage.uncommit.index := by
    rw [hfol.uncommit, h.follower.rep.uncommit_index]
    exact hend.ge
  have has : ndebug = false → F₁.storage.commit.index < r.header.logState.commit.index →
      F₁.storage.commit.term ≤ r.header.logState.commit.term := by
    rw [hfol.commit, hlog]
    exact h.asserted
  obtain ⟨cbs₁, hacc, hsends⟩ := acceptEntries_taken
    ⟨F.header ℓ r.header.messageId r.header.term, false⟩ hfol.ok.rep h.consecutive hlow hhigh has
  refine ⟨_, _, { header := { F.header ℓ r.header.messageId r.header.term with
      logState := (F₁.storage.taken r).logState }, success := true },
    by rw [hreq, hacc]; rfl, ?_, rfl, rfl, ?_, htaken.1.trans hentries, ?_⟩
  · rw [sends_append, hcbs, hsends, h.source]
    rfl
  · have hle := h.previous_le
    show (F₁.storage.taken r).uncommit.index = _
    rw [htaken.2.1, hrep.uncommit_index, hentries, List.length_append, List.length_drop]
    omega
  · exact (congrArg EntryInfo.index htaken.2.2).trans hcommit

/-- **The last request**: the follower takes the rest of the log, and the leader counts it. -/
theorem accepted (h : Repairing ids ℓ p ndebug L F r)
    (hend : F.storage.entries.length = r.previousEntry.index) :
    ∃ L' F', Exchange ndebug L F r L' F' [] ∧ Repaired p L F L' F' := by
  obtain ⟨F', cbs, a, hreq, hsends, hsuccess, ha, hlast, hentries, hcommit⟩ := h.takes hend
  obtain ⟨peer, hf, hpid, -, hnext, hmatch, hresp⟩ := h.answered ha
  have hpeer : L.state.findPeer p = some peer := by
    rwa [show a.header.peerId = p by rw [ha]; exact h.follower.id] at hf
  have hid := h.leader.id
  have hle := h.previous_le
  generalize hL₁ : L.modifyPeer p ({ · with waitingForResponse := false }) = L₁ at hresp
  have hok₁ : L₁.Ok ids ℓ := hL₁ ▸ modifyPeer_ok h.leader fun _ => rfl
  have hst₁ : L₁.storage = L.storage := hL₁ ▸ rfl
  have hrole₁ : L₁.state.role = .leader := hL₁ ▸ h.role
  have hpeer₁ : L₁.state.findPeer p = some { peer with waitingForResponse := false } := by
    rw [← hL₁, findPeer_modifyPeer (by exact fun _ => rfl), hpeer]
    rfl
  simp only [hsuccess, reduceCtorEq, if_false, hlast] at hresp
  by_cases hraise : peer.matchEntry.index < L.storage.entries.length
  · have hne : L₁.state.knownPeers ≠ [] := List.ne_nil_of_mem (findPeer_some hpeer₁).1
    obtain ⟨v, storage, cbs', hv, hack, hsends', hent, hterm, hcom⟩ :=
      acknowledge_eq hok₁ hne peer L.storage.entries.length
    rw [if_pos hraise, hack] at hresp
    rw [hpid] at hresp hv
    rw [hst₁] at hent hterm hcom
    refine ⟨_, F', ⟨a, cbs, cbs', hreq, by rw [hsends, hid], hresp, hsends'⟩, hentries, hcommit,
      ⟨hent, hrole₁, hterm⟩, ⟨Peer.acked L.storage.entries.length
        { peer with waitingForResponse := false }, ?_, rfl, rfl, ?_⟩, fun _ hmaj => ?_⟩
    · have hfind := findPeer_modifyPeer (f := Peer.acked L.storage.entries.length)
        (by exact fun _ => rfl) L₁ p
      rw [hpeer₁] at hfind
      exact hfind
    · show max peer.nextEntry.index (L.storage.entries.length + 1) = _
      rw [hnext]
      omega
    · -- the commit index is the last one that a majority has, so that of the log's end
      have hge := (newCommit_isGreatest hv).2 hmaj
      have hcl := h.leader.rep.commit_le
      rw [hcom]
      omega
  · rw [if_neg hraise] at hresp
    refine ⟨L₁, F', ⟨a, cbs, [], hreq, by rw [hsends, hid], hresp, rfl⟩, hentries, hcommit,
      ⟨by rw [hst₁], hrole₁, by rw [hst₁]⟩, ⟨_, hpeer₁, rfl, ?_, ?_⟩, fun hlt => ?_⟩
    · show peer.matchEntry.index = _
      omega
    · show peer.nextEntry.index = _
      omega
    · omega

end Repairing

end

/-! ## In a cluster -/

section
variable {ℓ p : String} {ndebug : Bool} {s : Cluster α} {L' F' : Server α}
  {r : AppendEntriesRequest α} {rest next : List (Envelope α)}

/-- The last message in flight is delivered. -/
theorem Cluster.step_last {m : Message α} {n : Server α} {cbs : List (Callback α)}
    (hnet : s.network = rest ++ [⟨p, m⟩]) (hp : p ∈ s.ids)
    (hrun : (s.nodes p).receive ndebug m = .ok (n, cbs)) :
    s.step ndebug (.deliver rest.length) = .ok
      { s with nodes := Function.update s.nodes p n, network := rest ++ sends cbs } := by
  have hlast : s.network[rest.length]? = some ⟨p, m⟩ := by rw [hnet]; simp
  have hrest : s.network.eraseIdx rest.length = rest := by
    rw [hnet, List.eraseIdx_append_of_length_le (Nat.le_refl _)]
    simp
  rw [Cluster.step_deliver ndebug (e := .deliver rest.length) hlast hp, hrun]
  simp only [Except.map, hrest]

/-- A round trip: the request is delivered, and so is its answer. -/
theorem Exchange.deliver (hx : Exchange ndebug (s.nodes ℓ) (s.nodes p) r L' F' next)
    (hid : (s.nodes ℓ).state.id = ℓ) (hℓ : ℓ ∈ s.ids) (hp : p ∈ s.ids) (hne : ℓ ≠ p)
    (hnet : s.network = rest ++ [⟨p, .appendEntriesRequest r⟩]) (es : List (Event α)) :
    (.deliver rest.length :: .deliver rest.length :: es).foldlM (Cluster.step ndebug) s =
      es.foldlM (Cluster.step ndebug)
        { s with
          nodes := Function.update (Function.update s.nodes p F') ℓ L'
          network := rest ++ next } := by
  obtain ⟨a, cbs, cbs', hreq, hsends, hresp, rfl⟩ := hx
  have hfirst : s.step ndebug (.deliver rest.length) = _ := Cluster.step_last hnet hp hreq
  rw [hsends, hid] at hfirst
  generalize hs₁ : ({ s with
    nodes := Function.update s.nodes p F'
    network := rest ++ [⟨ℓ, .appendEntriesResponse a⟩] } : Cluster α) = s₁ at hfirst
  have hnode : s₁.nodes ℓ = s.nodes ℓ := by simp [← hs₁, Function.update_of_ne hne]
  have hsecond : s₁.step ndebug (.deliver rest.length) = _ :=
    Cluster.step_last (by rw [← hs₁]) (by rwa [← hs₁])
      (by rw [hnode]; exact hresp : (s₁.nodes ℓ).receive ndebug (.appendEntriesResponse a) = _)
  rw [← hs₁] at hsecond
  rw [List.foldlM_cons, hfirst, ← hs₁]
  simp only [bind, Except.bind, List.foldlM_cons, hsecond]

/-- **Log repair**: one round trip for each entry that `previous_entry` is ahead of the follower's
log, and a last one. Nothing else is touched. -/
theorem log_repaired (h : Repairing s.ids ℓ p ndebug (s.nodes ℓ) (s.nodes p) r)
    (hp : p ∈ s.ids) (hne : ℓ ≠ p)
    (hnet : s.network = rest ++ [⟨p, .appendEntriesRequest r⟩]) :
    ∃ s', (List.replicate
        (2 * (r.previousEntry.index - (s.nodes p).storage.entries.length + 1))
        (Event.deliver rest.length)).foldlM (Cluster.step ndebug) s = .ok s' ∧
      Repaired p (s.nodes ℓ) (s.nodes p) (s'.nodes ℓ) (s'.nodes p) ∧
      s'.network = rest ∧ s'.ids = s.ids ∧
      ∀ q, q ≠ ℓ → q ≠ p → s'.nodes q = s.nodes q := by
  generalize hgap : r.previousEntry.index - (s.nodes p).storage.entries.length = gap
  induction gap generalizing s r with
  | zero =>
    have hend : (s.nodes p).storage.entries.length = r.previousEntry.index := by
      have := h.behind
      omega
    obtain ⟨L', F', hx, hrepaired⟩ := h.accepted hend
    refine ⟨_, hx.deliver h.leader.id h.member hp hne hnet [], ?_, List.append_nil _, rfl, ?_⟩
    · simpa [Function.update_of_ne hne.symm] using hrepaired
    · intro q hℓ hq
      simp [Function.update_of_ne hℓ, Function.update_of_ne hq]
  | succ gap ih =>
    obtain ⟨L', F', r', hx, hnext, hprev, hL, hentries, hcommit⟩ := h.declined (by omega)
    have hround := hx.deliver h.leader.id h.member hp hne hnet
      (List.replicate (2 * (gap + 1)) (.deliver rest.length))
    generalize hs₁ : ({ s with
      nodes := Function.update (Function.update s.nodes p F') ℓ L'
      network := rest ++ [⟨p, .appendEntriesRequest r'⟩] } : Cluster α) = s₁ at hround
    have hids : s₁.ids = s.ids := by rw [← hs₁]
    have hnℓ : s₁.nodes ℓ = L' := by simp [← hs₁]
    have hnp : s₁.nodes p = F' := by simp [← hs₁, Function.update_of_ne hne.symm]
    rw [← hids, ← hnℓ, ← hnp] at hnext
    obtain ⟨s', hrun, hrepaired, hnet', hids', hframe⟩ := ih hnext (hids ▸ hp) (by rw [← hs₁])
      (by rw [hnp, hentries]; omega)
    refine ⟨s', hround.trans hrun, ?_, hnet', hids'.trans hids, fun q hℓ hq => ?_⟩
    · rw [hnℓ, hnp] at hrepaired
      obtain ⟨h₁, h₂, h₃, h₄, h₅⟩ := hrepaired
      rw [hL, hentries] at h₁
      rw [hL, hcommit] at h₂
      rw [hL] at h₃ h₄
      rw [hL, hentries] at h₅
      exact ⟨h₁, h₂, h₃, h₄, h₅⟩
    · rw [hframe q hℓ hq, ← hs₁]
      simp [Function.update_of_ne hℓ, Function.update_of_ne hq]

end

/-- `b` leads the second term with the entry that `c` has missed in the first. -/
theorem log_repaired_one : ∃ h, ∃ s s' : Cluster String,
    Run false ["a", "b", "c"] (fun _ _ => True) h s ∧
    (List.replicate 4 (Event.deliver 1)).foldlM (Cluster.step false) s = .ok s' ∧
    (s.nodes "c").storage.entries = [] ∧
    (s'.nodes "c").storage.entries = [⟨⟨1, 1⟩, "x"⟩] ∧
    (s'.nodes "b").storage.entries = [⟨⟨1, 1⟩, "x"⟩] ∧
    s'.nodes "a" = s.nodes "a" := by
  let request (q : String) : Envelope String := ⟨q, .appendEntriesRequest
    ⟨⟨"b", q, 2, 2, ⟨⟨0, 0⟩, ⟨1, 1⟩⟩⟩, ⟨1, 1⟩, []⟩⟩
  obtain ⟨h, s, hr, hnet, hrole, hpeer, hL, hF, htL, htF, hcL, hcF, huL, hlead⟩ := exists_trace
    (Cluster.step (α := String) false) (fun _ _ => True)
    (Cluster.init ["a", "b", "c"])
    [.timeout "a", .lose 1, .deliver 0, .deliver 0, .lose 1, .deliver 0, .deliver 0,
      .clientRequest "a" ⟨"u", "1", "x"⟩, .deliver 0, .deliver 0,
      .timeout "b", .lose 0, .deliver 0, .deliver 0]
    (P := fun _ s => s.network = [request "a", request "c"] ∧ s.role "b" = .leader ∧
      (s.nodes "b").state.findPeer "c" = some ⟨"c", ⟨2, 1⟩, ⟨0, 0⟩, 2, true, true⟩ ∧
      (s.nodes "b").storage.entries = [⟨⟨1, 1⟩, "x"⟩] ∧ (s.nodes "c").storage.entries = [] ∧
      s.term "b" = 2 ∧ s.term "c" = 2 ∧
      (s.nodes "b").storage.commit = ⟨0, 0⟩ ∧ (s.nodes "c").storage.commit = ⟨0, 0⟩ ∧
      (s.nodes "b").storage.uncommit = ⟨1, 1⟩ ∧ (s.nodes "c").state.leaderId = "")
    (by decide +kernel)
  replace hnet : s.network = [request "a"] ++ [request "c"] := hnet
  replace hr : Run false ["a", "b", "c"] (fun _ _ => True) h s := hr
  have hids : s.ids = ["a", "b", "c"] := hr.ids_eq
  have hstart : Repairing s.ids "b" "c" false (s.nodes "b") (s.nodes "c")
      ⟨⟨"b", "c", 2, 2, ⟨⟨0, 0⟩, ⟨1, 1⟩⟩⟩, ⟨1, 1⟩, []⟩ :=
    { leader := hids ▸ hr.node_ok (mem_states_self _ _) (by simp)
      follower := hids ▸ hr.node_ok (mem_states_self _ _) (by simp)
      role := hrole
      awaits := ⟨_, hpeer, rfl, rfl, rfl, Nat.zero_le _⟩
      source := rfl
      destination := rfl
      member := by simp [hids]
      term := htL.symm
      logState := by rw [MemStorage.logState, hcL, huL]
      entries := by rw [hL]; rfl
      previous_le := by rw [hL]; exact Nat.le_refl 1
      behind := by rw [hF]; exact Nat.zero_le 1
      term_le := (htF.trans htL.symm).le
      follows := fun _ => .inr hlead
      asserted := fun _ hlt => by rw [hcL, hcF] at hlt; exact absurd hlt (Nat.lt_irrefl 0) }
  obtain ⟨s', hrun, hrepaired, -, -, hframe⟩ :=
    log_repaired hstart (by simp [hids]) (by decide) hnet
  rw [hF] at hrun
  refine ⟨h, s, s', hr, hrun, hF, ?_, ?_, hframe "a" (by decide) (by decide)⟩
  · rw [hrepaired.entries, hF, hL]
    rfl
  · rw [hrepaired.leader.1, hL]

end Raft
