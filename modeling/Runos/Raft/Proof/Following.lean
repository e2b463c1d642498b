import Runos.Raft.Proof.AppendOnly

/-!
# Following the leader that makes contact

`on(AppendEntriesRequest)` is declared to "always return a response". It drops the sender when the
receiver has another `leader_id` in the term of the request, which a candidate keeps from an
earlier term or from its constructor, and when `previous_entry` is below the commit index; and it
never changes the role within a term. `Heeds` says when none of this happens, and
`follows_sender_iff` that the receiver answers and follows the sender exactly then.
-/

namespace Raft

open Runs

variable {α : Type}

/-- The delivery `e` of `r` to `p` makes `p` answer the sender and follow it in its term. -/
def FollowsSender (ndebug : Bool) (s : Cluster α) (e : Event α) (p : String)
    (r : AppendEntriesRequest α) : Prop :=
  ∃ s' cbs, s.step ndebug e = .ok s' ∧
    (s.nodes p).handle ndebug (.message (.appendEntriesRequest r)) = .ok (s'.nodes p, cbs) ∧
    (∃ a, .send r.header.peerId (.appendEntriesResponse a) ∈ cbs) ∧
    s'.role p = .follower ∧ (s'.nodes p).state.leaderId = r.header.peerId ∧
    s'.term p = r.header.term

/-- When the handler does so, for a request whose term is not over: nothing the node has committed
is above `previous_entry`; in the term of the request the node is a follower of the sender or of
nobody; and the assertion on the commit terms does not fail. -/
structure Heeds (ndebug : Bool) (n : Server α) (r : AppendEntriesRequest α) : Prop where
  commit : n.storage.commit.index ≤ r.previousEntry.index
  leader : n.storage.currentTerm = r.header.term → n.state.role = .follower ∧
    (n.state.leaderId = r.header.peerId ∨ n.state.leaderId = "")
  asserted : ndebug = false → r.previousEntry.index ≤ n.storage.uncommit.index →
    n.storage.commit.index < r.header.logState.commit.index →
    n.storage.commit.term ≤ r.header.logState.commit.term

/-! ## The handler -/

section
variable {ids : List String} {id : String} {n : Server α} {ndebug : Bool}
  {r : AppendEntriesRequest α}

/-- **When `acceptEntries` answers.** -/
theorem acceptEntries_answers (ndebug : Bool) (response : AppendEntriesResponse) (hn : n.storage.Rep)
    (hes : Consecutive r.previousEntry.index r.entries) :
    (∃ o, n.acceptEntries ndebug r response = .ok o ∧
      ∃ a, .send r.header.peerId (.appendEntriesResponse a) ∈ o.2) ↔
    n.storage.commit.index ≤ r.previousEntry.index ∧
      (ndebug = false → r.previousEntry.index ≤ n.storage.uncommit.index →
        n.storage.commit.index < r.header.logState.commit.index →
        n.storage.commit.term ≤ r.header.logState.commit.term) := by
  unfold Server.acceptEntries
  simp only [EntryInfo.ne_eq_true, true_and]
  split
  · rename_i hlow
    have hlow : r.previousEntry.index < n.storage.commit.index := hlow
    refine ⟨?_, fun h => absurd h.1 (Nat.not_le.2 hlow)⟩
    rintro ⟨o, ⟨⟩, a, ha⟩
    simp at ha
  rename_i hlow
  have hlow : n.storage.commit.index ≤ r.previousEntry.index := Nat.le_of_not_lt hlow
  split
  · rename_i hhigh
    have hhigh : n.storage.uncommit.index < r.previousEntry.index := hhigh
    refine ⟨fun _ => ⟨hlow, fun _ h => absurd h (Nat.not_le.2 hhigh)⟩, fun _ => ?_⟩
    exact ⟨_, rfl, response, by simp⟩
  rename_i hhigh
  have hhigh : r.previousEntry.index ≤ n.storage.uncommit.index := Nat.le_of_not_lt hhigh
  have hprev : r.previousEntry.index ≤ n.storage.entries.length := by
    rwa [← hn.uncommit_index]
  have hrep := hn.spliced hprev hes hlow
  have hcommit : (n.storage.spliced r.previousEntry.index r.entries).commit = n.storage.commit :=
    rfl
  have last : ∀ (cs : List (Callback α)) (x y z : Callback α), z ∈ cs ++ [x, y, z] := by simp
  simp only [hn.append hprev hes, bind, Except.bind, hcommit]
  split
  · rename_i hadv
    split
    · rename_i hfail
      refine ⟨fun ⟨o, ho, _⟩ => (by cases ho), fun h => ?_⟩
      exact absurd (h.2 hfail.1 hhigh hadv) (Nat.not_le.2 hfail.2)
    · rename_i hpass
      refine ⟨fun _ => ⟨hlow, fun hnd _ _ => ?_⟩, fun _ => ?_⟩
      · exact Nat.le_of_not_lt fun hlt => hpass ⟨hnd, hlt⟩
      · simp only [hrep.commitUntil]
        exact ⟨_, rfl, _, last _ _ _ _⟩
  · rename_i hadv
    exact ⟨fun _ => ⟨hlow, fun _ _ h => absurd h hadv⟩, fun _ => ⟨_, rfl, _, last _ _ _ _⟩⟩

/-- The part of the state that `acceptEntries` leaves alone. -/
theorem acceptEntries_state {response : AppendEntriesResponse} {o : Outcome α}
    (hn : n.storage.Rep) (hes : Consecutive r.previousEntry.index r.entries)
    (h : n.acceptEntries ndebug r response = .ok o) : o.1.state.role = n.state.role ∧
      o.1.state.leaderId = n.state.leaderId ∧
      o.1.storage.currentTerm = n.storage.currentTerm := by
  obtain hx | hx | ⟨-, hx | ⟨cbs, hx, -⟩⟩ := acceptEntries_cases hn hes h
  · cases hx; exact ⟨rfl, rfl, rfl⟩
  · cases hx; exact ⟨rfl, rfl, rfl⟩
  · cases hx
  · cases hx; exact ⟨rfl, rfl, taken_currentTerm _ _⟩

/-- **When the handler answers and follows**, for a request to this node from a peer in a term
that is not over. -/
theorem onAppendEntriesRequest_follows (hn : n.Ok ids id)
    (hes : Consecutive r.previousEntry.index r.entries) (hd : r.header.destinationId = id)
    (hp : r.header.peerId ∈ ids) (ht : n.storage.currentTerm ≤ r.header.term) :
    (∃ o, n.onAppendEntriesRequest ndebug r = .ok o ∧
      (∃ a, .send r.header.peerId (.appendEntriesResponse a) ∈ o.2) ∧
      o.1.state.role = .follower ∧ o.1.state.leaderId = r.header.peerId ∧
      o.1.storage.currentTerm = r.header.term) ↔ Heeds ndebug n r := by
  have hknown : r.header.destinationId = n.state.id ∧
      n.state.findPeer r.header.peerId ≠ none := by
    obtain ⟨peer, hpeer⟩ := hn.findPeer_of_mem hp
    exact ⟨hd.trans hn.id.symm, by simp [hpeer]⟩
  rcases onAppendEntriesRequest_cases ndebug hn r with ⟨hx, -⟩ | ⟨-, ⟨hlt, -⟩ |
    ⟨⟨heq, hother, hsome⟩, hx⟩ | ⟨n₁, cbs, hfol, hlead, hcbs, hx⟩⟩
  · exact absurd hknown hx
  · omega
  · rw [hx]
    refine ⟨?_, fun h => ?_⟩
    · rintro ⟨o, ⟨⟩, ⟨a, ha⟩, -⟩
      simp at ha
    · exact (h.leader heq).2.elim (fun h => absurd h hother) fun h => absurd h hsome
  have hans := acceptEntries_answers ndebug
    ⟨n.header r.header.peerId r.header.messageId r.header.term, false⟩
    hfol.ok.rep hes
  rw [hfol.commit, hfol.uncommit] at hans
  have hnosend : ∀ a, .send r.header.peerId (.appendEntriesResponse a) ∉ cbs := by
    intro a ha
    have : (⟨r.header.peerId, .appendEntriesResponse a⟩ : Envelope α) ∈ sends cbs :=
      List.mem_filterMap.2 ⟨_, ha, rfl⟩
    rw [hcbs] at this
    cases this
  rw [hx]
  constructor
  · rintro ⟨o, ho, ⟨a, ha⟩, hrole, -, -⟩
    cases hacc : n₁.acceptEntries ndebug r
        ⟨n.header r.header.peerId r.header.messageId r.header.term, false⟩ with
    | error f => rw [hacc] at ho; cases ho
    | ok o₁ =>
      rw [hacc] at ho
      cases ho
      have hmem := (List.mem_append.1 ha).resolve_left (hnosend a)
      obtain ⟨hc, has⟩ := hans.1 ⟨o₁, hacc, a, hmem⟩
      refine ⟨hc, fun heq => ⟨?_, hfol.leader heq⟩, has⟩
      have hsame := hfol.role
      rw [if_neg (by omega)] at hsame
      rw [← hsame, ← (acceptEntries_state hfol.ok.rep hes hacc).1]
      exact hrole
  · intro h
    obtain ⟨o₁, hacc, a, ha⟩ := hans.2 ⟨h.commit, h.asserted⟩
    obtain ⟨hrole, hleader, hterm⟩ := acceptEntries_state hfol.ok.rep hes hacc
    refine ⟨(o₁.1, cbs ++ o₁.2), by rw [hacc]; rfl, ⟨a, List.mem_append_right _ ha⟩, ?_,
      hleader.trans hlead, hterm.trans hfol.currentTerm⟩
    rw [hrole, hfol.role]
    split
    · rfl
    · exact (h.leader (by omega)).1

end

/-! ## Runs -/

section
variable {ndebug : Bool} {ids : List String} {good : Cluster α → Event α → Prop}
  {h : List (Cluster α × Event α)} {s : Cluster α} {e : Event α} {p : String}
  {r : AppendEntriesRequest α}

/-- The step that delivers a message is the step of the receiver's handler. -/
theorem Cluster.step_deliver (ndebug : Bool) {m : Message α} (hd : s.delivered e = some ⟨p, m⟩)
    (hp : p ∈ s.ids) :
    s.step ndebug e = ((s.nodes p).receive ndebug m).map fun o =>
      { s with
        nodes := Function.update s.nodes p o.1
        network := (match e with | .deliver k => s.network.eraseIdx k | _ => s.network) ++
          sends o.2 } := by
  cases e with
  | deliver k =>
    have hk : s.network[k]? = some ⟨p, m⟩ := hd
    simp only [Cluster.step, hk, Cluster.act, hp, if_true]
    cases (s.nodes p).receive ndebug m <;> rfl
  | _ => cases hd

/-- **A node follows the leader that contacts it exactly when it `Heeds` the request**: over every
run, for the delivery of an append request to a node whose term is not above that of the request.
Every such request is from a node that was leader in the term it names. -/
theorem follows_sender_iff (hr : Run ndebug ids good h s)
    (hd : s.delivered e = some ⟨p, .appendEntriesRequest r⟩)
    (ht : s.term p ≤ r.header.term) :
    (∃ y ∈ states h s, y.role r.header.peerId = .leader ∧
      y.term r.header.peerId = r.header.term) ∧
    (FollowsSender ndebug s e p r ↔ Heeds ndebug (s.nodes p) r) := by
  have hx := delivered_mem hd
  obtain ⟨y, hy, hfl⟩ := hr.fromLeader hx
  refine ⟨⟨y, hy, hfl.role, hfl.term.symm⟩, ?_⟩
  obtain ⟨_, _, q, hq, hp, -, hdest, -⟩ := hr.sent hx
  have hok := hr.node_ok (mem_states_self h s) hp
  have hes := (hr.recorded.ok.messages _ hx).2
  have hstep := Cluster.step_deliver ndebug hd (by rw [hr.ids_eq]; exact hp)
  rw [← onAppendEntriesRequest_follows hok hes hdest hfl.mem ht]
  constructor
  · rintro ⟨s', cbs, -, ho, ha, hrole, hlead, hterm⟩
    exact ⟨_, ho, ha, hrole, hlead, hterm⟩
  · rintro ⟨⟨n', cbs⟩, ho, ha, hrole, hlead, hterm⟩
    rw [show (s.nodes p).receive ndebug (.appendEntriesRequest r) = .ok (n', cbs) from ho] at hstep
    refine ⟨_, cbs, hstep, ?_⟩
    simp only [Cluster.role, Cluster.term, Function.update_self]
    exact ⟨ho, ha, hrole, hlead, hterm⟩

end

/-- `a` makes contact as the leader of term 1 with `b`, whose `leader_id` is empty after its
vote. -/
theorem follows_sender_iff_voter : ∃ h, ∃ s : Cluster String, ∃ e r,
    Run false ["a", "b", "c"] (fun _ e => e.isDuplicate = false) h s ∧
    s.delivered e = some ⟨"b", .appendEntriesRequest r⟩ ∧ s.term "b" ≤ r.header.term ∧
    s.role "a" = .leader ∧ Heeds false (s.nodes "b") r ∧ FollowsSender false s e "b" r := by
  let r : AppendEntriesRequest String := ⟨⟨"a", "b", 2, 1, ⟨⟨0, 0⟩, ⟨0, 0⟩⟩⟩, ⟨0, 0⟩, []⟩
  obtain ⟨h, s, hr, hd, ht, hl, hrole, hlead, hc⟩ := exists_trace
    (Cluster.step (α := String) false) (fun _ e => e.isDuplicate = false)
    (Cluster.init ["a", "b", "c"]) [.timeout "a", .deliver 0, .deliver 1]
    (P := fun _ s => s.delivered (.deliver 1) = some ⟨"b", .appendEntriesRequest r⟩ ∧
      s.term "b" ≤ r.header.term ∧ s.role "a" = .leader ∧ s.role "b" = .follower ∧
      (s.nodes "b").state.leaderId = "" ∧ (s.nodes "b").storage.commit = ⟨0, 0⟩)
    (by decide +kernel)
  have hh : Heeds false (s.nodes "b") r :=
    ⟨by simp [hc], fun _ => ⟨hrole, .inr hlead⟩, fun _ _ _ => by simp [hc]⟩
  exact ⟨h, s, .deliver 1, r, hr, hd, ht, hl, hh, (follows_sender_iff hr hd ht).2.2 hh⟩

/-- `b` is a candidate of term 1, with the `leader_id` of its constructor, when the leader of that
term makes contact: it drops the sender. -/
theorem follows_sender_violated : ∃ h, ∃ s : Cluster String, ∃ e r,
    Run false ["a", "b", "c"] (fun _ e => e.isDuplicate = false) h s ∧
    s.delivered e = some ⟨"b", .appendEntriesRequest r⟩ ∧ s.term "b" ≤ r.header.term ∧
    r.header.peerId = "a" ∧ s.role "a" = .leader ∧ s.term "a" = r.header.term ∧
    (s.nodes "b").onAppendEntriesRequest false r = .ok (s.nodes "b", [.drop "a"]) ∧
    s.role "b" = .candidate ∧ ¬ FollowsSender false s e "b" r := by
  let r : AppendEntriesRequest String := ⟨⟨"a", "b", 2, 1, ⟨⟨0, 0⟩, ⟨0, 0⟩⟩⟩, ⟨0, 0⟩, []⟩
  obtain ⟨h, s, hr, hd, ht, hl, hta, ho, hrole⟩ := exists_trace
    (Cluster.step (α := String) false) (fun _ e => e.isDuplicate = false)
    (Cluster.init ["a", "b", "c"]) [.timeout "b", .timeout "a", .deliver 3, .deliver 3]
    (P := fun _ s => s.delivered (.deliver 3) = some ⟨"b", .appendEntriesRequest r⟩ ∧
      s.term "b" ≤ r.header.term ∧ s.role "a" = .leader ∧ s.term "a" = r.header.term ∧
      (s.nodes "b").onAppendEntriesRequest false r = .ok (s.nodes "b", [.drop "a"]) ∧
      s.role "b" = .candidate)
    (by decide +kernel)
  refine ⟨h, s, .deliver 3, r, hr, hd, ht, rfl, hl, hta, ho, hrole, ?_⟩
  rintro ⟨s', cbs, -, ho', ⟨a, ha⟩, -⟩
  change (s.nodes "b").onAppendEntriesRequest false r = _ at ho'
  rw [ho] at ho'
  obtain ⟨-, rfl⟩ := Prod.mk.inj (Except.ok.inj ho')
  simp at ha

end Raft
