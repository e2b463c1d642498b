import Runos.Lib.Majority
import Runos.Raft.Proof.Conditions

/-!
# Elections

In a run in which votes are counted in the term they were given in (`FreshVotes`), every vote a
candidate or leader has counted was cast for it in its current term (`Run.flags`), where a cast
vote is a step of the past (`Voted`). A node casts at most one vote in a term
(`Run.votedFor_unique`), and a leader has a majority (`Run.elected`), so a term has at most one
leader (`election_safety`).
-/

namespace Raft

open Runs Majority

variable {α : Type}

/-! ## Moves and elections -/

section
variable {st : MemStorage α} {r : AppendEntriesRequest α}

theorem accepted_currentTerm (st : MemStorage α) (r : AppendEntriesRequest α) :
    (st.accepted r).currentTerm =
      if st.currentTerm < r.header.term then r.header.term else st.currentTerm := by
  unfold MemStorage.accepted
  dsimp only
  split <;> split <;> rfl

theorem accepted_votedFor (h : ¬ st.currentTerm < r.header.term) :
    (st.accepted r).votedFor = st.votedFor := by
  unfold MemStorage.accepted
  dsimp only
  rw [if_neg h]
  split <;> rfl

theorem accepted_entries (st : MemStorage α) (r : AppendEntriesRequest α) :
    (st.accepted r).entries = splice st.entries r.previousEntry.index r.entries := by
  unfold MemStorage.accepted
  dsimp only
  split <;> split <;> rfl

/-- An accepted request commits up to the leader's commit index, or nothing. -/
theorem accepted_commit (st : MemStorage α) (r : AppendEntriesRequest α) :
    (st.accepted r).commit = st.commit ∨ st.commit.index < r.header.logState.commit.index ∧
      (st.accepted r).commit = infoAt (st.accepted r).entries
        (min (st.accepted r).entries.length r.header.logState.commit.index) := by
  rw [accepted_entries]
  unfold MemStorage.accepted
  dsimp only
  split
  · split
    · rename_i hadv; exact .inr ⟨hadv, rfl⟩
    · exact .inl rfl
  · split
    · rename_i hadv; exact .inr ⟨hadv, rfl⟩
    · exact .inl rfl

end

section
variable {id : String} {n n' : Server α} {m : Option (Message α)}

theorem Moves.term_le (h : Moves id n m n') :
    n.storage.currentTerm ≤ n'.storage.currentTerm := by
  cases h with
  | quiet hst => rw [hst]
  | stepDown ht _ hst => rw [hst]; exact ht.le
  | candidacy _ _ hst => rw [hst]; exact Nat.le_succ _
  | grant hg _ hst => rw [hst]; exact hg.term.le
  | vote _ hst => rw [hst]
  | accept ha _ hst =>
    rw [hst, accepted_currentTerm]
    split
    · exact ha.term
    · exact le_refl _
  | ack _ _ _ _ hst => rw [hst]; split <;> rfl
  | append _ _ hst => rw [hst]; rfl

/-- A vote does not change within a term. -/
theorem Moves.votedFor_eq (h : Moves id n m n')
    (ht : n'.storage.currentTerm = n.storage.currentTerm) :
    n'.storage.votedFor = n.storage.votedFor := by
  cases h with
  | quiet hst => rw [hst]
  | stepDown hlt _ hst => rw [hst] at ht; exact absurd ht.symm hlt.ne
  | candidacy _ _ hst => rw [hst] at ht; exact absurd ht (Nat.succ_ne_self _)
  | grant hg _ hst => rw [hst] at ht; exact absurd ht.symm hg.term.ne
  | vote _ hst => rw [hst]
  | accept ha _ hst =>
    rw [hst, accepted_currentTerm] at ht
    rw [hst]
    refine accepted_votedFor fun hlt => ?_
    rw [if_pos hlt] at ht
    omega
  | ack _ _ _ _ hst => rw [hst]; split <;> rfl
  | append _ _ hst => rw [hst]; rfl

/-- A leader stays one for the rest of its term. -/
theorem Moves.leader_stays (h : Moves id n m n') (hl : n.state.role = .leader)
    (ht : n'.storage.currentTerm = n.storage.currentTerm) : n'.state.role = .leader := by
  cases h with
  | quiet _ hr => rw [hr, hl]
  | stepDown hlt _ hst => rw [hst] at ht; exact absurd ht.symm hlt.ne
  | candidacy hr => exact absurd hl hr
  | grant hg _ hst => rw [hst] at ht; exact absurd ht.symm hg.term.ne
  | vote hc => rw [hc.role] at hl; cases hl
  | accept ha hr hst =>
    rw [hst, accepted_currentTerm] at ht
    have hlt : ¬ n.storage.currentTerm < _ := fun hlt => by rw [if_pos hlt] at ht; omega
    rw [hr, if_neg hlt, hl]
  | ack _ hr => rw [hr, hl]
  | append _ hr => exact hr

/-- The id of a peer and whether its vote is counted. -/
def Peer.ballot (p : Peer) : String × Bool := (p.id, p.votedForMe)

theorem map_ballot (ps : List Peer) :
    ps.map Peer.ballot = (ps.map Peer.tally).map fun t => (t.1, t.2.1) := by
  rw [List.map_map]; rfl

theorem ballots_of_tally {ps ps' : List Peer} (h : ps'.map Peer.tally = ps.map Peer.tally) :
    ps'.map Peer.ballot = ps.map Peer.ballot := by
  rw [map_ballot, h, ← map_ballot]

/-- The counted votes of a node that is no follower: unchanged, or the start of a candidacy, or
one vote more. -/
theorem Moves.ballots (h : Moves id n m n') (hr : n'.state.role ≠ .follower) :
    (n'.state.role = n.state.role ∧ n'.storage.currentTerm = n.storage.currentTerm ∧
      n'.state.knownPeers.map Peer.ballot = n.state.knownPeers.map Peer.ballot) ∨
    (m = none ∧ n'.state.role = .candidate ∧ n'.storage =
        { n.storage with currentTerm := n.storage.currentTerm + 1, votedFor := id } ∧
      ∀ p ∈ n'.state.knownPeers, p.votedForMe = true → p.id = id) ∨
    ∃ r peer, m = some (.voteResponse r) ∧ CountsVote n r peer ∧ n'.storage = n.storage ∧
      (∀ p ∈ n'.state.knownPeers, p.votedForMe = true → p.id = r.header.peerId ∨
        ∃ p₀ ∈ n.state.knownPeers, p₀.id = p.id ∧ p₀.votedForMe = true) ∧
      (n'.state.role = .leader → n'.hasMajority) := by
  cases h with
  | quiet hst hrole ht => exact .inl ⟨hrole, by rw [hst], ballots_of_tally ht⟩
  | stepDown _ hrole => exact absurd hrole hr
  | candidacy _ hrole hst hp => exact .inr (.inl ⟨rfl, hrole, hst, hp⟩)
  | grant _ hrole => exact absurd hrole hr
  | vote hc hst hv hrole =>
    refine .inr (.inr ⟨_, _, rfl, hc, hst, hv, fun hl => ?_⟩)
    rcases hrole with hcand | ⟨-, hmaj, -⟩
    · rw [hcand] at hl; cases hl
    · exact hmaj
  | accept ha hrole hst ht =>
    have hlt : ¬ n.storage.currentTerm < _ := fun hlt => hr (by rw [hrole, if_pos hlt])
    rw [if_neg hlt] at hrole
    refine .inl ⟨hrole, ?_, ballots_of_tally (ht hlt)⟩
    rw [hst, accepted_currentTerm, if_neg hlt]
  | ack _ hrole ht _ hst =>
    refine .inl ⟨hrole, by rw [hst]; split <;> rfl, (ballots_of_tally ht).trans ?_⟩
    apply map_modifyPeer
    exact fun _ => rfl
  | append hl hl' hst ht =>
    refine .inl ⟨hl'.trans hl.symm, by rw [hst]; rfl, ?_⟩
    rw [map_ballot, ht, List.map_map]
    rfl

theorem hasMajority_of_ballots
    (h : n'.state.knownPeers.map Peer.ballot = n.state.knownPeers.map Peer.ballot)
    (hm : n.hasMajority) : n'.hasMajority := by
  have hlen := congrArg List.length h
  have hcnt := congrArg (List.countP fun b : String × Bool => b.2) h
  simp only [List.length_map, List.countP_map] at hlen hcnt
  unfold Server.hasMajority at hm ⊢
  rw [hlen]
  exact hm.trans hcnt.ge

theorem mem_of_ballots
    (h : n'.state.knownPeers.map Peer.ballot = n.state.knownPeers.map Peer.ballot) {p : Peer}
    (hp : p ∈ n'.state.knownPeers) : ∃ p₀ ∈ n.state.knownPeers, p₀.ballot = p.ballot := by
  have := List.mem_map_of_mem (f := Peer.ballot) hp
  rw [h] at this
  exact List.mem_map.1 this

end

/-! ## Runs -/

section
variable {ndebug : Bool} {ids : List String} {good : Cluster α → Event α → Prop}
  {h : List (Cluster α × Event α)} {s s' : Cluster α} {e : Event α} {p : String}

/-- What a step does to node `p`. -/
theorem Run.node_cases (hr : Run ndebug ids good h s) (hs : s.step ndebug e = .ok s')
    (p : String) : s'.nodes p = s.nodes p ∨ ∃ m, NodeStep s e p m s' := by
  rcases hr.step_cases hs with hi | ⟨q, m, hn⟩
  · exact .inl (by rw [hi.nodes])
  · by_cases hpq : p = q
    · subst hpq; exact .inr ⟨m, hn⟩
    · exact .inl (hn.others p hpq)

theorem Run.term_step (hr : Run ndebug ids good h s) (hs : s.step ndebug e = .ok s')
    (p : String) :
    (s.nodes p).storage.currentTerm ≤ (s'.nodes p).storage.currentTerm := by
  rcases hr.node_cases hs p with heq | ⟨m, hn⟩
  · rw [heq]
  · exact hn.moves.term_le

/-- Terms never decrease. -/
theorem Run.term_le (hr : Run ndebug ids good h s) {x : Cluster α} (hx : x ∈ states h s)
    (p : String) :
    (x.nodes p).storage.currentTerm ≤ (s.nodes p).storage.currentTerm := by
  induction hr with
  | nil =>
    obtain rfl : x = _ := by simpa [states] using hx
    exact le_refl _
  | @snoc h s s' e hr _ hs ih =>
    rcases mem_states_cons.1 hx with rfl | hx
    · exact le_refl _
    · exact (ih hx).trans (Run.term_step hr hs p)

/-- A node votes once in a term. -/
theorem Run.votedFor_unique (hr : Run ndebug ids good h s) {x y : Cluster α}
    (hx : x ∈ states h s) (hy : y ∈ states h s) (p : String)
    (ht : (x.nodes p).storage.currentTerm = (y.nodes p).storage.currentTerm) :
    (x.nodes p).storage.votedFor = (y.nodes p).storage.votedFor := by
  induction hr generalizing x y with
  | nil =>
    obtain rfl : x = _ := by simpa [states] using hx
    obtain rfl : y = _ := by simpa [states] using hy
    rfl
  | @snoc h s s' e hr _ hs ih =>
    -- the vote of the new state against that of a past state of its term
    have now : ∀ z ∈ states h s,
        (z.nodes p).storage.currentTerm = (s'.nodes p).storage.currentTerm →
        (z.nodes p).storage.votedFor = (s'.nodes p).storage.votedFor := by
      intro z hz hzt
      have h1 := Run.term_le hr hz p
      have h2 := Run.term_step hr hs p
      refine (ih hz (mem_states_self h s) (by omega)).trans ?_
      rcases Run.node_cases hr hs p with heq | ⟨m, hn⟩
      · rw [heq]
      · exact (hn.moves.votedFor_eq (by omega)).symm
    rcases mem_states_cons.1 hx with hx | hx
    · rcases mem_states_cons.1 hy with hy | hy
      · rw [hx, hy]
      · rw [hx] at ht ⊢
        exact (now y hy ht.symm).symm
    · rcases mem_states_cons.1 hy with hy | hy
      · rw [hy] at ht ⊢
        exact now x hx ht
      · exact ih hx hy ht

/-! ## Votes -/

/-- In the step `e` from `y` to `y'` the node `v` votes for `c` in term `t`, as a candidate or at
the request of `c`. -/
structure Casts (y : Cluster α) (e : Event α) (y' : Cluster α) (v : String) (t : Nat) (c : String) :
    Prop where
  before : (y.nodes v).storage.currentTerm < t
  term : (y'.nodes v).storage.currentTerm = t
  vote : (y'.nodes v).storage.votedFor = c
  reason : (v = c ∧ (y'.nodes v).state.role = .candidate ∧
      (y'.nodes v).storage.entries = (y.nodes v).storage.entries) ∨
    ∃ r, y.delivered e = some ⟨v, .voteRequest r⟩ ∧ Grants (y.nodes v) r ∧
      r.header.term = t ∧ r.header.peerId = c

/-- A vote of the past. -/
def Voted (ndebug : Bool) (h : List (Cluster α × Event α)) (v : String) (t : Nat) (c : String) :
    Prop :=
  ∃ y e y', (y, e) ∈ h ∧ y.step ndebug e = .ok y' ∧ Casts y e y' v t c

theorem Voted.mono {h h' : List (Cluster α × Event α)} {v c : String} {t : Nat}
    (hv : Voted ndebug h v t c) (hsub : ∀ z ∈ h, z ∈ h') : Voted ndebug h' v t c := by
  obtain ⟨y, e, y', hm, hv⟩ := hv
  exact ⟨y, e, y', hsub _ hm, hv⟩

/-- A vote cast in a run is the vote of its term. -/
theorem Run.votedFor_of_voted (hr : Run ndebug ids good h s) {v c : String} {t : Nat}
    (hv : Voted ndebug h v t c) : ∃ y ∈ states h s,
      (y.nodes v).storage.currentTerm = t ∧ (y.nodes v).storage.votedFor = c := by
  obtain ⟨y, e, y', hm, hs, hc⟩ := hv
  obtain ⟨h₀, y'', -, -, hs', -, hy', -⟩ := Trace.of_mem hr hm
  rw [hs] at hs'
  cases hs'
  exact ⟨y', hy', hc.term, hc.vote⟩

/-- The votes in flight and the votes counted. -/
structure Ballots (ndebug : Bool) (ids : List String) (h : List (Cluster α × Event α))
    (s : Cluster α) : Prop where
  granted : ∀ x ∈ s.network, ∀ r, x.message = .voteResponse r → r.voteGranted = true →
    Voted ndebug h r.header.peerId r.header.term x.destination
  counted : ∀ p ∈ ids, (s.nodes p).state.role ≠ .follower →
    ∀ peer ∈ (s.nodes p).state.knownPeers, peer.votedForMe = true →
      Voted ndebug h peer.id (s.nodes p).storage.currentTerm p
  majority : ∀ p ∈ ids, (s.nodes p).state.role = .leader → (s.nodes p).hasMajority

theorem voted_snoc {v c : String} {t : Nat} (hv : Voted ndebug h v t c) :
    Voted ndebug ((s, e) :: h) v t c := hv.mono fun _ hz => List.mem_cons_of_mem _ hz

theorem Ballots.granted_step (hb : Ballots ndebug ids h s) {m : Option (Message α)}
    (hs : s.step ndebug e = .ok s') (hn : NodeStep s e p m s') :
    ∀ x ∈ s'.network, ∀ r, x.message = .voteResponse r → r.voteGranted = true →
      Voted ndebug ((s, e) :: h) r.header.peerId r.header.term x.destination := by
  rintro ⟨q, msg⟩ hx r rfl hg
  rcases hn.network _ hx with hx | ⟨⟨-, hid, -, hv⟩, ha⟩
  · exact voted_snoc (hb.granted _ hx r rfl hg)
  · -- a vote that has just been granted
    obtain ⟨req, rfl, hgr, hc, ht⟩ := ha hg
    rw [hid, hn.ok.id]
    refine ⟨s, e, s', List.mem_cons_self, hs, ?_, (hv hg).1.symm, (hv hg).2, .inr ⟨req, ?_, hgr, ht,
      hc⟩⟩
    · rw [← ht]; exact hgr.term
    · exact hn.delivered (by simp)

theorem Ballots.counted_step (hb : Ballots ndebug ids h s) {m : Option (Message α)}
    (hf : FreshVotes s e) (hs : s.step ndebug e = .ok s') (hn : NodeStep s e p m s')
    (hp : p ∈ ids) (hr : (s'.nodes p).state.role ≠ .follower) :
    (∀ peer ∈ (s'.nodes p).state.knownPeers, peer.votedForMe = true →
      Voted ndebug ((s, e) :: h) peer.id (s'.nodes p).storage.currentTerm p) ∧
    ((s'.nodes p).state.role = .leader → (s'.nodes p).hasMajority) := by
  rcases hn.moves.ballots hr with ⟨hrole, ht, hbal⟩ | ⟨rfl, hcand, hst, hself⟩ |
    ⟨r, peer, rfl, hc, hst, hv, hmaj⟩
  · rw [hrole] at hr
    refine ⟨fun peer hpeer hv => ?_, fun hl => ?_⟩
    · obtain ⟨p₀, hp₀, heq⟩ := mem_of_ballots hbal hpeer
      have hv₀ : p₀.votedForMe = true := by rw [← hv]; exact congrArg Prod.snd heq
      have hid : p₀.id = peer.id := congrArg Prod.fst heq
      rw [← hid, ht]
      exact voted_snoc (hb.counted p hp hr p₀ hp₀ hv₀)
    · exact hasMajority_of_ballots hbal (hb.majority p hp (hrole ▸ hl))
  · refine ⟨fun peer hpeer hv => ?_, fun hl => by rw [hcand] at hl; cases hl⟩
    rw [hself peer hpeer hv]
    refine ⟨s, e, s', List.mem_cons_self, hs, ?_, rfl, ?_, .inl ⟨rfl, hcand, ?_⟩⟩
    · rw [hst]; exact Nat.lt_succ_self _
    · rw [hst]
    · rw [hst]
  · refine ⟨fun peer' hpeer hv' => ?_, hmaj⟩
    rw [hst]
    rcases hv peer' hpeer hv' with hid | ⟨p₀, hp₀, hid, hv₀⟩
    · -- the vote just counted is of the current term
      have hd := hn.delivered (by simp)
      have hmem : (⟨p, .voteResponse r⟩ : Envelope α) ∈ s.network := by
        cases e <;> simp only [Cluster.delivered, reduceCtorEq] at hd
        exact List.mem_of_getElem? hd
      have ht : (s.nodes p).storage.currentTerm ≤ r.header.term :=
        hf _ hd peer hc.found hc
      rw [hid, le_antisymm ht hc.term]
      exact voted_snoc (hb.granted _ hmem r rfl hc.granted)
    · rw [← hid]
      exact voted_snoc (hb.counted p hp (by rw [hc.role]; exact Role.noConfusion) p₀ hp₀ hv₀)

theorem Run.ballots (hf : ∀ s e, good s e → FreshVotes s e) (hr : Run ndebug ids good h s) :
    Ballots ndebug ids h s := by
  induction hr with
  | nil =>
    exact ⟨fun x hx => (nomatch hx), fun p _ hrole => absurd rfl hrole, fun p _ hl => nomatch hl⟩
  | @snoc h s s' e hr hok hs ih =>
    rcases Run.step_cases hr hs with hi | ⟨q, m, hn⟩
    · refine ⟨fun x hx r hm hg => voted_snoc (ih.granted x (hi.network x hx) r hm hg), ?_, ?_⟩
      · rw [hi.nodes]
        exact fun p hp hrole peer hpeer hv => voted_snoc (ih.counted p hp hrole peer hpeer hv)
      · rw [hi.nodes]
        exact ih.majority
    · have key : ∀ p ∈ ids, (s'.nodes p).state.role ≠ .follower →
          (∀ peer ∈ (s'.nodes p).state.knownPeers, peer.votedForMe = true →
            Voted ndebug ((s, e) :: h) peer.id (s'.nodes p).storage.currentTerm p) ∧
          ((s'.nodes p).state.role = .leader → (s'.nodes p).hasMajority) := by
        intro p hp hrole
        by_cases hpq : p = q
        · subst hpq
          exact ih.counted_step (hf s e hok) hs hn hp hrole
        · rw [hn.others p hpq] at hrole ⊢
          exact ⟨fun peer hpeer hv => voted_snoc (ih.counted p hp hrole peer hpeer hv),
            ih.majority p hp⟩
      refine ⟨ih.granted_step hs hn, fun p hp hrole => (key p hp hrole).1, fun p hp hl => ?_⟩
      exact (key p hp (by rw [hl]; exact Role.noConfusion)).2 hl

/-- The peers with a property that more than half of them have are a majority of the cluster. -/
theorem Server.Ok.peers_majority {n : Server α} (hn : n.Ok ids p) (hnd : ids.Nodup)
    {f : Peer → Bool} (hf : n.state.knownPeers.length / 2 + 1 ≤ n.state.knownPeers.countP f) :
    IsMajority ids ((n.state.knownPeers.filter f).map (·.id)).toFinset := by
  have hmaj := countP_majority (hn.peers ▸ hnd) hf
  rwa [hn.peers] at hmaj

/-- A leader was elected by a majority. -/
theorem Run.elected (hnd : ids.Nodup) (hf : ∀ s e, good s e → FreshVotes s e)
    (hr : Run ndebug ids good h s) {x : Cluster α} (hx : x ∈ states h s) (hp : p ∈ ids)
    (hl : (x.nodes p).state.role = .leader) :
    ∃ Q, IsMajority ids Q ∧ ∀ v ∈ Q, Voted ndebug h v (x.nodes p).storage.currentTerm p := by
  obtain ⟨h₀, hr₀, hsub, -⟩ := Trace.of_mem_states hr hx
  have hb := Run.ballots hf hr₀
  have hok := Run.node_ok hr₀ (mem_states_self h₀ x) hp
  have hmaj := hb.majority p hp hl
  refine ⟨_, hok.peers_majority hnd (by rw [Nat.add_comm]; exact hmaj), fun v hv => ?_⟩
  obtain ⟨peer, hpeer, rfl⟩ := List.mem_map.1 (List.mem_toFinset.1 hv)
  obtain ⟨hpeer, hvote⟩ := List.mem_filter.1 hpeer
  exact (hb.counted p hp (by rw [hl]; exact Role.noConfusion) peer hpeer hvote).mono hsub

/-- A term has one leader. -/
theorem Run.leader_unique (hnd : ids.Nodup) (hf : ∀ s e, good s e → FreshVotes s e)
    (hr : Run ndebug ids good h s) {x y : Cluster α} (hx : x ∈ states h s) (hy : y ∈ states h s)
    {q : String} (hp : p ∈ ids) (hq : q ∈ ids) (hlp : (x.nodes p).state.role = .leader)
    (hlq : (y.nodes q).state.role = .leader)
    (ht : (x.nodes p).storage.currentTerm = (y.nodes q).storage.currentTerm) : p = q := by
  obtain ⟨Q, hQ, hv⟩ := hr.elected hnd hf hx hp hlp
  obtain ⟨Q', hQ', hv'⟩ := hr.elected hnd hf hy hq hlq
  obtain ⟨v, hvQ, hvQ'⟩ := hQ.inter hQ'
  obtain ⟨z, hz, hzt, hzv⟩ := hr.votedFor_of_voted (hv v hvQ)
  obtain ⟨z', hz', hzt', hzv'⟩ := hr.votedFor_of_voted (hv' v hvQ')
  rw [← hzv, ← hzv']
  exact hr.votedFor_unique hz hz' v (by rw [hzt, hzt', ht])

/-- **Election safety**, for a run whose steps satisfy `FreshVotes`: at most one node is ever
leader in a term. -/
theorem election_safety (hnd : ids.Nodup) (hr : Run ndebug ids FreshVotes h s) {x y : Cluster α}
    (hx : x ∈ states h s) (hy : y ∈ states h s) {q : String} (hp : p ∈ ids) (hq : q ∈ ids)
    (hlp : (x.nodes p).state.role = .leader) (hlq : (y.nodes q).state.role = .leader)
    (ht : (x.nodes p).storage.currentTerm = (y.nodes q).storage.currentTerm) : p = q :=
  hr.leader_unique hnd (fun _ _ hf => hf) hx hy hp hq hlp hlq ht

end

/-- `a` and then `c` are elected, in terms 1 and 2. -/
theorem election_safety_two_terms : ∃ h, ∃ s : Cluster String,
    Run false ["a", "b", "c"] FreshVotes h s ∧
    ((s.nodes "a").state.role = .leader ∧ (s.nodes "a").storage.currentTerm = 1) ∧
    ((s.nodes "c").state.role = .leader ∧ (s.nodes "c").storage.currentTerm = 2) ∧
    ∀ x ∈ states h s, ∀ q ∈ ["a", "b", "c"], (x.nodes q).state.role = .leader →
      (x.nodes q).storage.currentTerm = 1 → q = "a" := by
  obtain ⟨h, s, hr, ⟨hl, ht⟩, hc⟩ := exists_trace (Cluster.step (α := String) false)
    FreshVotes (Cluster.init ["a", "b", "c"])
    [.timeout "a", .deliver 0, .deliver 1, .timeout "c", .timeout "c", .deliver 6, .deliver 6]
    (P := fun _ s =>
      ((s.nodes "a").state.role = .leader ∧ (s.nodes "a").storage.currentTerm = 1) ∧
      ((s.nodes "c").state.role = .leader ∧ (s.nodes "c").storage.currentTerm = 2))
    (by decide +kernel)
  refine ⟨h, s, hr, ⟨hl, ht⟩, hc, fun x hx q hq hlq htq => ?_⟩
  exact election_safety (by decide) hr hx (mem_states_self h s) hq (by decide) hlq hl
    (htq.trans ht.symm)

/-- `a` counts the vote `b` gave it in term 1 as a vote of term 2, in which `c` is elected too. -/
theorem election_safety_violated : ∃ h, ∃ s : Cluster String,
    Run false ["a", "b", "c"] (fun _ e => e.isDuplicate = false) h s ∧
    (s.nodes "a").state.role = .leader ∧ (s.nodes "c").state.role = .leader ∧
    (s.nodes "a").storage.currentTerm = 2 ∧ (s.nodes "c").storage.currentTerm = 2 :=
  exists_trace (Cluster.step false) (fun _ e => e.isDuplicate = false)
    (Cluster.init ["a", "b", "c"])
    [.timeout "a", .deliver 0, .timeout "a", .deliver 1, .timeout "c", .timeout "c", .deliver 8,
      .deliver 8]
    (P := fun _ s => (s.nodes "a").state.role = .leader ∧ (s.nodes "c").state.role = .leader ∧
      (s.nodes "a").storage.currentTerm = 2 ∧ (s.nodes "c").storage.currentTerm = 2)
    (by decide +kernel)

end Raft
