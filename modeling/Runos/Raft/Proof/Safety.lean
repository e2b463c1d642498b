import Runos.Raft.Proof.Retained

/-!
# Safety of the committed log

The results of a run all of whose steps are `Careful`. A node that once held entries of its
current term keeps them unless a later leader has not got them (`Run.kept`); with the votes this
gives the hypotheses of `LeaderLogs.complete`, so what a majority held in a term is in the log of
every later leader (`Run.complete`). The entries a node has committed are such entries
(`Run.committed`).

* `leader_completeness`: what a leader has committed is in the log of every later leader.
* `state_machine_safety`: two nodes agree on every index both have committed.
-/

namespace Raft

open Runs LeaderLogs Majority

variable {α : Type}

/-- In some state of `H` node `p` held `P`, which ends in an entry of its term `t` then. -/
structure Holds (ids : List String) (H : List (Cluster α)) (p : String) (t : Nat)
    (P : List (Entry α)) : Prop where
  mem : p ∈ ids
  ne : P ≠ []
  last : lastTerm Entry.term P = t
  held : ∃ x ∈ H, x.term p = t ∧ P <+: x.log p

theorem Holds.mono {ids : List String} {H H' : List (Cluster α)} {p : String} {t : Nat}
    {P : List (Entry α)} (hh : Holds ids H p t P) (hsub : ∀ x ∈ H, x ∈ H') :
    Holds ids H' p t P := by
  obtain ⟨x, hx, hrest⟩ := hh.held
  exact ⟨hh.mem, hh.ne, hh.last, x, hsub x hx, hrest⟩

theorem committed_mono {ids : List String} {H H' : List (Cluster α)} {t : Nat}
    {P : List (Entry α)} (hc : Committed ids (Holds ids H) t P) (hsub : ∀ x ∈ H, x ∈ H') :
    Committed ids (Holds ids H') t P := by
  obtain ⟨Q, hQ, hh⟩ := hc
  exact ⟨Q, hQ, fun q hq => (hh q hq).mono hsub⟩

section
variable {ndebug : Bool} {ids : List String} {h : List (Cluster α × Event α)} {s s' : Cluster α}
  {e : Event α} {p : String}

section
variable (hnd : ids.Nodup) (hr : Run ndebug ids Careful h s)
include hnd hr

/-! ## What is held is kept -/

/-- What a node held comes from the leader of the term. -/
theorem Run.holds_led {t : Nat} {P : List (Entry α)} (hh : Holds ids (states h s) p t P) :
    ∃ l, Led ids (states h s) t l ∧ P <+: l := by
  obtain ⟨x, hx, -, hpre⟩ := hh.held
  obtain ⟨e, he, ht⟩ := getElem?_of_prefix Entry.term hh.ne hpre
  obtain ⟨l, hl, hsub⟩ := (hr.sourced hnd (fun _ _ h => h.votes) (fun _ _ h => h.previous) x hx p
    hh.mem).1 _ e he
  rw [ht, hh.last] at hl
  have hpos := List.length_pos_iff.2 hh.ne
  rw [show P.length - 1 + 1 = P.length by omega, ← List.prefix_iff_eq_take.1 hpre] at hsub
  exact ⟨l, hl, hsub⟩

end

/-- A node keeps what it held, or a later leader has not got it. -/
theorem Run.kept (hnd : ids.Nodup) (hr : Run ndebug ids Careful h s) :
    ∀ t P, Holds ids (states h s) p t P → P <+: s.log p ∨
      ∃ V L, t < V ∧ V ≤ s.term p ∧ Led ids (states h s) V L ∧ ¬ P <+: L := by
  induction hr with
  | nil =>
    rintro t P ⟨-, hne, -, x, hx, -, hpre⟩
    obtain rfl : x = _ := by simpa [states] using hx
    exact absurd (List.prefix_nil.1 hpre) hne
  | @snoc h s s' e hr hok hs ih =>
    intro t P hh
    have now := Trace.snoc hr hok hs
    obtain ⟨x, hx, hxt, hpre⟩ := hh.held
    rcases mem_states_cons.1 hx with rfl | hx₀
    · exact .inl hpre
    have hle := Run.term_le now hx p
    by_cases hterm : s'.term p = t
    · -- the same term
      obtain ⟨l, hl, hPl⟩ := Run.holds_led hnd now hh
      have hfits := Run.fits hnd (fun _ _ h => h.votes) now hl hPl
      rw [← hterm] at hfits
      exact .inl (Run.retained hnd (fun _ _ h => h.votes) (fun _ _ h => h.previous)
        (fun _ _ h => h.tails) now p hh.mem x hx (hxt.trans hterm.symm) P hfits hpre)
    have hlt : t < s'.term p := by
      simp only [Cluster.term] at hxt hterm ⊢
      omega
    rcases ih t P ⟨hh.mem, hh.ne, hh.last, x, hx₀, hxt, hpre⟩ with hkeep | ⟨V, L, h1, h2, h3, h4⟩
    · rcases Run.node_cases hr hs p with heq | ⟨m, hn⟩
      · exact .inl (by rw [Cluster.log, heq]; exact hkeep)
      rcases Run.log_cases hnd (fun _ _ h => h.votes) (fun _ _ h => h.previous) hr hok hn with
        hlog | ⟨r, z, hz, -, -, hfl, -, hrt, hlog, -⟩ | ⟨-, -, x, -, hlog⟩
      · exact .inl (by rw [hlog]; exact hkeep)
      · by_cases hP : P <+: s'.log p
        · exact .inl hP
        · refine .inr ⟨s'.term p, s'.log p, hlt, le_refl _, ?_, hP⟩
          exact ⟨z, mem_states_of_mem hz, _, hfl.mem, hfl.role, hfl.term.symm.trans hrt.symm,
            hlog.symm⟩
      · exact .inl (by rw [hlog]; exact hkeep.trans (List.prefix_append _ _))
    · exact .inr ⟨V, L, h1, h2.trans (Run.term_step hr hs p), h3.mono fun _ => mem_states_of_mem, h4⟩

/-! ## Votes and later leaders -/

/-- `v` voted in term `t` for a candidate with the log `L`: `y` is the state before the vote. -/
structure Backs (ndebug : Bool) (ids : List String) (H : List (Cluster α)) (v : String) (t : Nat)
    (L : List (Entry α)) : Prop where
  earlier : ∀ e ∈ L, e.term < t
  sourced : Sourced Entry.term (Led ids H) L
  vote : ∃ h₀ y, Run ndebug ids Careful h₀ y ∧ (∀ x ∈ states h₀ y, x ∈ H) ∧
    (∀ x ∈ H, x ∈ states h₀ y ∨ t ≤ x.term v) ∧ y.term v < t ∧ v ∈ ids ∧
    (y.log v).length ≤ L.length ∧ lastTerm Entry.term (y.log v) ≤ lastTerm Entry.term L

section
variable (hnd : ids.Nodup) (hr : Run ndebug ids Careful h s)
include hnd hr

/-- What the voter held is in the candidate's log, or a leader in between has not got it. -/
theorem Run.vote_carries {v : String} {t U : Nat} {P L : List (Entry α)}
    (hh : Holds ids (states h s) v t P) (hv : Backs ndebug ids (states h s) v U L) (hlt : t < U) :
    P <+: L ∨ ∃ V L', t < V ∧ V < U ∧ Led ids (states h s) V L' ∧ ¬ P <+: L' := by
  have hf : ∀ (s : Cluster α) e, Careful s e → FreshVotes s e := fun _ _ h => h.votes
  have hm : ∀ (s : Cluster α) e, Careful s e → MatchingPrevious s e := fun _ _ h => h.previous
  obtain ⟨h₀, y, hr₀, hsub, hpos, hyt, hmem, hlen, hlast⟩ := hv.vote
  obtain ⟨x, hx, hxt, hpre⟩ := hh.held
  -- the voter held it before it voted
  have hx₀ : x ∈ states h₀ y := (hpos x hx).resolve_right fun hle => by
    simp only [Cluster.term] at hxt hle
    omega
  rcases Run.kept hnd hr₀ t P ⟨hmem, hh.ne, hh.last, x, hx₀, hxt, hpre⟩ with hkeep |
    ⟨V, L', h1, h2, h3, h4⟩
  · obtain ⟨hsrc, hord⟩ := Run.sourced hnd hf hm hr₀ y (mem_states_self h₀ y) v hmem
    rcases upToDate_carries (hr.led_chain hnd hf) (hsrc.mono fun _ _ hl => hl.mono hsub)
      hv.sourced hord hh.ne hkeep hlen hlast with hP | ⟨h1, L', h3, h4⟩
    · exact .inl hP
    · rw [hh.last] at h1
      refine .inr ⟨_, L', h1, ?_, h3, h4⟩
      have hne : L ≠ [] := by
        rintro rfl
        exact absurd h1 (Nat.not_lt_zero t)
      obtain ⟨x', hx', ht'⟩ := getElem?_of_prefix Entry.term hne (List.prefix_refl L)
      rw [← ht']
      exact hv.earlier x' (List.mem_of_getElem? hx')
  · exact .inr ⟨V, L', h1, h2.trans_lt hyt, h3.mono hsub, h4⟩

end

/-- The log a leader had as a candidate of its term. -/
theorem Run.candidate_log {good : Cluster α → Event α → Prop} (hnd : ids.Nodup)
    (hf : ∀ s e, good s e → FreshVotes s e) (hr : Run ndebug ids good h s) (hp : p ∈ ids)
    {x z : Cluster α} (hx : x ∈ states h s) (hz : z ∈ states h s) (hl : x.role p = .leader)
    (hc : z.role p = .candidate) (ht : z.term p = x.term p) :
    z.log p <+: x.log p ∧ ∀ e ∈ z.log p, e.term < x.term p := by
  induction hr with
  | nil =>
    obtain rfl : x = _ := by simpa [states] using hx
    cases hl
  | @snoc h s s' e hr hok hs ih =>
    have now := Trace.snoc hr hok hs
    rcases mem_states_cons.1 hz with hzs | hz₀
    · -- a leader does not become a candidate of its term
      subst hzs
      cases (Run.leader_stays now x hx p hl ht.symm).symm.trans hc
    rcases mem_states_cons.1 hx with hxs | hx₀
    · subst hxs
      obtain ⟨hext, hlt⟩ := Run.leader_log hnd hf now p hp hl z hz ht
      exact ⟨hext.isInitial, hlt hc⟩
    · exact ih hx₀ hz₀

section
variable (hnd : ids.Nodup) (hr : Run ndebug ids Careful h s)
include hnd hr

/-- A counted vote, for the leader it elected. -/
theorem Run.backs {x : Cluster α} (hx : x ∈ states h s) (hp : p ∈ ids) (hl : x.role p = .leader)
    {v : String} (hv : v ∈ ids) (hvote : Voted ndebug h v (x.term p) p) :
    ∃ L, L <+: x.log p ∧ Backs ndebug ids (states h s) v (x.term p) L := by
  have hf : ∀ (s : Cluster α) e, Careful s e → FreshVotes s e := fun _ _ h => h.votes
  have hm : ∀ (s : Cluster α) e, Careful s e → MatchingPrevious s e := fun _ _ h => h.previous
  obtain ⟨y, e, y', hmem, hs, hc⟩ := hvote
  obtain ⟨h₀, y'', hr₀, hok, hs', hsub, hy', hafter⟩ := Trace.of_mem hr hmem
  cases hs.symm.trans hs'
  have hpos : ∀ z ∈ states h s, z ∈ states h₀ y ∨ x.term p ≤ z.term v := by
    intro z hz
    refine (hafter z hz).imp_right fun ⟨h', hr', hyz⟩ => ?_
    rw [← hc.term]
    exact Run.term_le hr' hyz v
  -- the log of the candidate, at the request or at its candidacy
  have done : ∀ z ∈ states h s, z.role p = .candidate → z.term p = x.term p →
      (y.log v).length ≤ (z.log p).length →
      lastTerm Entry.term (y.log v) ≤ lastTerm Entry.term (z.log p) →
      ∃ L, L <+: x.log p ∧ Backs ndebug ids (states h s) v (x.term p) L := by
    intro z hz hcand hzt hlen hlast
    obtain ⟨hpre, hlt⟩ := hr.candidate_log hnd hf hp hx hz hl hcand hzt
    exact ⟨z.log p, hpre, hlt, (hr.sourced hnd hf hm z hz p hp).1, h₀, y, hr₀, hsub, hpos,
      hc.before, hv, hlen, hlast⟩
  rcases hc.reason with ⟨rfl, hcand, hlog⟩ | ⟨r, hd, hg, ht, hid⟩
  · refine done y' hy' hcand hc.term ?_ ?_
    · rw [Cluster.log, Cluster.log, hlog]
    · rw [Cluster.log, Cluster.log, hlog]
  · obtain ⟨z, hz, q, hq, -, hidq, -, hrole, htq, hls⟩ := Run.sent hr₀ (delivered_mem hd)
    rw [(Run.node_ok hr₀ hz hq).id, hid] at hidq
    subst hidq
    have hrep := (Run.node_ok hr₀ (mem_states_self h₀ y) hv).rep
    have hrep' := (Run.node_ok hr₀ hz hp).rep
    refine done z (hsub z hz) hrole (htq.symm.trans ht) ?_ ?_
    · have := hg.uncommit
      rw [hls] at this
      rw [Cluster.log, Cluster.log, ← hrep.uncommit_index, ← hrep'.uncommit_index]
      exact this
    · have := hok.upToDate _ hd hg
      rw [hls] at this
      rw [← infoAt_length_term, ← infoAt_length_term, ← hrep.uncommit, ← hrep'.uncommit]
      exact this

/-- What a majority held in a term is in the log of every later leader. -/
theorem Run.complete {t : Nat} {P : List (Entry α)}
    (hc : Committed ids (Holds ids (states h s)) t P) {U : Nat} {L : List (Entry α)} (hlt : t < U)
    (hL : Led ids (states h s) U L) : P <+: L := by
  refine LeaderLogs.complete (Led ids (states h s)) (Backs ndebug ids (states h s))
    (fun _ _ _ _ _ => hr.vote_carries hnd) ?_ hc U L hlt hL
  rintro U L ⟨x, hx, p, hp, hl, rfl, rfl⟩
  obtain ⟨Q, hQ, hv⟩ := hr.elected hnd (fun _ _ h => h.votes) hx hp hl
  exact ⟨Q, hQ, fun q hq => hr.backs hnd hx hp hl (hQ.subset q hq) (hv q hq)⟩

end

/-! ## Committed entries -/

/-- The commit index never decreases, and nothing at or below it changes. -/
theorem Moves.commit_stable {id : String} {n n' : Server α} {m : Option (Message α)}
    (hn : n.storage.Rep) (hn' : n'.storage.Rep) (h : Moves id n m n') :
    n.storage.commit.index ≤ n'.storage.commit.index ∧
      n'.storage.entries.take n.storage.commit.index =
        n.storage.entries.take n.storage.commit.index := by
  have hle := hn.commit_le
  cases h with
  | quiet hst => rw [hst]; exact ⟨le_refl _, rfl⟩
  | stepDown _ _ hst => rw [hst]; exact ⟨le_refl _, rfl⟩
  | candidacy _ _ hst => rw [hst]; exact ⟨le_refl _, rfl⟩
  | grant _ _ hst => rw [hst]; exact ⟨le_refl _, rfl⟩
  | vote _ hst => rw [hst]; exact ⟨le_refl _, rfl⟩
  | @accept _ r ha _ hst =>
    have hprev : r.previousEntry.index ≤ n.storage.entries.length := by
      rw [← hn.uncommit_index]; exact ha.uncommit
    have hes := accepted_entries n.storage r
    refine ⟨?_, by rw [hst, hes]; exact take_splice _ hprev ha.commit⟩
    rcases accepted_commit n.storage r with hc | ⟨hlt, hc⟩
    · rw [hst, hc]
    · rw [← hst] at hc
      rw [hc, infoAt_index hn'.index (Nat.min_le_left _ _)]
      have := ha.commit.trans (le_length_splice r.entries hprev)
      rw [hst, hes]
      omega
  | @ack _ r peer index _ _ _ _ hst =>
    refine ⟨?_, by rw [hst]; split <;> rfl⟩
    rw [hst]
    split
    · rename_i hlt
      show _ ≤ (infoAt _ _).index
      rw [infoAt_index hn.index (Nat.min_le_left _ _)]
      omega
    · exact le_refl _
  | append _ _ hst =>
    rw [hst]
    refine ⟨le_refl _, ?_⟩
    simp only [MemStorage.appended, MemStorage.spliced]
    exact take_splice _ (le_refl _) hle

theorem Run.commit_stable {good : Cluster α → Event α → Prop} (hr : Run ndebug ids good h s) :
    ∀ p ∈ ids, ∀ z ∈ states h s,
      (z.nodes p).storage.commit.index ≤ (s.nodes p).storage.commit.index ∧
      (s.log p).take (z.nodes p).storage.commit.index =
        (z.log p).take (z.nodes p).storage.commit.index := by
  induction hr with
  | nil =>
    intro p _ z hz
    obtain rfl : z = _ := by simpa [states] using hz
    exact ⟨le_refl _, rfl⟩
  | @snoc h s s' e hr hok hs ih =>
    intro p hp z hz
    have now := Trace.snoc hr hok hs
    rcases mem_states_cons.1 hz with rfl | hz
    · exact ⟨le_refl _, rfl⟩
    obtain ⟨hle, htake⟩ := ih p hp z hz
    rcases Run.node_cases hr hs p with heq | ⟨m, hn⟩
    · rw [Cluster.log, heq]
      exact ⟨hle, htake⟩
    · obtain ⟨hle', htake'⟩ := hn.moves.commit_stable
        (Run.node_ok hr (mem_states_self h s) hp).rep (Run.node_ok now (mem_states_self _ s') hp).rep
      refine ⟨hle.trans hle', ?_⟩
      have := congrArg (List.take (z.nodes p).storage.commit.index) htake'
      rw [List.take_take, List.take_take, min_eq_left hle] at this
      exact this.trans htake

/-- **Committed entries are immutable**, over every run: no step moves the commit index of a node
back or changes an entry at or below it. -/
theorem committed_immutable {good : Cluster α → Event α → Prop} (hr : Run ndebug ids good h s)
    (hs : s.step ndebug e = .ok s') (hp : p ∈ ids) :
    (s.nodes p).storage.commit.index ≤ (s'.nodes p).storage.commit.index ∧
    ∀ k < (s.nodes p).storage.commit.index, ∃ x, (s.log p)[k]? = some x ∧
      x.info.index = k + 1 ∧ (s'.log p)[k]? = some x := by
  have hr' : Run ndebug ids (fun _ _ => True) h s := hr.weaken fun _ _ _ => trivial
  have hrep := (hr.node_ok (mem_states_self h s) hp).rep
  obtain ⟨hle, htake⟩ := Run.commit_stable (hr'.snoc trivial hs) p hp s
    (mem_states_of_mem (mem_states_self h s))
  refine ⟨hle, fun k hk => ?_⟩
  have hlen : k < (s.log p).length := by
    have := hrep.commit_le
    simp only [Cluster.log]
    omega
  have hx : (s.log p)[k]? = some (s.log p)[k] := List.getElem?_eq_getElem hlen
  refine ⟨_, hx, ?_, ?_⟩
  · have := hrep.index k _ hx
    omega
  · rw [← List.getElem?_take_of_lt hk, htake, List.getElem?_take_of_lt hk]
    exact hx

/-- The request that brought `b` its committed entry is delivered to it again. -/
theorem committed_immutable_duplicate : ∃ s s' : Cluster String, ∃ h e,
    Run false ["a", "b", "c"] (fun _ _ => True) h s ∧ s.step false e = .ok s' ∧
    (∃ x ∈ s.delivered e, x.destination = "b") ∧ (s.nodes "b").storage.commit.index = 1 ∧
    (s.nodes "b").storage.commit.index ≤ (s'.nodes "b").storage.commit.index ∧
    ∀ k < (s.nodes "b").storage.commit.index, ∃ x, (s.log "b")[k]? = some x ∧
      x.info.index = k + 1 ∧ (s'.log "b")[k]? = some x := by
  obtain ⟨h, s', hr, hh⟩ := exists_trace (Cluster.step (α := String) false) (fun _ _ => True)
    (Cluster.init ["a", "b", "c"])
    [.timeout "a", .deliver 0, .deliver 1, .deliver 1, .deliver 2,
      .clientRequest "a" ⟨"client", "1", "x"⟩, .duplicate 2, .deliver 3, .deliver 3, .timeout "a",
      .deliver 3, .deliver 0]
    (P := fun h _ => ∃ y ∈ h.head?, (∃ x ∈ y.1.delivered y.2, x.destination = "b") ∧
      (y.1.nodes "b").storage.commit.index = 1)
    (by decide +kernel)
  cases hr with
  | nil => simp at hh
  | @snoc h s _ e hr hok hs =>
    obtain ⟨_, ⟨⟩, hd, hc⟩ := hh
    exact ⟨s, s', h, e, hr, hs, hd, hc, committed_immutable hr hs (by decide)⟩

/-- The committed entries of `p` in `x` are entries a majority held in a term up to the node's. -/
def CommittedAt (ids : List String) (H : List (Cluster α)) (x : Cluster α) (p : String) : Prop :=
  (x.nodes p).storage.commit.index ≠ 0 → ∃ t P, t ≤ x.term p ∧
    Committed ids (Holds ids H) t P ∧ (x.log p).take (x.nodes p).storage.commit.index <+: P

theorem CommittedAt.mono {H H' : List (Cluster α)} {x : Cluster α}
    (hc : CommittedAt ids H x p) (hsub : ∀ y ∈ H, y ∈ H') : CommittedAt ids H' x p := by
  intro hne
  obtain ⟨t, P, ht, hP, hpre⟩ := hc hne
  exact ⟨t, P, ht, committed_mono hP hsub, hpre⟩

/-- An index the leader commits: a majority has acknowledged it, and it is an entry of the
leader's term. -/
theorem Run.committed_leader (hnd : ids.Nodup) (hr : Run ndebug ids Careful h s)
    (hok : Careful s e) (hs : s.step ndebug e = .ok s') (hp : p ∈ ids) {r : AppendEntriesResponse}
    (hd : s.delivered e = some ⟨p, .appendEntriesResponse r⟩)
    (hne : (s'.nodes p).storage.commit.index ≠ (s.nodes p).storage.commit.index) :
    CommittedAt ids (states ((s, e) :: h) s') s' p := by
  have hf : ∀ (s : Cluster α) e, Careful s e → FreshVotes s e := fun _ _ h => h.votes
  have hm : ∀ (s : Cluster α) e, Careful s e → MatchingPrevious s e := fun _ _ h => h.previous
  have hack : ∀ (s : Cluster α) e, Careful s e → MatchingAcks s e := fun _ _ h => h.acks
  have now := hr.snoc hok hs
  have hself := mem_states_self ((s, e) :: h) s'
  intro hk0
  have hc := hr.leaderCommit hnd hf hm hack hok hs hp hd hne
  generalize (s'.nodes p).storage.commit.index = k at hc hk0 ⊢
  have hle : k ≤ (s'.log p).length := by rw [hc.log]; exact hc.le
  have hPne : (s'.log p).take k ≠ [] := by
    rw [← List.length_pos_iff, List.length_take]
    omega
  obtain ⟨x, hx, hxt⟩ := getElem?_of_prefix Entry.term hPne (List.take_prefix k (s'.log p))
  rw [List.length_take, min_eq_left hle] at hx
  have hxle := Run.log_terms now s' hself p hp x (List.mem_of_getElem? hx)
  have hlast : lastTerm Entry.term ((s'.log p).take k) = s'.term p := by
    obtain ⟨peer, hcounts⟩ := hc.counts
    obtain ⟨j, hj, hreach, hjt⟩ := hok.own _ hd peer hcounts.found hcounts
      ((hc.reaches _).2 hc.lt)
    have hjk := (hc.reaches j).1 hreach
    rw [← hxt]
    refine le_antisymm hxle ?_
    rw [hc.term, Cluster.term, ← hjt]
    cases j with
    | zero => exact Nat.zero_le _
    | succ j =>
      -- terms do not decrease from the entry of the leader's term on
      obtain ⟨y, hy⟩ : ∃ y, (s'.log p)[j]? = some y :=
        ⟨_, List.getElem?_eq_getElem (show j < (s'.log p).length by omega)⟩
      have hord := (Run.sourced hnd hf hm now s' hself p hp).2
      have hyx := hord.le hy hx (by omega)
      rw [hc.log] at hy
      rw [infoAt_succ_of_some hy]
      exact hyx
  obtain ⟨Q, hQ, -, hacked⟩ := Run.commit_majority hnd hf hm hack now hp hc.role hk0 hle hc.majority
  refine ⟨s'.term p, (s'.log p).take k, le_refl _, ⟨Q, hQ, fun q hq => ?_⟩, List.prefix_refl _⟩
  by_cases hqp : q = p
  · subst hqp
    exact ⟨hp, hPne, hlast, s', hself, rfl, List.take_prefix _ _⟩
  · obtain ⟨y, hy, -, hyt, hpre⟩ := hacked q hq hqp
    exact ⟨hQ.subset q hq, hPne, hlast, y, hy, hyt, hpre⟩

/-- An index a follower commits: the leader has committed it. -/
theorem Run.committed_follower (hnd : ids.Nodup) (hr : Run ndebug ids Careful h s)
    (hok : Careful s e) (hp : p ∈ ids) {r : AppendEntriesRequest α}
    (hn : NodeStep s e p (some (.appendEntriesRequest r)) s')
    (hall : ∀ x ∈ states h s, ∀ q ∈ ids, CommittedAt ids (states h s) x q)
    (ha : Accepts (s.nodes p) r) (hst : (s'.nodes p).storage = (s.nodes p).storage.accepted r)
    (hlt : (s.nodes p).storage.commit.index < r.header.logState.commit.index) :
    ∃ t P, t ≤ s'.term p ∧ Committed ids (Holds ids (states h s)) t P ∧
      (s'.log p).take (min (s'.log p).length r.header.logState.commit.index) <+: P := by
  have hf : ∀ (s : Cluster α) e, Careful s e → FreshVotes s e := fun _ _ h => h.votes
  have hm : ∀ (s : Cluster α) e, Careful s e → MatchingPrevious s e := fun _ _ h => h.previous
  have hself := mem_states_self h s
  obtain ⟨z, hz, hfl⟩ := hr.request_fromLeader hn
  have hd := hn.delivered (by simp)
  have hcz : r.header.logState.commit = (z.nodes r.header.peerId).storage.commit := by
    rw [hfl.logState]; rfl
  obtain ⟨t, P, ht, hP, hpre⟩ := hall z hz _ hfl.mem (by rw [← hcz]; omega)
  have hterm : z.term r.header.peerId = s'.term p := by
    rw [← hfl.term, Cluster.term, hst, ha.term_accepted]
  refine ⟨t, P, hterm ▸ ht, hP, List.IsPrefix.trans ?_ hpre⟩
  rw [← hcz]
  have hrep := (hr.node_ok hself hp).rep
  have hsrc := (hr.sourced hnd hf hm s hself p hp).1
  have hlog := accepted_entries (s.nodes p).storage r
  rw [← hst] at hlog
  by_cases hnil : r.entries = []
  · -- a heartbeat: the follower has the leader's entries up to the index
    rw [splice, if_pos hnil] at hlog
    have hshare := hok.commits _ hd ha hnil hlt
    rw [hrep.uncommit_index] at hshare
    obtain ⟨hle, htake⟩ := hr.commit_stable _ hfl.mem z hz
    rw [← hcz] at hle htake
    have hlen : min (s.log p).length r.header.logState.commit.index ≤
        (s.log r.header.peerId).length := by
      exact (Nat.min_le_right _ _).trans (hle.trans (hr.node_ok hself hfl.mem).rep.commit_le)
    have hsame := matching_infoAt (hr.led_chain hnd hf) hsrc
      (hr.sourced hnd hf hm s hself _ hfl.mem).1 (Nat.min_le_left _ _) hlen fun _ => hshare
    rw [Cluster.log, hlog, hsame, ← htake]
    exact List.take_prefix_take_left (Nat.min_le_right _ _)
  · -- the follower has taken over the leader's log
    have hsame := accepted_log hm hok hd hrep ha hfl hnil (hr.led_chain hnd hf) hsrc
      (hr.sourced hnd hf hm z hz _ hfl.mem).1
    rw [splice, if_neg hnil] at hlog
    rw [Cluster.log, hlog, hsame]
    exact List.take_prefix_take_left (Nat.min_le_right _ _)

/-- What a node has committed, a majority held in a term up to the node's. -/
theorem Run.committed (hnd : ids.Nodup) (hr : Run ndebug ids Careful h s) :
    ∀ x ∈ states h s, ∀ p ∈ ids, CommittedAt ids (states h s) x p := by
  induction hr with
  | nil =>
    intro x hx p _ hne
    obtain rfl : x = _ := by simpa [states] using hx
    exact absurd rfl hne
  | @snoc h s s' e hr hok hs ih =>
    intro x hx p hp
    have hsub : ∀ y ∈ states h s, y ∈ states ((s, e) :: h) s' := fun _ => mem_states_of_mem
    have now := Trace.snoc hr hok hs
    rcases mem_states_cons.1 hx with rfl | hx
    swap
    · exact (ih x hx p hp).mono hsub
    have hold := ih s (mem_states_self h s) p hp
    rcases Run.node_cases hr hs p with heq | ⟨m, hn⟩
    · intro hne
      rw [heq] at hne
      obtain ⟨t, P, ht, hP, hpre⟩ := hold hne
      refine ⟨t, P, ?_, committed_mono hP hsub, ?_⟩
      · rw [Cluster.term, heq]; exact ht
      · rw [Cluster.log, heq]; exact hpre
    have hrep := (Run.node_ok hr (mem_states_self h s) hp).rep
    have hrep' := (Run.node_ok now (mem_states_self _ x) hp).rep
    by_cases hsame : (x.nodes p).storage.commit.index = (s.nodes p).storage.commit.index
    · -- nothing new is committed
      intro hne
      rw [hsame] at hne ⊢
      obtain ⟨t, P, ht, hP, hpre⟩ := hold hne
      refine ⟨t, P, ht.trans (Run.term_step hr hs p), committed_mono hP hsub, ?_⟩
      rw [Cluster.log, (hn.moves.commit_stable hrep hrep').2]
      exact hpre
    have hmoves := hn.moves
    generalize hx' : x.nodes p = n' at hmoves
    cases hmoves with
    | quiet hst => exact absurd (by rw [hx', hst]) hsame
    | stepDown _ _ hst => exact absurd (by rw [hx', hst]; rfl) hsame
    | candidacy _ _ hst => exact absurd (by rw [hx', hst]) hsame
    | grant _ _ hst => exact absurd (by rw [hx', hst]) hsame
    | vote _ hst => exact absurd (by rw [hx', hst]) hsame
    | append _ _ hst => exact absurd (by rw [hx', hst]; rfl) hsame
    | ack =>
      have hd := hn.delivered (by simp)
      exact Run.committed_leader hnd hr hok hs hp hd hsame
    | @accept _ r ha _ hst =>
      rw [← hx'] at hst
      rcases accepted_commit (s.nodes p).storage r with hc | ⟨hlt, hc⟩
      · exact absurd (by rw [hst, hc]) hsame
      rw [← hst] at hc
      have hidx : (x.nodes p).storage.commit.index =
          min (x.log p).length r.header.logState.commit.index := by
        rw [hc]
        exact infoAt_index hrep'.index (Nat.min_le_left _ _)
      obtain ⟨t, P, ht, hP, hpre⟩ := Run.committed_follower hnd hr hok hp hn ih ha hst hlt
      intro _
      rw [hidx]
      exact ⟨t, P, ht, committed_mono hP hsub, hpre⟩

/-- The entry below a committed index. -/
theorem Run.committed_entry {good : Cluster α → Event α → Prop} (hr : Run ndebug ids good h s)
    {x : Cluster α} (hx : x ∈ states h s) (hp : p ∈ ids) {k : Nat}
    (hk : k < (x.nodes p).storage.commit.index) {P : List (Entry α)}
    (hpre : (x.log p).take (x.nodes p).storage.commit.index <+: P) :
    ∃ e, (x.log p)[k]? = some e ∧ P[k]? = some e := by
  have hle := (hr.node_ok hx hp).rep.commit_le
  obtain ⟨e, he⟩ : ∃ e, (x.log p)[k]? = some e :=
    ⟨_, List.getElem?_eq_getElem (show k < (x.log p).length by simp only [Cluster.log]; omega)⟩
  refine ⟨e, he, ?_⟩
  obtain ⟨es, rfl⟩ := hpre
  rw [List.getElem?_append_left (by simp only [List.length_take, Cluster.log]; omega),
    List.getElem?_take_of_lt hk]
  exact he

/-- **Leader completeness**, for a run whose steps are `Careful`: an entry a node, the leader of a
term in particular, has committed is in the log of every leader of a later term. -/
theorem leader_completeness (hnd : ids.Nodup) (hr : Run ndebug ids Careful h s) {x y : Cluster α}
    (hx : x ∈ states h s) (hy : y ∈ states h s) {q : String} (hp : p ∈ ids) (hq : q ∈ ids)
    (hlq : y.role q = .leader) (ht : x.term p < y.term q) {k : Nat}
    (hk : k < (x.nodes p).storage.commit.index) :
    ∃ e, (x.log p)[k]? = some e ∧ (y.log q)[k]? = some e := by
  obtain ⟨t, P, htp, hP, hpre⟩ := hr.committed hnd x hx p hp (by omega)
  have hcomp := hr.complete hnd hP (htp.trans_lt ht) ⟨y, hy, q, hq, hlq, rfl, rfl⟩
  exact hr.committed_entry hx hp hk (hpre.trans hcomp)

/-- `a` commits an entry in term 1; `b` is elected in term 2. -/
theorem leader_completeness_two_terms : ∃ h, ∃ s : Cluster String,
    Run false ["a", "b", "c"] Careful h s ∧ s.role "a" = .leader ∧ s.term "a" = 1 ∧
    (s.nodes "a").storage.commit.index = 1 ∧ s.role "b" = .leader ∧ s.term "b" = 2 ∧
    ∃ e, (s.log "a")[0]? = some e ∧ (s.log "b")[0]? = some e := by
  obtain ⟨h, s, hr, hla, hta, hc, hlb, htb⟩ := exists_trace
    (Cluster.step (α := String) false) Careful
    (Cluster.init ["a", "b", "c"])
    [.timeout "a", .deliver 0, .deliver 1, .deliver 1, .deliver 2,
      .clientRequest "a" ⟨"client", "1", "x"⟩, .deliver 2, .deliver 2, .timeout "b", .deliver 3,
      .deliver 3]
    (P := fun _ s => s.role "a" = .leader ∧ s.term "a" = 1 ∧
      (s.nodes "a").storage.commit.index = 1 ∧ s.role "b" = .leader ∧ s.term "b" = 2)
    (by decide +kernel)
  refine ⟨h, s, hr, hla, hta, hc, hlb, htb, ?_⟩
  exact leader_completeness (by decide) hr (mem_states_self h s) (mem_states_self h s) (by decide)
    (by decide) hlb (by rw [hta, htb]; decide) (by rw [hc]; decide)

/-- `c`, the leader of term 2, has committed an entry `y` at index 1; then `a` is elected in term 3
with another entry there. -/
theorem leader_completeness_violated : ∃ h, ∃ s : Cluster String,
    Run false ["a", "b", "c"] (fun _ e => e.isDuplicate = false) h s ∧
    (∃ x ∈ h.head?, x.1.role "c" = .leader ∧ x.1.term "c" = 2 ∧
      (x.1.nodes "c").storage.commit.index = 2 ∧ (x.1.log "c")[0]? = some ⟨⟨1, 2⟩, "y"⟩ ∧
      x.1.role "a" ≠ .leader) ∧
    s.role "a" = .leader ∧ s.term "a" = 3 ∧ (s.log "a")[0]? = some ⟨⟨1, 1⟩, "x"⟩ :=
  exists_trace (Cluster.step false) (fun _ e => e.isDuplicate = false)
    (Cluster.init ["a", "b", "c"])
    [.timeout "a", .deliver 0, .deliver 1, .clientRequest "a" ⟨"client", "1", "x"⟩, .timeout "c",
      .timeout "c", .deliver 6, .deliver 6, .deliver 6, .deliver 7,
      .clientRequest "c" ⟨"client", "1", "y"⟩, .clientRequest "c" ⟨"client", "2", "z"⟩,
      .deliver 7, .deliver 7, .timeout "c", .deliver 7, .timeout "a", .deliver 9, .deliver 10]
    (P := fun h s => (∃ x ∈ h.head?, x.1.role "c" = .leader ∧ x.1.term "c" = 2 ∧
        (x.1.nodes "c").storage.commit.index = 2 ∧ (x.1.log "c")[0]? = some ⟨⟨1, 2⟩, "y"⟩ ∧
        x.1.role "a" ≠ .leader) ∧
      s.role "a" = .leader ∧ s.term "a" = 3 ∧ (s.log "a")[0]? = some ⟨⟨1, 1⟩, "x"⟩)
    (by decide +kernel)

/-- **State machine safety**, for a run whose steps are `Careful`: two nodes have the same entry at
every index both have committed. -/
theorem state_machine_safety (hnd : ids.Nodup) (hr : Run ndebug ids Careful h s) {q : String}
    (hp : p ∈ ids) (hq : q ∈ ids) {k : Nat} (hkp : k < (s.nodes p).storage.commit.index)
    (hkq : k < (s.nodes q).storage.commit.index) :
    ∃ e, (s.log p)[k]? = some e ∧ (s.log q)[k]? = some e := by
  have hself := mem_states_self h s
  obtain ⟨t, P, -, hP, hpre⟩ := hr.committed hnd s hself p hp (by omega)
  obtain ⟨t', P', -, hP', hpre'⟩ := hr.committed hnd s hself q hq (by omega)
  obtain ⟨e, he, heP⟩ := hr.committed_entry hself hp hkp hpre
  obtain ⟨e', he', heP'⟩ := hr.committed_entry hself hq hkq hpre'
  have hcmp := Committed.comparable (hr.led_chain hnd fun _ _ h => h.votes)
    (fun _ _ hc _ _ hlt hL => hr.complete hnd hc hlt hL) (fun _ _ _ => hr.holds_led hnd) hP hP'
  have hee : e = e' := by
    rcases hcmp with ⟨es, rfl⟩ | ⟨es, rfl⟩
    · rw [List.getElem?_append_left (List.getElem?_eq_some_iff.1 heP).1, heP] at heP'
      exact Option.some.inj heP'
    · rw [List.getElem?_append_left (List.getElem?_eq_some_iff.1 heP').1, heP'] at heP
      exact (Option.some.inj heP).symm
  exact ⟨e, he, hee ▸ he'⟩

/-- `a` commits an entry and tells `b`. -/
theorem state_machine_safety_heartbeat : ∃ h, ∃ s : Cluster String,
    Run false ["a", "b", "c"] Careful h s ∧ (s.nodes "a").storage.commit.index = 1 ∧
    (s.nodes "b").storage.commit.index = 1 ∧
    ∃ e, (s.log "a")[0]? = some e ∧ (s.log "b")[0]? = some e := by
  obtain ⟨h, s, hr, hca, hcb⟩ := exists_trace
    (Cluster.step (α := String) false) Careful
    (Cluster.init ["a", "b", "c"])
    [.timeout "a", .deliver 0, .deliver 1, .deliver 1, .deliver 2,
      .clientRequest "a" ⟨"client", "1", "x"⟩, .deliver 2, .deliver 2, .timeout "a", .deliver 2]
    (P := fun _ s => (s.nodes "a").storage.commit.index = 1 ∧
      (s.nodes "b").storage.commit.index = 1)
    (by decide +kernel)
  refine ⟨h, s, hr, hca, hcb, ?_⟩
  exact state_machine_safety (by decide) hr (by decide) (by decide) (by rw [hca]; decide)
    (by rw [hcb]; decide)

/-- `a` and `c` have both committed two entries and differ in the first. -/
theorem state_machine_safety_violated : ∃ h, ∃ s : Cluster String,
    Run false ["a", "b", "c"] (fun _ e => e.isDuplicate = false) h s ∧
    (s.nodes "a").storage.commit.index = 2 ∧ (s.nodes "c").storage.commit.index = 2 ∧
    (s.log "a")[0]? = some ⟨⟨1, 1⟩, "x"⟩ ∧ (s.log "c")[0]? = some ⟨⟨1, 2⟩, "y"⟩ :=
  exists_trace (Cluster.step false) (fun _ e => e.isDuplicate = false)
    (Cluster.init ["a", "b", "c"])
    [.timeout "a", .deliver 0, .deliver 1, .clientRequest "a" ⟨"client", "1", "x"⟩, .timeout "c",
      .timeout "c", .deliver 6, .deliver 6, .deliver 6, .deliver 7,
      .clientRequest "c" ⟨"client", "1", "y"⟩, .clientRequest "c" ⟨"client", "2", "z"⟩,
      .deliver 7, .deliver 7, .timeout "c", .deliver 7]
    (P := fun _ s => (s.nodes "a").storage.commit.index = 2 ∧
      (s.nodes "c").storage.commit.index = 2 ∧
      (s.log "a")[0]? = some ⟨⟨1, 1⟩, "x"⟩ ∧ (s.log "c")[0]? = some ⟨⟨1, 2⟩, "y"⟩)
    (by decide +kernel)

end

end Raft
