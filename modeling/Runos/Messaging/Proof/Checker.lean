import Runos.Lib.Trace
import Runos.Messaging.Checker
import Runos.Raft.Proof.Storage

/-!
# What the storage checker applies

The storage steps considered are those the raft thread makes: appended entries continue the log
above the commit index, a truncation keeps the committed entries and the commit index does not
decrease (`Allowed`). Over such steps
the storage keeps its representation and the index applied up to never exceeds the commit index
(`Checker.Inv`). The entries processed are exactly the log up to `local_commited_idx` as long as no
poll reads entries beyond the commit index it has read, and only then
(`applied_iff`).
-/

namespace Messaging

open Raft Runs

variable {α : Type}

instance (prev : Nat) (es : List (Entry α)) : Decidable (Consecutive prev es) :=
  decidable_of_iff (∀ k : Fin es.length, es[k].info.index = prev + k + 1)
    ⟨fun h k e he => by
      obtain ⟨hk, rfl⟩ := List.getElem?_eq_some_iff.1 he
      exact h ⟨k, hk⟩,
    fun h k => h k _ (List.getElem?_eq_getElem k.isLt)⟩

/-- A step of the raft thread leaves the committed entries and keeps the indexes consecutive. -/
def StorageEvent.Allowed (st : MemStorage α) : StorageEvent α → Prop
  | .append es => ∀ front ∈ es.head?, st.commit.index < front.info.index ∧
      front.info.index ≤ st.entries.length + 1 ∧ Consecutive (front.info.index - 1) es
  | .truncate index => st.commit.index ≤ index
  | .commit index => st.commit.index ≤ index

instance (st : MemStorage α) : DecidablePred (StorageEvent.Allowed st)
  | .append _ => inferInstanceAs (Decidable (∀ _ ∈ _, _))
  | .truncate _ | .commit _ => inferInstanceAs (Decidable (_ ≤ _))

/-- Every step of the thread, and the allowed steps of the storage. -/
def Allowed (s : Checker α) : Event α → Prop
  | .storage event => event.Allowed s.storage
  | _ => True

instance (s : Checker α) : DecidablePred (Allowed s)
  | .storage event => inferInstanceAs (Decidable (event.Allowed s.storage))
  | .readCommit | .processEntries => .isTrue trivial

/-- The entries processed are the log up to the index applied, and these are committed. -/
def Checker.Applied (s : Checker α) : Prop :=
  s.processed = s.storage.entries.take s.localCommitedIdx.toNat ∧
    s.localCommitedIdx.toNat ≤ s.storage.commit.index

/-- A poll that has found new commits reads nothing beyond the commit index it has read. -/
def Checker.NothingUncommitted (s : Checker α) (e : Event α) : Prop :=
  e = .processEntries → s.polling = true → (s.storage.entries.length : Int) = s.raftLogCommitedIdx

instance [DecidableEq α] (s : Checker α) (e : Event α) : Decidable (s.NothingUncommitted e) :=
  inferInstanceAs (Decidable (_ → _ → _))

/-! ## Conversions -/

theorem int32_le (n : Nat) : int32 n ≤ n := by
  unfold int32
  rw [BitVec.toInt_eq_toNat_cond, BitVec.toNat_ofNat]
  have := Nat.mod_le n (2 ^ 32)
  split <;> omega

theorem int32_lt (n : Nat) : int32 n < 2 ^ 31 := BitVec.toInt_lt

theorem uint64_of_nonneg {i : Int} (h0 : 0 ≤ i) (h1 : i < 2 ^ 31) : uint64 i = i.toNat := by
  unfold uint64
  rw [Int.emod_eq_of_lt h0 (by omega)]

/-! ## Storage steps -/

theorem getLast?_info (l : List (Entry α)) :
    (l.getLast?.map (·.info)).getD ⟨0, 0⟩ = infoAt l l.length := by
  rw [List.getLast?_eq_getElem?]
  cases h : l.length with
  | zero => rw [List.length_eq_zero_iff.1 h]; rfl
  | succ k => rfl

theorem rep_truncated {st : MemStorage α} (h : st.Rep) {k : Nat} (hk : st.commit.index ≤ k) :
    { st with
      entries := st.entries.take k
      uncommit := infoAt (st.entries.take k) (st.entries.take k).length }.Rep where
  index j e he := by
    rw [List.getElem?_take] at he
    split at he
    · exact h.index j e he
    · cases he
  uncommit := rfl
  commit := by
    show st.commit = infoAt (st.entries.take k) st.commit.index
    rw [infoAt_take hk, ← h.commit]
  commit_le := by
    show st.commit.index ≤ (st.entries.take k).length
    have := h.commit_le
    rw [List.length_take]
    omega

/-- The erased tail starts above an index. -/
theorem eraseFrom_succ {st : MemStorage α} (h : st.Rep) (k : Nat) :
    st.eraseFrom (k + 1) = .ok (st.entries.take k) := by
  rcases Nat.lt_or_ge st.entries.length k with hk | hk
  · unfold MemStorage.eraseFrom
    rw [h.uncommit_index, if_neg (by omega), List.take_of_length_le (by omega)]
  · exact h.eraseFrom hk

/-- An allowed storage step returns, keeps the representation and the committed entries, and does
not lower the commit index. -/
theorem StorageEvent.apply_spec {st : MemStorage α} (h : st.Rep) {e : StorageEvent α}
    (ha : e.Allowed st) : ∃ st', e.apply st = .ok st' ∧ st'.Rep ∧
      st.commit.index ≤ st'.commit.index ∧
      st'.entries.take st.commit.index = st.entries.take st.commit.index := by
  cases e with
  | append es =>
    cases es with
    | nil => exact ⟨st, rfl, h, le_refl _, rfl⟩
    | cons front rest =>
      obtain ⟨hlow, hhigh, hes⟩ := ha front rfl
      have hprev : front.info.index - 1 ≤ st.entries.length := by omega
      have hc : st.commit.index ≤ front.info.index - 1 := by omega
      refine ⟨st.spliced (front.info.index - 1) (front :: rest), ?_, h.spliced hprev hes hc,
        le_refl _, ?_⟩
      · rw [StorageEvent.apply, h.append hprev hes]; rfl
      · exact take_splice (front :: rest) hprev hc
  | truncate k =>
    have hk : st.commit.index ≤ k := ha
    refine ⟨{ st with
      entries := st.entries.take k
      uncommit := infoAt (st.entries.take k) (st.entries.take k).length }, ?_,
      rep_truncated h hk, le_refl _, ?_⟩
    · rw [StorageEvent.apply, eraseFrom_succ h, ← getLast?_info]; rfl
    · show (st.entries.take k).take _ = _
      rw [List.take_take, min_eq_left hk]
  | commit k =>
    have hk : st.commit.index ≤ k := ha
    have hle := h.commit_le
    refine ⟨_, h.commitUntil k, h.commit_of (Nat.min_le_left _ _), ?_, rfl⟩
    show _ ≤ (infoAt st.entries _).index
    rw [infoAt_index h.index (Nat.min_le_left _ _)]
    omega

/-! ## Runs -/

/-- The invariant of the thread and the storage. -/
structure Checker.Inv (s : Checker α) : Prop where
  rep : s.storage.Rep
  nonneg : 0 ≤ s.localCommitedIdx
  lt : s.localCommitedIdx < 2 ^ 31
  le : s.localCommitedIdx ≤ s.storage.commit.index
  read : s.polling = true → s.localCommitedIdx < s.raftLogCommitedIdx ∧
    s.raftLogCommitedIdx < 2 ^ 31 ∧ s.raftLogCommitedIdx ≤ s.storage.commit.index

variable {s s' : Checker α} {e : Event α}

theorem Checker.Inv.init : (Checker.init : Checker α).Inv where
  rep := .init
  nonneg := Int.le_refl _
  lt := show (0 : Int) < 2 ^ 31 by decide
  le := Int.le_refl _
  read h := nomatch h

/-- The state once the entries read are processed. -/
def Checker.polled (s : Checker α) : Checker α :=
  { s with
    localCommitedIdx := s.raftLogCommitedIdx
    polling := false
    processed := s.processed ++ s.storage.entries.drop s.localCommitedIdx.toNat }

/-- The entries a poll reads. -/
theorem Checker.Inv.processEntries_eq (h : s.Inv) : s.processEntries = .ok s.polled := by
  unfold Checker.processEntries
  rw [uint64_of_nonneg h.nonneg h.lt, h.rep.entriesSince]
  rfl

/-- What a step does: the storage moves, the thread reads the commit index, or it hands entries to
`process_entries`. -/
theorem Checker.Inv.step_cases (h : s.Inv) (ha : Allowed s e) (hs : s.step e = .ok s') :
    (∃ st', s' = { s with storage := st' } ∧ st'.Rep ∧ e ≠ .processEntries ∧
      s.storage.commit.index ≤ st'.commit.index ∧
      st'.entries.take s.storage.commit.index =
        s.storage.entries.take s.storage.commit.index) ∨
    (s' = s.readCommit ∧ e ≠ .processEntries) ∨
    (s' = s ∧ (e = .processEntries → s.polling = false)) ∨
    (e = .processEntries ∧ s.polling = true ∧ s' = s.polled) := by
  cases e with
  | storage ev =>
    obtain ⟨st', hst, hrep, hle, htake⟩ := StorageEvent.apply_spec h.rep ha
    simp only [Checker.step, hst] at hs
    cases hs
    exact .inl ⟨st', rfl, hrep, fun h => (nomatch h), hle, htake⟩
  | readCommit =>
    simp only [Checker.step, Except.ok.injEq] at hs
    subst hs
    split
    · exact .inr (.inr (.inl ⟨rfl, fun h => nomatch h⟩))
    · exact .inr (.inl ⟨rfl, fun h => nomatch h⟩)
  | processEntries =>
    simp only [Checker.step] at hs
    split at hs
    · rename_i hp
      rw [h.processEntries_eq] at hs
      cases hs
      exact .inr (.inr (.inr ⟨rfl, hp, rfl⟩))
    · rename_i hp
      cases hs
      exact .inr (.inr (.inl ⟨rfl, fun _ => by simpa using hp⟩))

theorem Checker.Inv.step (h : s.Inv) (ha : Allowed s e) (hs : s.step e = .ok s') : s'.Inv := by
  rcases h.step_cases ha hs with ⟨st', rfl, hrep, -, hle, -⟩ | ⟨rfl, -⟩ | ⟨rfl, -⟩ | ⟨-, hp, rfl⟩
  · have hle' : (s.storage.commit.index : Int) ≤ st'.commit.index := by exact_mod_cast hle
    refine ⟨hrep, h.nonneg, h.lt, Int.le_trans h.le hle', fun hp => ?_⟩
    obtain ⟨h1, h2, h3⟩ := h.read hp
    exact ⟨h1, h2, Int.le_trans h3 hle'⟩
  · exact ⟨h.rep, h.nonneg, h.lt, h.le, fun hp => ⟨of_decide_eq_true hp, int32_lt _, int32_le _⟩⟩
  · exact h
  · obtain ⟨h1, h2, h3⟩ := h.read hp
    exact ⟨h.rep, Int.le_trans h.nonneg (Int.le_of_lt h1), h2, h3, fun h => nomatch h⟩

/-- A step keeps what is applied exact if and only if it processes nothing uncommitted. -/
theorem Checker.Inv.applied_step (h : s.Inv) (ha : Allowed s e) (hs : s.step e = .ok s')
    (hap : s.Applied) : s'.Applied ↔ s.NothingUncommitted e := by
  obtain ⟨hproc, hle⟩ := hap
  have hlen := h.rep.commit_le
  rcases h.step_cases ha hs with ⟨st', rfl, hrep, hne, hcle, htake⟩ | ⟨rfl, hne⟩ | ⟨rfl, hnot⟩ |
    ⟨rfl, hp, rfl⟩
  · refine ⟨fun _ he => absurd he hne, fun _ => ⟨?_, hle.trans hcle⟩⟩
    have := congrArg (List.take s.localCommitedIdx.toNat) htake
    rw [List.take_take, List.take_take, min_eq_left hle] at this
    exact hproc.trans this.symm
  · exact ⟨fun _ he => absurd he hne, fun _ => ⟨hproc, hle⟩⟩
  · exact ⟨fun _ he hp => (nomatch (hnot he).symm.trans hp), fun _ => ⟨hproc, hle⟩⟩
  · obtain ⟨h1, -, h3⟩ := h.read hp
    have h0 := h.nonneg
    have hall : s.polled.processed = s.storage.entries := by
      show s.processed ++ s.storage.entries.drop _ = _
      rw [hproc, List.take_append_drop]
    constructor
    · rintro ⟨hproc', -⟩ - -
      -- the whole log has been processed, so it ends at the index read
      have hend : s.storage.entries.length ≤ s.raftLogCommitedIdx.toNat := by
        have : s.storage.entries = s.storage.entries.take s.raftLogCommitedIdx.toNat :=
          hall.symm.trans hproc'
        rw [this, List.length_take]
        exact Nat.min_le_left _ _
      omega
    · intro hno
      have heq := hno rfl hp
      refine ⟨hall.trans ?_, ?_⟩
      · show _ = s.storage.entries.take s.raftLogCommitedIdx.toNat
        rw [List.take_of_length_le (by omega)]
      · show s.raftLogCommitedIdx.toNat ≤ s.storage.commit.index
        omega

/-- **Every replica applies exactly the committed log** as long as no poll that has found new
commits finds the log longer than the commit index it has read, and only then: the entries handed
to `process_entries` are, in every state of the run, the log entries up to `local_commited_idx`, all
of them committed. -/
theorem applied_iff {h : List (Checker α × Event α)}
    (hr : Trace Checker.step Allowed (Checker.init : Checker α) h s) :
    (∀ x ∈ states h s, x.Applied) ↔ ∀ z ∈ h, z.1.NothingUncommitted z.2 := by
  have hinv : ∀ {h : List (Checker α × Event α)} {s : Checker α},
      Trace Checker.step Allowed (Checker.init : Checker α) h s → s.Inv := fun ht =>
    ht.invariant_state Checker.Inv.init fun _ _ _ hI ha hs => hI.step ha hs
  induction hr with
  | nil =>
    refine ⟨fun _ z hz => (nomatch hz), fun _ x hx => ?_⟩
    obtain rfl : x = _ := by simpa [states] using hx
    exact ⟨rfl, le_refl _⟩
  | @snoc h s s' e ht ha hs ih =>
    constructor
    · intro hall z hz
      have hpast : ∀ x ∈ states h s, x.Applied := fun x hx => hall x (mem_states_of_mem hx)
      rcases List.mem_cons.1 hz with rfl | hz
      · exact ((hinv ht).applied_step ha hs (hpast s (mem_states_self h s))).1
          (hall s' (mem_states_self _ _))
      · exact ih.1 hpast z hz
    · intro hall x hx
      have hpast := ih.2 fun z hz => hall z (List.mem_cons_of_mem _ hz)
      rcases mem_states_cons.1 hx with rfl | hx
      · exact ((hinv ht).applied_step ha hs (hpast s (mem_states_self h s))).2
          (hall (s, e) List.mem_cons_self)
      · exact hpast x hx

/-- An entry is appended, committed and applied; then a second one. -/
theorem applied_iff_two_polls : ∃ h, ∃ s : Checker String,
    Trace Checker.step Allowed (Checker.init : Checker String) h s ∧
    s.processed = [⟨⟨1, 1⟩, "x"⟩, ⟨⟨2, 1⟩, "y"⟩] ∧ (∀ x ∈ states h s, x.Applied) ∧
    ∀ z ∈ h, z.1.NothingUncommitted z.2 := by
  obtain ⟨h, s, hr, hp, hno⟩ := exists_trace Checker.step Allowed
    (Checker.init : Checker String)
    [.storage (.append [⟨⟨1, 1⟩, "x"⟩]), .storage (.commit 1), .readCommit, .processEntries,
      .storage (.append [⟨⟨2, 1⟩, "y"⟩]), .readCommit, .processEntries, .storage (.commit 2),
      .readCommit, .processEntries]
    (P := fun h s => s.processed = [⟨⟨1, 1⟩, "x"⟩, ⟨⟨2, 1⟩, "y"⟩] ∧
      ∀ z ∈ h, z.1.NothingUncommitted z.2)
    (by decide +kernel)
  exact ⟨h, s, hr, hp, (applied_iff hr).2 hno, hno⟩

/-- Two entries are appended and the first is committed: the poll processes both. -/
theorem applied_violated : ∃ h, ∃ s : Checker String,
    Trace Checker.step Allowed (Checker.init : Checker String) h s ∧
    s.storage.commit.index = 1 ∧ s.localCommitedIdx = 1 ∧
    s.processed = [⟨⟨1, 1⟩, "x"⟩, ⟨⟨2, 1⟩, "y"⟩] :=
  exists_trace Checker.step Allowed (Checker.init : Checker String)
    [.storage (.append [⟨⟨1, 1⟩, "x"⟩, ⟨⟨2, 1⟩, "y"⟩]), .storage (.commit 1), .readCommit,
      .processEntries]
    (P := fun _ s => s.storage.commit.index = 1 ∧ s.localCommitedIdx = 1 ∧
      s.processed = [⟨⟨1, 1⟩, "x"⟩, ⟨⟨2, 1⟩, "y"⟩])
    (by decide +kernel)

end Messaging
