import Mathlib.Data.List.Infix
import Runos.Raft.Storage

/-!
# The representation invariant of `MemStorage`

`MemStorage.Rep st`: the entry at position `k` has index `k + 1`, `uncommit` is the info of the
last entry and `commit` the info of some entry (`{0,0}` when there is none). On such a storage no
operation faults, provided the entries handed to `append` continue the log at or below its end
(`Consecutive`), and each operation has a closed form (`Rep.append`, `Rep.commitUntil`,
`Rep.getEntryInfo`, `Rep.entriesSince`); the representation is kept when the appended entries
start above the commit index.
-/

namespace Raft

variable {α : Type} {st : MemStorage α} {es : List (Entry α)} {prev k : Nat}

/-- The info of the entry with index `k`, `{0,0}` when there is none. -/
def infoAt (entries : List (Entry α)) : Nat → EntryInfo
  | 0 => ⟨0, 0⟩
  | k + 1 => (entries[k]?.map (·.info)).getD ⟨0, 0⟩

/-- The entries carry consecutive indexes from `prev + 1` on. -/
def Consecutive (prev : Nat) (es : List (Entry α)) : Prop :=
  ∀ k e, es[k]? = some e → e.info.index = prev + k + 1

/-- The log after `append`: an empty list leaves it, any other replaces what is above `prev`. -/
def splice (entries : List (Entry α)) (prev : Nat) (es : List (Entry α)) : List (Entry α) :=
  if es = [] then entries else entries.take prev ++ es

/-- The representation invariant (module doc). -/
structure MemStorage.Rep (st : MemStorage α) : Prop where
  index : Consecutive 0 st.entries
  uncommit : st.uncommit = infoAt st.entries st.entries.length
  commit : st.commit = infoAt st.entries st.commit.index
  commit_le : st.commit.index ≤ st.entries.length

/-! ## Infos and indexes -/

theorem infoAt_succ_of_some {l : List (Entry α)} {e : Entry α} (h : l[k]? = some e) :
    infoAt l (k + 1) = e.info := by simp [infoAt, h]

theorem infoAt_append_left {l l' : List (Entry α)} (h : k ≤ l.length) :
    infoAt (l ++ l') k = infoAt l k := by
  cases k with
  | zero => rfl
  | succ k => rw [infoAt, infoAt, List.getElem?_append_left (by omega)]

theorem infoAt_take {l : List (Entry α)} (h : k ≤ prev) : infoAt (l.take prev) k = infoAt l k := by
  cases k with
  | zero => rfl
  | succ k => rw [infoAt, infoAt, List.getElem?_take_of_lt (by omega)]

theorem infoAt_index {l : List (Entry α)} (hl : Consecutive 0 l) (h : k ≤ l.length) :
    (infoAt l k).index = k := by
  cases k with
  | zero => rfl
  | succ k =>
    have hk : l[k]? = some l[k] := List.getElem?_eq_getElem (by omega)
    rw [infoAt_succ_of_some hk, hl k _ hk]
    omega

theorem Consecutive.nil : Consecutive prev ([] : List (Entry α)) := fun k e h => by simp at h

theorem Consecutive.drop {l : List (Entry α)} (h : Consecutive 0 l) (k : Nat) :
    Consecutive k (l.drop k) := by
  intro j e he
  rw [List.getElem?_drop] at he
  have := h _ e he
  omega

theorem Consecutive.splice {l : List (Entry α)} (hl : Consecutive 0 l) (hes : Consecutive prev es)
    (hprev : prev ≤ l.length) : Consecutive 0 (splice l prev es) := by
  unfold Raft.splice
  split
  · exact hl
  · intro j e he
    rcases Nat.lt_or_ge j prev with hj | hj
    · rw [List.getElem?_append_left (by simp; omega), List.getElem?_take_of_lt hj] at he
      exact hl j e he
    · rw [List.getElem?_append_right (by simp; omega)] at he
      have := hes _ e he
      simp only [List.length_take] at this
      omega

theorem length_splice (l : List (Entry α)) (hprev : prev ≤ l.length) (hes : es ≠ []) :
    (splice l prev es).length = prev + es.length := by
  simp [splice, hes]; omega

theorem le_length_splice {l : List (Entry α)} (es : List (Entry α)) (hprev : prev ≤ l.length) :
    prev ≤ (splice l prev es).length := by
  by_cases hes : es = []
  · simpa [splice, hes] using hprev
  · rw [length_splice l hprev hes]; omega

/-- Nothing at or below `prev` changes. -/
theorem infoAt_splice {l : List (Entry α)} (hprev : prev ≤ l.length) (hk : k ≤ prev) :
    infoAt (splice l prev es) k = infoAt l k := by
  unfold splice
  split
  · rfl
  · rw [infoAt_append_left (by simp; omega), infoAt_take hk]

theorem take_splice {l : List (Entry α)} (es : List (Entry α)) (hprev : prev ≤ l.length)
    (hk : k ≤ prev) : (splice l prev es).take k = l.take k := by
  unfold splice
  split
  · rfl
  · rw [List.take_append_of_le_length (by simp; omega), List.take_take, min_eq_left hk]

/-! ## The vector operations -/

theorem vecPred_of_some {β : Type} {v : List β} {x : β} (h : v[k]? = some x) :
    vecPred v (k + 1) = .ok x := by simp [vecPred, h]

/-! ## The operations -/

namespace MemStorage

theorem Rep.init : (MemStorage.init : MemStorage α).Rep where
  index := .nil
  uncommit := rfl
  commit := rfl
  commit_le := Nat.le_refl 0

theorem Rep.uncommit_index (h : st.Rep) : st.uncommit.index = st.entries.length := by
  rw [h.uncommit]
  exact infoAt_index h.index (Nat.le_refl _)

theorem Rep.setVotedFor (h : st.Rep) (id : String) : (st.setVotedFor id).Rep :=
  ⟨h.index, h.uncommit, h.commit, h.commit_le⟩

theorem Rep.setCurrentTerm (h : st.Rep) (t : Nat) : (st.setCurrentTerm t).Rep :=
  ⟨h.index, h.uncommit, h.commit, h.commit_le⟩

theorem Rep.getEntryInfo (h : st.Rep) (k : Nat) :
    st.getEntryInfo k = .ok (infoAt st.entries k) := by
  unfold MemStorage.getEntryInfo
  split
  · rename_i hk
    cases k with
    | zero => rfl
    | succ k => simp [infoAt, List.getElem?_eq_none (show st.entries.length ≤ k by omega)]
  · rename_i hk
    obtain ⟨k, rfl⟩ : ∃ j, k = j + 1 := ⟨k - 1, by omega⟩
    have hk' : st.entries[k]? = some st.entries[k] := List.getElem?_eq_getElem (by omega)
    rw [vecPred_of_some hk', infoAt_succ_of_some hk']
    have := h.index k _ hk'
    simp only [bind, Except.bind]
    rw [if_neg (by omega)]

theorem Rep.entriesSince (h : st.Rep) (k : Nat) :
    st.entriesSince k = .ok (st.entries.drop k) := by
  unfold MemStorage.entriesSince
  split
  · rename_i hk
    rw [List.drop_eq_nil_of_le (List.getElem?_eq_none_iff.1 hk)]
  · rename_i e he
    have := h.index k e he
    rw [if_neg (by omega)]

theorem Rep.commitUntil (h : st.Rep) (k : Nat) :
    st.commitUntil k =
      .ok { st with commit := infoAt st.entries (min st.entries.length k) } := by
  unfold MemStorage.commitUntil
  simp only [h.uncommit_index]
  split
  · rename_i hk
    rw [← hk, ← h.commit]
  · rw [h.getEntryInfo]
    rfl

theorem Rep.commit_of (h : st.Rep) {k : Nat} (hk : k ≤ st.entries.length) :
    { st with commit := infoAt st.entries k }.Rep where
  index := h.index
  uncommit := h.uncommit
  commit := by simp only [infoAt_index h.index hk]
  commit_le := by simpa only [infoAt_index h.index hk] using hk

/-- The storage after a successful `append`. -/
def spliced (st : MemStorage α) (prev : Nat) (es : List (Entry α)) : MemStorage α :=
  { st with
    entries := splice st.entries prev es
    uncommit := infoAt (splice st.entries prev es) (splice st.entries prev es).length }

theorem Rep.eraseFrom (h : st.Rep) (hprev : prev ≤ st.entries.length) :
    st.eraseFrom (prev + 1) = .ok (st.entries.take prev) := by
  unfold MemStorage.eraseFrom
  rw [h.uncommit_index]
  split
  · obtain ⟨n, hn⟩ : ∃ n, st.entries.length = n + 1 := ⟨st.entries.length - 1, by omega⟩
    have hk : st.entries[n]? = some st.entries[n] := List.getElem?_eq_getElem (by omega)
    have hidx := h.index n _ hk
    simp only [hn, vecPred_of_some hk, bind, Except.bind]
    rw [if_neg (by omega)]
    simp [vecErasePred, hprev]
  · rw [List.take_of_length_le (by omega)]

theorem Rep.append (h : st.Rep) (hprev : prev ≤ st.entries.length) (hes : Consecutive prev es) :
    st.append es = .ok (st.spliced prev es, (st.spliced prev es).uncommit) := by
  unfold MemStorage.append
  split
  · simp [spliced, splice, ← h.uncommit]
  · rename_i front rest
    have hfront : front.info.index = prev + 1 := hes 0 front rfl
    have hlast : infoAt (st.entries.take prev ++ front :: rest)
        (st.entries.take prev ++ front :: rest).length =
        ((front :: rest).getLast (List.cons_ne_nil _ _)).info := by
      have hlen : (st.entries.take prev ++ front :: rest).length = prev + rest.length + 1 := by
        simp; omega
      rw [hlen]
      apply infoAt_succ_of_some
      rw [List.getElem?_append_right (by rw [List.length_take]; omega), List.length_take,
        show prev + rest.length - min prev st.entries.length = rest.length by omega,
        List.getLast_eq_getElem]
      exact List.getElem?_eq_getElem _
    simp only [hfront, h.eraseFrom hprev, bind, Except.bind, spliced, splice, reduceCtorEq,
      if_false, hlast]

theorem Rep.spliced (h : st.Rep) (hprev : prev ≤ st.entries.length) (hes : Consecutive prev es)
    (hc : st.commit.index ≤ prev) : (st.spliced prev es).Rep where
  index := h.index.splice hes hprev
  uncommit := rfl
  commit := by
    change st.commit = infoAt (splice st.entries prev es) st.commit.index
    rw [infoAt_splice hprev hc, ← h.commit]
  commit_le := hc.trans (le_length_splice _ hprev)

end MemStorage

end Raft
