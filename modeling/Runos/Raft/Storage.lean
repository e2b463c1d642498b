import Mathlib.Algebra.Group.Nat.Defs
import Mathlib.Data.List.Basic

/-!
# The storage of a raft node (`raft_entry.hpp`, `mem_storage.cpp`)

`MemStorage` keeps the log in a vector together with the vote, the term and the infos of the
last appended (`uncommit`) and the last committed entry (`commit`). Terms and indexes are
unbounded naturals. The journal file is write-only and left out: `voted_for`, `current_term`,
`append` and `commit_until` are modelled by what they do to the fields.

A call that stops the process, or that has no defined behaviour, is a `Fault`.
-/

namespace Raft

/-- How a call can fail to return. -/
inductive Fault
  /-- `exit(1)` -/
  | exit
  /-- a failed `assert` -/
  | assertion
  /-- an access outside a vector or through a null pointer -/
  | undefined
  deriving DecidableEq, Repr

/-! ## Entries -/

structure EntryInfo where
  index : Nat
  term : Nat
  deriving DecidableEq, Repr

/-- `operator==`. The source compares `lhs.term` with itself by `<`. -/
def EntryInfo.eq (lhs rhs : EntryInfo) : Bool :=
  decide (lhs.term < lhs.term) && lhs.index == rhs.index

/-- `operator!=` -/
def EntryInfo.ne (lhs rhs : EntryInfo) : Bool := !lhs.eq rhs

/-- No two infos are `==`, so `!=` always holds. -/
@[simp] theorem EntryInfo.ne_eq_true (lhs rhs : EntryInfo) : lhs.ne rhs = true := by
  simp [EntryInfo.ne, EntryInfo.eq]

structure LogState where
  commit : EntryInfo
  uncommit : EntryInfo
  deriving DecidableEq, Repr

structure Entry (α : Type) where
  info : EntryInfo
  data : α
  deriving DecidableEq, Repr

/-! ## Vectors -/

section
variable {β : Type}

/-- `v[k - 1]`. -/
def vecPred (v : List β) : Nat → Except Fault β
  | 0 => .error .undefined
  | k + 1 => match v[k]? with
    | some x => .ok x
    | none => .error .undefined

/-- `v.erase(v.begin() + k - 1, v.end())`. -/
def vecErasePred (v : List β) : Nat → Except Fault (List β)
  | 0 => .error .undefined
  | k + 1 => if k ≤ v.length then .ok (v.take k) else .error .undefined

end

/-! ## `MemStorage` -/

structure MemStorage (α : Type) where
  entries : List (Entry α)
  votedFor : String
  uncommit : EntryInfo
  commit : EntryInfo
  currentTerm : Nat
  deriving DecidableEq, Repr

namespace MemStorage

variable {α : Type}

/-- The constructor. -/
def init : MemStorage α where
  entries := []
  votedFor := ""
  uncommit := ⟨0, 0⟩
  commit := ⟨0, 0⟩
  currentTerm := 0

def logState (st : MemStorage α) : LogState := ⟨st.commit, st.uncommit⟩

/-- The first half of `append`: the entries left once everything from `index` on is erased. -/
def eraseFrom (st : MemStorage α) (index : Nat) : Except Fault (List (Entry α)) :=
  if index ≤ st.uncommit.index then do
    let last ← vecPred st.entries st.uncommit.index
    if last.info.index ≠ st.uncommit.index then .error .exit else vecErasePred st.entries index
  else
    .ok st.entries

/-- `append`: an entry at or below the last index replaces it and everything after it. -/
def append (st : MemStorage α) (entries : List (Entry α)) :
    Except Fault (MemStorage α × EntryInfo) :=
  match entries with
  | [] => .ok (st, st.uncommit)
  | front :: rest => do
    let kept ← st.eraseFrom front.info.index
    let uncommit := ((front :: rest).getLast (List.cons_ne_nil _ _)).info
    .ok ({ st with entries := kept ++ front :: rest, uncommit }, uncommit)

/-- `voted_for(id)` -/
def setVotedFor (st : MemStorage α) (id : String) : MemStorage α := { st with votedFor := id }

/-- `current_term(term)` -/
def setCurrentTerm (st : MemStorage α) (term : Nat) : MemStorage α :=
  { st with currentTerm := term }

/-- `get_entry_info` -/
def getEntryInfo (st : MemStorage α) (index : Nat) : Except Fault EntryInfo :=
  if index = 0 ∨ st.entries.length < index then
    .ok ⟨0, 0⟩
  else do
    let e ← vecPred st.entries index
    if e.info.index ≠ index then .error .exit else .ok e.info

/-- `commit_until`: the index is cut to the last appended one. -/
def commitUntil (st : MemStorage α) (commitIndex : Nat) : Except Fault (MemStorage α) :=
  let commitIndex := min st.uncommit.index commitIndex
  if st.commit.index = commitIndex then
    .ok st
  else do
    let commit ← st.getEntryInfo commitIndex
    .ok { st with commit }

/-- `entries_since` -/
def entriesSince (st : MemStorage α) (index : Nat) : Except Fault (List (Entry α)) :=
  match st.entries[index]? with
  | none => .ok []
  | some e => if e.info.index ≠ index + 1 then .error .exit else .ok (st.entries.drop index)

end MemStorage

end Raft
