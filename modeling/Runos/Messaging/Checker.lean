import Mathlib.Algebra.Group.Int.Defs
import Runos.Raft.Storage

/-!
# The storage checker (`Messaging.cc`, `StorageCheckerThread`)

The thread of `Messaging` that applies the committed entries polls the storage of the raft node:
it reads the commit index, then the entries since the index it has applied up to, and hands them
to `process_entries`. The raft thread appends, truncates and commits in between, so a poll is two
steps: `readCommit` is the first line of the loop body with its test, `processEntries` the body of
the `if`. What `process_entries` does with the entries is left out; `processed` lists the entries
handed to it.

`local_commited_idx` and `raft_log_commited_idx` are of type `int`.
-/

namespace Messaging

open Raft

variable {α : Type}

/-- The conversion of a `uint64_t` to an `int`. -/
def int32 (n : Nat) : Int := (BitVec.ofNat 32 n).toInt

/-- The conversion of an `int` to a `uint64_t`. -/
def uint64 (i : Int) : Nat := (i % 2 ^ 64).toNat

/-- What the raft thread does to the storage. -/
inductive StorageEvent (α : Type)
  | append (entries : List (Entry α))
  | truncate (index : Nat)
  | commit (index : Nat)
  deriving DecidableEq, Repr

/-- `truncate` is the first half of `append`. -/
def StorageEvent.apply (st : MemStorage α) : StorageEvent α → Except Fault (MemStorage α)
  | .append entries => do
    let (st, _) ← st.append entries
    .ok st
  | .truncate index => do
    let entries ← st.eraseFrom (index + 1)
    .ok { st with entries, uncommit := (entries.getLast?.map (·.info)).getD ⟨0, 0⟩ }
  | .commit index => st.commitUntil index

structure Checker (α : Type) where
  storage : MemStorage α
  raftLogCommitedIdx : Int
  localCommitedIdx : Int
  /-- The thread is in the body of the `if`. -/
  polling : Bool
  processed : List (Entry α)

inductive Event (α : Type)
  | storage (event : StorageEvent α)
  | readCommit
  | processEntries
  deriving DecidableEq, Repr

namespace Checker

def init : Checker α where
  storage := .init
  raftLogCommitedIdx := 0
  localCommitedIdx := 0
  polling := false
  processed := []

def readCommit (s : Checker α) : Checker α :=
  let index := int32 s.storage.logState.commit.index
  { s with raftLogCommitedIdx := index, polling := decide (s.localCommitedIdx < index) }

def processEntries (s : Checker α) : Except Fault (Checker α) := do
  let entries ← s.storage.entriesSince (uint64 s.localCommitedIdx)
  .ok { s with
    localCommitedIdx := s.raftLogCommitedIdx
    polling := false
    processed := s.processed ++ entries }

/-- One step. A step of the thread that is not next changes nothing. -/
def step (s : Checker α) : Event α → Except Fault (Checker α)
  | .storage event => do
    let storage ← event.apply s.storage
    .ok { s with storage }
  | .readCommit => .ok (if s.polling then s else s.readCommit)
  | .processEntries => if s.polling then s.processEntries else .ok s

end Checker

end Messaging
