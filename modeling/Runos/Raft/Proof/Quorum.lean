import Mathlib.Order.Bounds.Basic
import Runos.Raft.Proof.Retained

/-!
# The two quorums

A leader commits what more than half of its peers have, and is elected by more than half of them.
A set of peers is a set of places in `known_peers`, so that nothing is asked of the ids. The index
that `on(AppendEntriesResponse)` takes from the middle of the sorted match indexes is the largest
one that a majority reaches (`newCommit_isGreatest`), the votes that `on(VoteResponse)` counts are a
majority (`hasMajority_iff`), and two majorities have a peer in common (`quorum_arithmetic`).
-/

namespace Raft

open Majority

variable {α : Type}

/-- The peers that have entries up to `v`, as far as the leader knows. -/
def acknowledging (peers : List Peer) (v : Nat) : Finset (Fin peers.length) :=
  Finset.univ.filter fun i => v ≤ peers[i].matchEntry.index

/-- The peers whose vote was counted. -/
def voters (peers : List Peer) : Finset (Fin peers.length) :=
  Finset.univ.filter fun i => peers[i].votedForMe = true

theorem card_acknowledging (peers : List Peer) (v : Nat) :
    (acknowledging peers v).card = peers.countP (v ≤ ·.matchEntry.index) :=
  card_places peers (v ≤ ·.matchEntry.index)

theorem card_voters (peers : List Peer) : (voters peers).card = peers.countP (·.votedForMe) := by
  rw [voters, card_places peers (·.votedForMe = true)]
  simp

/-- The index a leader may commit is the largest one that a majority has. -/
theorem newCommit_isGreatest {peers : List Peer} {v : Nat} (h : Server.newCommit peers = .ok v) :
    IsGreatest {w | peers.length / 2 + 1 ≤ (acknowledging peers w).card} v := by
  obtain ⟨hreached, hlarger⟩ := newCommit_spec h
  constructor
  · show peers.length / 2 + 1 ≤ (acknowledging peers v).card
    rw [card_acknowledging]
    exact hreached
  · intro w hw
    have hw : peers.length / 2 + 1 ≤ (acknowledging peers w).card := hw
    rw [card_acknowledging] at hw
    by_contra hlt
    have := hlarger w (Nat.lt_of_not_le hlt)
    omega

/-- A node has a majority when the voters are one. -/
theorem hasMajority_iff (s : Server α) :
    s.hasMajority ↔ 1 + s.state.knownPeers.length / 2 ≤ (voters s.state.knownPeers).card := by
  rw [card_voters]
  exact Iff.rfl

/-- **Quorum arithmetic**: the index that the handler picks is the largest that more than half of
the peers have reached, the vote threshold is a majority of the peers, and any such set of peers
and any such set of voters have a peer in common. -/
theorem quorum_arithmetic (peers : List Peer) (hne : peers ≠ []) :
    (∃ v, Server.newCommit peers = .ok v ∧
      IsGreatest {w | peers.length / 2 + 1 ≤ (acknowledging peers w).card} v) ∧
    (∀ s : Server α, s.state.knownPeers = peers →
      (s.hasMajority ↔ 1 + peers.length / 2 ≤ (voters peers).card)) ∧
    ∀ Q V : Finset (Fin peers.length), peers.length / 2 + 1 ≤ Q.card →
      1 + peers.length / 2 ≤ V.card → ∃ i ∈ Q, i ∈ V := by
  refine ⟨?_, ?_, ?_⟩
  · obtain ⟨v, hv⟩ := newCommit_ok hne
    exact ⟨v, hv, newCommit_isGreatest hv⟩
  · rintro s rfl
    exact hasMajority_iff s
  · intro Q V hQ hV
    rw [Nat.add_comm] at hV
    exact (isMajority_places hQ).inter (isMajority_places hV)

/-- Five peers, the leader first; two of them have got equally far, and three have voted for it. -/
def fivePeers : List Peer :=
  [⟨"1", ⟨8, 2⟩, ⟨7, 2⟩, 4, true, false⟩, ⟨"2", ⟨4, 1⟩, ⟨3, 1⟩, 2, false, true⟩,
    ⟨"3", ⟨6, 2⟩, ⟨5, 2⟩, 3, true, true⟩, ⟨"4", ⟨6, 2⟩, ⟨5, 2⟩, 3, false, false⟩,
    ⟨"5", ⟨3, 1⟩, ⟨2, 1⟩, 1, true, true⟩]

/-- Three of the five have reached 5, and no three a larger index. -/
theorem quorum_arithmetic_five : Server.newCommit fivePeers = .ok 5 ∧
    IsGreatest {w | 3 ≤ (acknowledging fivePeers w).card} 5 ∧
    (∀ s : Server String, s.state.knownPeers = fivePeers → s.hasMajority) ∧
    ∀ Q : Finset (Fin 5), 3 ≤ Q.card → ∃ i ∈ Q, i ∈ voters fivePeers := by
  obtain ⟨⟨v, hv, hgreatest⟩, hmajority, hinter⟩ :=
    quorum_arithmetic (α := String) fivePeers (List.cons_ne_nil _ _)
  have hfive : Server.newCommit fivePeers = .ok 5 := by decide
  cases hv.symm.trans hfive
  have hvoters : 1 + fivePeers.length / 2 ≤ (voters fivePeers).card := by decide
  exact ⟨hfive, hgreatest, fun s hs => (hmajority s hs).2 hvoters,
    fun Q hQ => hinter Q _ hQ hvoters⟩

end Raft
