import Runos.Lib.LeaderLogs
import Runos.Raft.Proof.Election

/-!
# Log matching

`Led ids H t l`: in some state of `H` the leader of term `t` has the log `l`. In a run whose steps
satisfy `FreshVotes`, the logs of one leader extend each other by entries of its term
(`Run.led_extends`). When the steps also satisfy `MatchingPrevious`, a follower that appends
entries ends up with the whole log the leader had when it sent them (`Run.log_cases`), every log
is sourced from leader logs (`Run.sourced`), and logs that agree in the term of an entry agree up
to it (`log_matching`).
-/

namespace Raft

open Runs LeaderLogs

variable {α : Type}

/-- The term and the log of a node. -/
abbrev Cluster.term (s : Cluster α) (p : String) : Nat := (s.nodes p).storage.currentTerm

@[inherit_doc Cluster.term]
abbrev Cluster.log (s : Cluster α) (p : String) : List (Entry α) := (s.nodes p).storage.entries

abbrev Cluster.role (s : Cluster α) (p : String) : Role := (s.nodes p).state.role

def Entry.term (e : Entry α) : Nat := e.info.term

/-- The leader of term `t` had the log `l`. -/
def Led (ids : List String) (H : List (Cluster α)) (t : Nat) (l : List (Entry α)) : Prop :=
  ∃ x ∈ H, ∃ p ∈ ids, x.role p = .leader ∧ x.term p = t ∧ x.log p = l

theorem Led.mono {ids : List String} {H H' : List (Cluster α)} {t : Nat} {l : List (Entry α)}
    (h : Led ids H t l) (hsub : ∀ x ∈ H, x ∈ H') : Led ids H' t l := by
  obtain ⟨x, hx, hl⟩ := h
  exact ⟨x, hsub x hx, hl⟩

/-- `l'` adds entries of term `t` to `l`. -/
def Extends (t : Nat) (l l' : List (Entry α)) : Prop :=
  ∃ es, l' = l ++ es ∧ ∀ e ∈ es, e.term = t

theorem Extends.refl (t : Nat) (l : List (Entry α)) : Extends t l l :=
  ⟨[], by simp, fun _ h => nomatch h⟩

theorem Extends.snoc {t : Nat} {l l' : List (Entry α)} (h : Extends t l l') {e : Entry α}
    (he : e.term = t) : Extends t l (l' ++ [e]) := by
  obtain ⟨es, rfl, hes⟩ := h
  refine ⟨es ++ [e], by simp, fun x hx => ?_⟩
  rcases List.mem_append.1 hx with hx | hx
  · exact hes x hx
  · rw [List.mem_singleton.1 hx, he]

theorem Extends.isInitial {t : Nat} {l l' : List (Entry α)} (h : Extends t l l') : l <+: l' := by
  obtain ⟨es, rfl, -⟩ := h
  exact List.prefix_append _ _

/-- What lies in `l'` beyond `l` is of term `t`. -/
theorem Extends.term_of_ge {t : Nat} {l l' : List (Entry α)} (h : Extends t l l') {k : Nat}
    {e : Entry α} (hk : l.length ≤ k) (he : l'[k]? = some e) : e.term = t := by
  obtain ⟨es, rfl, hes⟩ := h
  rw [List.getElem?_append_right hk] at he
  exact hes e (List.mem_of_getElem? he)

/-- Sourced logs that have entries of the same term at an index agree up to it. -/
theorem matching_infoAt {Led : Nat → List (Entry α) → Prop} (hc : Chain Led)
    {l₁ l₂ : List (Entry α)} (h₁ : Sourced Entry.term Led l₁) (h₂ : Sourced Entry.term Led l₂)
    {k : Nat} (hk₁ : k ≤ l₁.length) (hk₂ : k ≤ l₂.length)
    (ht : k ≠ 0 → (infoAt l₁ k).term = (infoAt l₂ k).term) : l₁.take k = l₂.take k := by
  cases k with
  | zero => simp
  | succ k =>
    have g₁ : l₁[k]? = some l₁[k] := List.getElem?_eq_getElem (by omega)
    have g₂ : l₂[k]? = some l₂[k] := List.getElem?_eq_getElem (by omega)
    refine matching hc h₁ h₂ g₁ g₂ ?_
    have := ht (Nat.succ_ne_zero k)
    rwa [infoAt_succ_of_some g₁, infoAt_succ_of_some g₂] at this

/-! ## Moves and logs -/

section
variable {id : String} {n n' : Server α} {m : Option (Message α)}

theorem Accepts.term_accepted {r : AppendEntriesRequest α} (h : Accepts n r) :
    (n.storage.accepted r).currentTerm = r.header.term := by
  rw [accepted_currentTerm]
  have := h.term
  split <;> omega

theorem Moves.entries (h : Moves id n m n') :
    n'.storage.entries = n.storage.entries ∨
    (∃ r, m = some (.appendEntriesRequest r) ∧ Accepts n r ∧ r.entries ≠ [] ∧
      n'.storage.currentTerm = r.header.term ∧
      n'.storage.entries = n.storage.entries.take r.previousEntry.index ++ r.entries) ∨
    (n.state.role = .leader ∧ n'.storage.currentTerm = n.storage.currentTerm ∧
      ∃ e : Entry α, e.term = n.storage.currentTerm ∧
        n'.storage.entries = n.storage.entries ++ [e]) := by
  cases h with
  | quiet hst => exact .inl (by rw [hst])
  | stepDown _ _ hst => exact .inl (by rw [hst]; rfl)
  | candidacy _ _ hst => exact .inl (by rw [hst])
  | grant _ _ hst => exact .inl (by rw [hst])
  | vote _ hst => exact .inl (by rw [hst])
  | @accept _ r ha _ hst =>
    have hes := accepted_entries n.storage r
    by_cases hnil : r.entries = []
    · exact .inl (by rw [hst, hes, splice, if_pos hnil])
    · refine .inr (.inl ⟨r, rfl, ha, hnil, by rw [hst, ha.term_accepted], ?_⟩)
      rw [hst, hes, splice, if_neg hnil]
  | ack _ _ _ _ hst => exact .inl (by rw [hst]; split <;> rfl)
  | @append _ r hl _ hst =>
    refine .inr (.inr ⟨hl, by rw [hst]; rfl,
      ⟨⟨n.storage.entries.length + 1, n.storage.currentTerm⟩, r.data⟩, rfl, ?_⟩)
    rw [hst]
    simp only [MemStorage.appended, MemStorage.spliced, splice, List.cons_ne_nil, if_false,
      List.take_length]

/-- A node becomes leader as a candidate, with an unchanged storage. -/
theorem Moves.leader_before (h : Moves id n m n') (hl : n'.state.role = .leader) :
    (n.state.role = .leader ∧ n'.storage.currentTerm = n.storage.currentTerm) ∨
      (n.state.role = .candidate ∧ n'.storage = n.storage) := by
  rcases h.ballots (by rw [hl]; exact Role.noConfusion) with ⟨hr, ht, -⟩ | ⟨-, hc, -⟩ |
    ⟨r, peer, -, hc, hst, -⟩
  · exact .inl ⟨hr ▸ hl, ht⟩
  · rw [hl] at hc; cases hc
  · exact .inr ⟨hc.role, hst⟩

end

/-! ## Terms and logs in a run -/

section
variable {ndebug : Bool} {ids : List String} {good : Cluster α → Event α → Prop}
  {h : List (Cluster α × Event α)} {s s' : Cluster α} {e : Event α} {p : String}

theorem delivered_mem {x : Envelope α} (h : s.delivered e = some x) : x ∈ s.network := by
  cases e with
  | deliver k => exact List.mem_of_getElem? h
  | _ => cases h

/-- The leader an append request in flight is from. -/
structure FromLeader (ids : List String) (r : AppendEntriesRequest α) (p : String)
    (y : Cluster α) : Prop where
  mem : r.header.peerId ∈ ids
  ne : r.header.peerId ≠ p
  role : y.role r.header.peerId = .leader
  term : r.header.term = y.term r.header.peerId
  logState : r.header.logState = (y.nodes r.header.peerId).storage.logState
  entries : r.entries ≠ [] → r.previousEntry.index ≤ (y.log r.header.peerId).length ∧
    r.previousEntry = infoAt (y.log r.header.peerId) r.previousEntry.index ∧
    r.entries = (y.log r.header.peerId).drop r.previousEntry.index

theorem Run.fromLeader (hr : Run ndebug ids good h s) {r : AppendEntriesRequest α}
    (hx : (⟨p, .appendEntriesRequest r⟩ : Envelope α) ∈ s.network) :
    ∃ y ∈ states h s, FromLeader ids r p y := by
  obtain ⟨y, hy, q, hq, -, hid, -, hne, hl, ht, hls, hes⟩ := hr.sent hx
  rw [(hr.node_ok hy hq).id] at hid hne
  subst hid
  exact ⟨y, hy, hq, hne.symm, hl, ht, hls, hes⟩

theorem Run.request_fromLeader (hr : Run ndebug ids good h s) {r : AppendEntriesRequest α}
    (hn : NodeStep s e p (some (.appendEntriesRequest r)) s') :
    ∃ y ∈ states h s, FromLeader ids r p y := by
  exact hr.fromLeader (delivered_mem (hn.delivered (by simp)))

/-- The entries of a log are of terms up to the node's. -/
theorem Run.log_terms (hr : Run ndebug ids good h s) :
    ∀ x ∈ states h s, ∀ p ∈ ids, ∀ e ∈ x.log p, e.term ≤ x.term p := by
  induction hr with
  | nil =>
    intro x hx p _ e he
    obtain rfl : x = _ := by simpa [states] using hx
    cases he
  | @snoc h s s' ev hr _ hs ih =>
    intro x hx p hp e he
    rcases mem_states_cons.1 hx with rfl | hx
    · have old := ih s (mem_states_self h s) p hp
      have hle := Run.term_step hr hs p
      rcases Run.node_cases hr hs p with heq | ⟨m, hn⟩
      · rw [Cluster.log, heq] at he
        rw [Cluster.term, heq]
        exact old e he
      rcases hn.moves.entries with heq | ⟨r, rfl, -, hne, ht, heq⟩ | ⟨-, ht, e', he', heq⟩
      · rw [Cluster.log, heq] at he
        exact (old e he).trans hle
      · rw [Cluster.log, heq] at he
        rcases List.mem_append.1 he with he | he
        · exact (old e (List.mem_of_mem_take he)).trans hle
        · obtain ⟨y, hy, hl⟩ := Run.request_fromLeader hr hn
          rw [(hl.entries hne).2.2] at he
          rw [Cluster.term, ht, hl.term]
          exact ih y hy _ hl.mem e (List.mem_of_mem_drop he)
      · rw [Cluster.log, heq] at he
        rcases List.mem_append.1 he with he | he
        · exact (old e he).trans hle
        · rw [List.mem_singleton.1 he, he']
          exact hle
    · exact ih x hx p hp e he

theorem Run.leader_stays (hr : Run ndebug ids good h s) :
    ∀ x ∈ states h s, ∀ p, x.role p = .leader → x.term p = s.term p → s.role p = .leader := by
  induction hr with
  | nil =>
    intro x hx p hl _
    obtain rfl : x = _ := by simpa [states] using hx
    exact hl
  | @snoc h s s' ev hr _ hs ih =>
    intro x hx p hl ht
    rcases mem_states_cons.1 hx with rfl | hx
    · exact hl
    · have h1 := Run.term_le hr hx p
      have h2 := Run.term_step hr hs p
      have hls := ih x hx p hl (by simp only [Cluster.term] at ht ⊢; omega)
      rcases Run.node_cases hr hs p with heq | ⟨m, hn⟩
      · rw [Cluster.role, heq]; exact hls
      · exact hn.moves.leader_stays hls (by simp only [Cluster.term] at ht; omega)

/-- While a term has no leader, its nodes keep their logs, and a candidate has only entries of
earlier terms. -/
theorem Run.log_unled (hr : Run ndebug ids good h s) :
    ∀ p ∈ ids, (∀ l, ¬ Led ids (states h s) (s.term p) l) →
      (∀ z ∈ states h s, z.term p = s.term p → z.log p = s.log p) ∧
      (s.role p = .candidate → ∀ e ∈ s.log p, e.term < s.term p) := by
  induction hr with
  | nil =>
    intro p _ _
    refine ⟨fun z hz _ => ?_, fun hc => by cases hc⟩
    obtain rfl : z = _ := by simpa [states] using hz
    rfl
  | @snoc h s s' ev hr _ hs ih =>
    intro p hp hun
    have hle := Run.term_step hr hs p
    rcases Run.node_cases hr hs p with heq | ⟨m, hn⟩
    · -- another node moved
      simp only [Cluster.term, Cluster.log, Cluster.role, heq] at hun ⊢
      obtain ⟨h1, h2⟩ := ih p hp fun l hl => hun l (hl.mono fun _ => mem_states_of_mem)
      refine ⟨fun z hz ht => ?_, h2⟩
      rcases mem_states_cons.1 hz with rfl | hz
      · rw [heq]
      · exact h1 z hz ht
    rcases hle.lt_or_eq with hlt | hterm
    · -- a new term
      refine ⟨fun z hz ht => ?_, fun hc e he => ?_⟩
      · rcases mem_states_cons.1 hz with rfl | hz
        · rfl
        · have := Run.term_le hr hz p
          simp only [Cluster.term] at ht
          omega
      · rcases hn.moves.ballots (fun hf => by cases hc.symm.trans hf) with ⟨-, ht, -⟩ |
          ⟨-, -, hst, -⟩ | ⟨_, _, -, -, hst, -⟩
        · omega
        · rw [Cluster.log, hst] at he
          exact (Run.log_terms hr s (mem_states_self h s) p hp e he).trans_lt hlt
        · rw [hst] at hlt; exact absurd hlt (lt_irrefl _)
    · -- the same term: nobody could have changed the log
      have hlog : s'.log p = s.log p := by
        rcases hn.moves.entries with heq | ⟨r, rfl, -, -, ht, -⟩ | ⟨hl, -⟩
        · exact heq
        · obtain ⟨y, hy, hl⟩ := Run.request_fromLeader hr hn
          exact absurd ⟨y, mem_states_of_mem hy, _, hl.mem, hl.role, hl.term.symm.trans ht.symm, rfl⟩
            (hun _)
        · exact absurd ⟨s, mem_states_of_mem (mem_states_self h s), p, hp, hl, hterm, rfl⟩ (hun _)
      have hun' : ∀ l, ¬ Led ids (states h s) (s.term p) l := by
        intro l hl
        refine hun l ?_
        rw [Cluster.term, ← hterm]
        exact hl.mono fun _ => mem_states_of_mem
      obtain ⟨h1, h2⟩ := ih p hp hun'
      refine ⟨fun z hz ht => ?_, fun hc e he => ?_⟩
      · rcases mem_states_cons.1 hz with rfl | hz
        · rfl
        · rw [hlog]
          exact h1 z hz (ht.trans hterm.symm)
      · rw [hlog] at he
        rw [Cluster.term, ← hterm]
        refine h2 ?_ e he
        rcases hn.moves.ballots (fun hf => by cases hc.symm.trans hf) with ⟨hrole, -⟩ |
          ⟨-, -, hst, -⟩ | ⟨_, _, -, hcv, -⟩
        · exact hrole.symm.trans hc
        · rw [hst] at hterm; exact absurd hterm (Nat.succ_ne_self _).symm
        · exact hcv.role

/-! ## Leader logs -/

section
variable (hnd : ids.Nodup) (hf : ∀ s e, good s e → FreshVotes s e)
include hnd hf

/-- A leader's log extends every log the node has had in the term; as a candidate of the term it
had only entries of earlier terms. -/
theorem Run.leader_log (hr : Run ndebug ids good h s) :
    ∀ p ∈ ids, s.role p = .leader → ∀ z ∈ states h s, z.term p = s.term p →
      Extends (s.term p) (z.log p) (s.log p) ∧
      (z.role p = .candidate → ∀ e ∈ z.log p, e.term < s.term p) := by
  induction hr with
  | nil => intro p _ hl; cases hl
  | @snoc h s s' ev hr hok hs ih =>
    intro p hp hl z hz ht
    rcases mem_states_cons.1 hz with rfl | hz
    · exact ⟨.refl _ _, fun hc => by cases hl.symm.trans hc⟩
    have now := Trace.snoc hr hok hs
    rcases Run.node_cases hr hs p with heq | ⟨m, hn⟩
    · simp only [Cluster.term, Cluster.log, Cluster.role, heq] at hl ht ⊢
      exact ih p hp hl z hz ht
    rcases hn.moves.leader_before hl with ⟨hl₀, hterm⟩ | ⟨hc, hst⟩
    · change s'.term p = s.term p at hterm
      obtain ⟨hx, hcand⟩ := ih p hp hl₀ z hz (ht.trans hterm)
      rw [← hterm] at hx hcand
      refine ⟨?_, hcand⟩
      rcases hn.moves.entries with heq | ⟨r, rfl, -, -, hrt, -⟩ | ⟨-, -, e, he, heq⟩
      · rw [Cluster.log, Cluster.log, heq]; exact hx
      · -- a request of its own term would be from another leader of it
        obtain ⟨y, hy, hfl⟩ := Run.request_fromLeader hr hn
        exact absurd (Run.leader_unique hnd hf now (mem_states_of_mem hy) (mem_states_self _ _)
          hfl.mem hp hfl.role hl (hfl.term.symm.trans hrt.symm)) hfl.ne
      · rw [Cluster.log, Cluster.log, heq]
        exact hx.snoc (he.trans hterm.symm)
    · -- just elected: nobody led the term before
      have hun : ∀ l, ¬ Led ids (states h s) (s.term p) l := by
        rintro l ⟨x, hx, q, hq, hlq, htq, -⟩
        have hterm : x.term q = s'.term p := by rw [htq, Cluster.term, Cluster.term, hst]
        obtain rfl := Run.leader_unique hnd hf now (mem_states_of_mem hx) (mem_states_self _ _)
          hq hp hlq hl hterm
        cases (Run.leader_stays hr x hx q hlq htq).symm.trans hc
      obtain ⟨hlogs, hcand⟩ := Run.log_unled hr p hp hun
      simp only [Cluster.term, Cluster.log, hst] at ht hlogs hcand ⊢
      rw [hlogs z hz ht]
      exact ⟨.refl _ _, fun _ => hcand hc⟩

/-- The logs of one leader extend one another. -/
theorem Run.led_extends (hr : Run ndebug ids good h s) {t : Nat} {l l' : List (Entry α)}
    (hl : Led ids (states h s) t l) (hl' : Led ids (states h s) t l') :
    Extends t l l' ∨ Extends t l' l := by
  obtain ⟨x, hx, p, hp, hlp, rfl, rfl⟩ := hl
  obtain ⟨y, hy, q, hq, hlq, ht, rfl⟩ := hl'
  obtain rfl := hr.leader_unique hnd hf hx hy hp hq hlp hlq ht.symm
  induction hr with
  | nil =>
    obtain rfl : x = _ := by simpa [states] using hx
    cases hlp
  | @snoc h s s' ev hr hok hs ih =>
    have now := Trace.snoc hr hok hs
    rcases mem_states_cons.1 hx with hxs | hx₀
    · subst hxs
      exact .inr (Run.leader_log hnd hf now p hp hlp y hy ht).1
    · rcases mem_states_cons.1 hy with hys | hy₀
      · subst hys
        have := (Run.leader_log hnd hf now p hp hlq x hx ht.symm).1
        rw [ht] at this
        exact .inl this
      · exact ih hx₀ hy₀

theorem Run.led_chain (hr : Run ndebug ids good h s) : Chain (Led ids (states h s)) := by
  intro t l l' hl hl'
  exact (hr.led_extends hnd hf hl hl').imp Extends.isInitial Extends.isInitial

/-! ## Sourced logs -/

variable (hm : ∀ s e, good s e → MatchingPrevious s e)
include hm

omit hnd hf in
/-- A request is appended after the entries the leader has. -/
theorem accepted_log {y : Cluster α} {r : AppendEntriesRequest α} (hgood : good s e)
    (hd : s.delivered e = some ⟨p, .appendEntriesRequest r⟩)
    (hrep : (s.nodes p).storage.Rep) (ha : Accepts (s.nodes p) r)
    (hfl : FromLeader ids r p y) (hne : r.entries ≠ []) {L : Nat → List (Entry α) → Prop}
    (hc : Chain L) (hsp : Sourced Entry.term L (s.log p))
    (hsy : Sourced Entry.term L (y.log r.header.peerId)) :
    (s.log p).take r.previousEntry.index ++ r.entries = y.log r.header.peerId := by
  obtain ⟨hle, hprev, hes⟩ := hfl.entries hne
  have hle' : r.previousEntry.index ≤ (s.log p).length := by
    rw [Cluster.log, ← hrep.uncommit_index]; exact ha.uncommit
  have htake : (s.log p).take r.previousEntry.index =
      (y.log r.header.peerId).take r.previousEntry.index := by
    refine matching_infoAt hc hsp hsy hle' hle fun h0 => ?_
    rw [← hprev]
    exact hm s e hgood _ hd ha hne h0
  rw [htake, hes, List.take_append_drop]

theorem Run.sourced (hr : Run ndebug ids good h s) : ∀ x ∈ states h s, ∀ p ∈ ids,
    Sourced Entry.term (Led ids (states h s)) (x.log p) ∧ Ordered Entry.term (x.log p) := by
  induction hr with
  | nil =>
    intro x hx p _
    obtain rfl : x = _ := by simpa [states] using hx
    exact ⟨.nil, .nil⟩
  | @snoc h s s' ev hr hok hs ih =>
    have later : ∀ t l, Led ids (states h s) t l → Led ids (states ((s, ev) :: h) s') t l :=
      fun t l hl => hl.mono fun _ => mem_states_of_mem
    intro x hx p hp
    rcases mem_states_cons.1 hx with rfl | hx
    · obtain ⟨hsrc, hord⟩ := ih s (mem_states_self h s) p hp
      rcases Run.node_cases hr hs p with heq | ⟨m, hn⟩
      · rw [Cluster.log, heq]
        exact ⟨hsrc.mono later, hord⟩
      rcases hn.moves.entries with heq | ⟨r, rfl, ha, hne, ht, heq⟩ | ⟨hl, ht, e, he, heq⟩
      · rw [Cluster.log, heq]
        exact ⟨hsrc.mono later, hord⟩
      · obtain ⟨y, hy, hfl⟩ := Run.request_fromLeader hr hn
        obtain ⟨hsrc', hord'⟩ := ih y hy _ hfl.mem
        have hd := hn.delivered (by simp)
        have hrep := (Run.node_ok hr (mem_states_self h s) hp).rep
        rw [Cluster.log, heq, accepted_log hm hok hd hrep ha hfl hne
          (Run.led_chain hnd hf hr) hsrc hsrc']
        exact ⟨hsrc'.mono later, hord'⟩
      · rw [Cluster.log, heq]
        refine ⟨(hsrc.mono later).snoc ?_, ?_⟩
        · refine ⟨x, mem_states_self _ _, p, hp, hn.moves.leader_stays hl ht, ?_, heq⟩
          rw [he]; exact ht
        · refine List.pairwise_append.2 ⟨hord, List.pairwise_singleton _ _, fun a ha b hb => ?_⟩
          rw [List.mem_singleton.1 hb, he]
          exact Run.log_terms hr s (mem_states_self h s) p hp a ha
    · obtain ⟨hsrc, hord⟩ := ih x hx p hp
      exact ⟨hsrc.mono later, hord⟩

/-- What a step does to the log of the node that takes it: nothing, or the follower takes over the
log of a leader of its new term, or a leader adds an entry. -/
theorem Run.log_cases (hr : Run ndebug ids good h s) (hok : good s e) {m : Option (Message α)}
    (hn : NodeStep s e p m s') :
    s'.log p = s.log p ∨
    (∃ r, ∃ y ∈ states h s, m = some (.appendEntriesRequest r) ∧ Accepts (s.nodes p) r ∧
      FromLeader ids r p y ∧ r.entries ≠ [] ∧ s'.term p = r.header.term ∧
      s'.log p = y.log r.header.peerId ∧
      (s'.log p).length = r.previousEntry.index + r.entries.length) ∨
    (s.role p = .leader ∧ s'.term p = s.term p ∧
      ∃ x : Entry α, x.term = s.term p ∧ s'.log p = s.log p ++ [x]) := by
  have hp : p ∈ ids := by rw [← hr.ids_eq]; exact hn.mem
  rcases hn.moves.entries with heq | ⟨r, rfl, ha, hne, ht, heq⟩ | ⟨hl, ht, x, hx, heq⟩
  · exact .inl heq
  · obtain ⟨y, hy, hfl⟩ := hr.request_fromLeader hn
    have hd := hn.delivered (by simp)
    have hrep := (hr.node_ok (mem_states_self h s) hp).rep
    have hlog := accepted_log hm hok hd hrep ha hfl hne (hr.led_chain hnd hf)
      (hr.sourced hnd hf hm s (mem_states_self h s) p hp).1 (hr.sourced hnd hf hm y hy _ hfl.mem).1
    refine .inr (.inl ⟨r, y, hy, rfl, ha, hfl, hne, ht, heq.trans hlog, ?_⟩)
    have hle := ha.uncommit
    rw [hrep.uncommit_index] at hle
    rw [Cluster.log, heq, List.length_append, List.length_take]
    omega
  · exact .inr (.inr ⟨hl, ht, x, hx, heq⟩)

end

/-- **Log matching**, for a run whose steps satisfy `FreshVotes` and `MatchingPrevious`: logs with
an entry of the same index and term are identical up to it. -/
theorem log_matching (hnd : ids.Nodup)
    (hr : Run ndebug ids (fun s e => FreshVotes s e ∧ MatchingPrevious s e) h s) {q : String}
    (hp : p ∈ ids) (hq : q ∈ ids) {e₁ e₂ : Entry α} (he₁ : e₁ ∈ s.log p) (he₂ : e₂ ∈ s.log q)
    (hi : e₁.info.index = e₂.info.index) (ht : e₁.info.term = e₂.info.term) :
    ∀ k < e₁.info.index, (s.log p)[k]? = (s.log q)[k]? := by
  have hf : ∀ (s : Cluster α) e, FreshVotes s e ∧ MatchingPrevious s e → FreshVotes s e :=
    fun _ _ h => h.1
  have hm : ∀ (s : Cluster α) e, FreshVotes s e ∧ MatchingPrevious s e → MatchingPrevious s e :=
    fun _ _ h => h.2
  have hself := mem_states_self h s
  obtain ⟨k₁, hk₁⟩ := List.mem_iff_getElem?.1 he₁
  obtain ⟨k₂, hk₂⟩ := List.mem_iff_getElem?.1 he₂
  have hi₁ := (hr.node_ok hself hp).rep.index k₁ e₁ hk₁
  have hi₂ := (hr.node_ok hself hq).rep.index k₂ e₂ hk₂
  obtain rfl : k₁ = k₂ := by omega
  have htake := matching (hr.led_chain hnd hf) (hr.sourced hnd hf hm s hself p hp).1
    (hr.sourced hnd hf hm s hself q hq).1 hk₁ hk₂ ht
  intro k hk
  have := congrArg (·[k]?) htake
  simpa only [List.getElem?_take_of_lt (show k < k₁ + 1 by omega)] using this

end

/-- An election and one replicated entry. -/
theorem log_matching_replicated : ∃ h s, Run false ["a", "b", "c"]
    (fun s e => FreshVotes s e ∧ MatchingPrevious s e) h s ∧
    (s.log "a" = [⟨⟨1, 1⟩, "x"⟩] ∧ s.log "b" = [⟨⟨1, 1⟩, "x"⟩]) ∧
    ∀ k < 1, (s.log "a")[k]? = (s.log "b")[k]? := by
  obtain ⟨h, s, hr, ha, hb⟩ := exists_trace (Cluster.step false)
    (fun s e => FreshVotes s e ∧ MatchingPrevious s e)
    (Cluster.init ["a", "b", "c"])
    [.timeout "a", .deliver 0, .deliver 1, .deliver 1, .deliver 2,
      .clientRequest "a" ⟨"client", "1", "x"⟩, .deliver 2]
    (P := fun _ s => s.log "a" = [⟨⟨1, 1⟩, "x"⟩] ∧ s.log "b" = [⟨⟨1, 1⟩, "x"⟩])
    (by decide +kernel)
  have hea : (⟨⟨1, 1⟩, "x"⟩ : Entry String) ∈ s.log "a" := by simp [ha]
  have heb : (⟨⟨1, 1⟩, "x"⟩ : Entry String) ∈ s.log "b" := by simp [hb]
  exact ⟨h, s, hr, ⟨ha, hb⟩, log_matching (by decide) hr (by decide) (by decide) hea heb rfl rfl⟩

/-- `c` appends two entries in term 2, the second of which reaches `a` in a request whose
`previous_entry` is `c`'s first entry; `a` has an entry of term 1 there. -/
theorem log_matching_violated : ∃ h s, Run false ["a", "b", "c"]
    (fun _ e => e.isDuplicate = false) h s ∧
    s.log "a" = [⟨⟨1, 1⟩, "x"⟩, ⟨⟨2, 2⟩, "z"⟩] ∧ s.log "c" = [⟨⟨1, 2⟩, "y"⟩, ⟨⟨2, 2⟩, "z"⟩] := by
  exact exists_trace (Cluster.step false) (fun _ e => e.isDuplicate = false)
    (Cluster.init ["a", "b", "c"])
    [.timeout "a", .deliver 0, .deliver 1, .clientRequest "a" ⟨"client", "1", "x"⟩, .timeout "c",
      .timeout "c", .deliver 6, .deliver 6, .deliver 6, .deliver 7,
      .clientRequest "c" ⟨"client", "1", "y"⟩, .clientRequest "c" ⟨"client", "2", "z"⟩,
      .deliver 7]
    (P := fun _ s => s.log "a" = [⟨⟨1, 1⟩, "x"⟩, ⟨⟨2, 2⟩, "z"⟩] ∧
      s.log "c" = [⟨⟨1, 2⟩, "y"⟩, ⟨⟨2, 2⟩, "z"⟩])
    (by decide +kernel)

end Raft
