import Runos.Lib.Trace
import Runos.Topology.LinkDiscovery

/-!
# The link database

`LinkDiscovery.Indexed`: `m_out_edges` and `m_links` index each other. The operations update both
in parts, and none of them checks the other end of a port: a beacon forgets the edge at `from` only,
`m_links` takes two links that expire together for one, a self-link is erased twice, and with
`NDEBUG` the timer leaves `m_out_edges` alone. `Matching` says when a call does not come to that,
and `link_database` that the index survives exactly those calls.
-/

namespace LinkDiscovery

open Runs

variable {pollInterval : UInt32} {ndebug : Bool} {s s' : LinkDiscovery} {now it : Nat}
  {source target : SwitchAndPort}

/-- The database invariant: every iterator in `m_out_edges` refers to a link with that port, and
every link is found at both its ports. -/
structure Indexed (s : LinkDiscovery) : Prop where
  out : ∀ ap it, s.outEdges ap = some it →
    ∃ l, s.links.find it = some l ∧ (l.source = ap ∨ l.target = ap)
  source : ∀ it l, s.links.find it = some l → s.outEdges l.source = some it
  target : ∀ it l, s.links.find it = some l → s.outEdges l.target = some it

theorem Indexed.found (h : s.Indexed) (it : Nat) (ho : s.outEdges source = some it) :
    ∃ l, s.links.find it = some l := by
  obtain ⟨l, hl, -⟩ := h.out source it ho
  exact ⟨l, hl⟩

/-! ## Beacons -/

/-- The links left once the older edge at `source` is removed. -/
def kept (s : LinkDiscovery) (source : SwitchAndPort) (it : Nat) : Option DiscoveredLink :=
  if s.outEdges source = some it then none else s.links.find it

theorem kept_eq_some {l : DiscoveredLink} : s.kept source it = some l ↔
    s.outEdges source ≠ some it ∧ s.links.find it = some l := by
  unfold kept
  split
  · rename_i h; simp [h]
  · rename_i h; simp [h]

theorem removeOlder_undefined (ho : s.outEdges source = some it) (hf : s.links.find it = none) :
    s.removeOlder source target = .error .undefined := by
  simp [removeOlder, ho, hf]

theorem removeOlder_spec (target : SwitchAndPort)
    (h : ∀ it, s.outEdges source = some it → ∃ l, s.links.find it = some l) :
    ∃ s₁ isNew, s.removeOlder source target = .ok (s₁, isNew) ∧
      (∀ j, s₁.links.find j = s.kept source j) ∧ s₁.links.next = s.links.next ∧
      (∀ ap, ap ≠ source → ap ≠ target → s₁.outEdges ap = s.outEdges ap) ∧
      s₁.signals = s.signals ∧ (isNew = true ↔ s.outEdges source = none) := by
  unfold removeOlder
  split
  · rename_i ho
    exact ⟨s, true, rfl, by simp [kept, ho], rfl, by simp, rfl, by simp [ho]⟩
  · rename_i it ho
    obtain ⟨l, hl⟩ := h it ho
    simp only [hl]
    refine ⟨_, _, rfl, fun j => ?_, rfl, fun ap h1 h2 => ?_, rfl, by simp [ho]⟩
    · rw [OrderedSet.find_erase, kept, ho]
      simp [eq_comm]
    · simp [h1, h2]

/-- The state once the link in the node `it` of `links` is found at the two ports. -/
def linked (s : LinkDiscovery) (links : OrderedSet DiscoveredLink DiscoveredLink.validThrough)
    (it : Nat) (source target : SwitchAndPort) : LinkDiscovery :=
  { s with
    links
    outEdges := Function.update (Function.update s.outEdges source (some it)) target (some it) }

theorem linked_outEdges (links : OrderedSet DiscoveredLink DiscoveredLink.validThrough)
    (ap : SwitchAndPort) : (s.linked links it source target).outEdges ap =
      if ap = source ∨ ap = target then some it else s.outEdges ap := by
  by_cases h2 : ap = target
  · simp [linked, h2]
  by_cases h1 : ap = source
  · subst h1
    simp [linked, h2]
  · simp [linked, h1, h2]

theorem handleBeacon_eq {s₁ : LinkDiscovery} {isNew : Bool}
    {links : OrderedSet DiscoveredLink DiscoveredLink.validThrough}
    (hr : s.removeOlder source target = .ok (s₁, isNew))
    (hi : s₁.links.insert ⟨source, target, now + lifetime pollInterval⟩ = (links, it)) :
    s.handleBeacon pollInterval now source target =
      .ok (if isNew then (s₁.linked links it source target).emit (.up (source, target))
        else s₁.linked links it source target) := by
  simp only [handleBeacon, hr, bind, Except.bind, hi]
  rfl

/-- The link of a beacon is taken in: a new iterator, found at the two ports, in place of the older
edge at `source`. -/
structure TakenIn (validThrough : Nat) (source target : SwitchAndPort) (s s' : LinkDiscovery) :
    Prop where
  next : s'.links.next = s.links.next + 1
  find : ∀ j, s'.links.find j =
    if j = s.links.next then some ⟨source, target, validThrough⟩ else s.kept source j
  out : ∀ ap, s'.outEdges ap =
    if ap = source ∨ ap = target then some s.links.next else s.outEdges ap
  signals : s'.signals =
    if s.outEdges source = none then .up (source, target) :: s.signals else s.signals

/-- A beacon whose link expires when no other link does. -/
theorem handleBeacon_spec (pollInterval : UInt32) (now : Nat) (target : SwitchAndPort)
    (h : ∀ it, s.outEdges source = some it → ∃ l, s.links.find it = some l)
    (hk : ∀ j l, s.kept source j = some l → l.validThrough ≠ now + lifetime pollInterval) :
    ∃ s', s.handleBeacon pollInterval now source target = .ok s' ∧
      TakenIn (now + lifetime pollInterval) source target s s' := by
  obtain ⟨s₁, isNew, hr, hfind, hnext, hout, hsig, hnew⟩ := removeOlder_spec target h
  obtain ⟨hit, hnext', hins⟩ := OrderedSet.find_insert
    (s := s₁.links) (b := ⟨source, target, now + lifetime pollInterval⟩)
    fun j l hl => hk j l (by rw [← hfind]; exact hl)
  generalize hi : s₁.links.insert ⟨source, target, now + lifetime pollInterval⟩ = x
    at hit hnext' hins
  obtain ⟨links, it⟩ := x
  dsimp only at hit hnext' hins
  rw [hnext] at hit hnext' hins
  have hout' : ∀ ap, (s₁.linked links it source target).outEdges ap =
      if ap = source ∨ ap = target then some s.links.next else s.outEdges ap := by
    intro ap
    rw [linked_outEdges, hit]
    split
    · rfl
    · rename_i hap
      exact hout ap (fun h => hap (.inl h)) fun h => hap (.inr h)
  refine ⟨_, handleBeacon_eq hr hi, ?_, fun j => ?_, fun ap => ?_, ?_⟩
  · split <;> exact hnext'
  · rw [← hfind]
    split <;> exact hins j
  · split <;> exact hout' ap
  · split
    · rename_i hn
      rw [if_pos (hnew.1 hn), ← hsig]
      rfl
    · rename_i hn
      rw [if_neg fun ho => hn (hnew.2 ho), ← hsig]
      rfl

/-- A beacon whose link expires together with the link at `it`: that link takes its place. -/
theorem handleBeacon_same (target : SwitchAndPort)
    (h : ∀ it, s.outEdges source = some it → ∃ l, s.links.find it = some l) {l : DiscoveredLink}
    (hl : s.kept source it = some l) (hk : l.validThrough = now + lifetime pollInterval) :
    ∃ s', s.handleBeacon pollInterval now source target = .ok s' ∧
      s'.outEdges source = some it ∧ s'.links.find it = some l := by
  obtain ⟨s₁, isNew, hr, hfind, -, -, -, -⟩ := removeOlder_spec target h
  have hl₁ : s₁.links.find it = some l := by rw [hfind]; exact hl
  have hout : (s₁.linked s₁.links it source target).outEdges source = some it := by
    rw [linked_outEdges, if_pos (.inl rfl)]
  refine ⟨_, handleBeacon_eq hr (OrderedSet.insert_of_mem hl₁ hk), ?_, ?_⟩
  · split <;> exact hout
  · split <;> exact hl₁

/-- What a beacon needs: the link at its first port is between its two ports, and no other link has
its second port or expires when the new one does. -/
structure BeaconMatches (pollInterval : UInt32) (s : LinkDiscovery) (now : Nat)
    (source target : SwitchAndPort) : Prop where
  older : ∀ a ∈ s.links.nodes, s.outEdges source = some a.1 →
    (a.2.source = source ∨ a.2.source = target) ∧ (a.2.target = source ∨ a.2.target = target)
  others : ∀ a ∈ s.links.nodes, s.outEdges source ≠ some a.1 →
    a.2.validThrough ≠ now + lifetime pollInterval ∧ a.2.source ≠ target ∧ a.2.target ≠ target

instance (s : LinkDiscovery) :
    Decidable (BeaconMatches pollInterval s now source target) :=
  decidable_of_iff ((∀ a ∈ s.links.nodes, s.outEdges source = some a.1 →
      (a.2.source = source ∨ a.2.source = target) ∧
      (a.2.target = source ∨ a.2.target = target)) ∧
    ∀ a ∈ s.links.nodes, s.outEdges source ≠ some a.1 →
      a.2.validThrough ≠ now + lifetime pollInterval ∧ a.2.source ≠ target ∧ a.2.target ≠ target)
    ⟨fun ⟨h1, h2⟩ => ⟨h1, h2⟩, fun h => ⟨h.older, h.others⟩⟩

namespace TakenIn

variable {validThrough : Nat} {l : DiscoveredLink} {ap : SwitchAndPort}

/-- A link of the new database is the link of the beacon or one that was kept. -/
theorem find_eq_some (h : TakenIn validThrough source target s s') :
    s'.links.find it = some l ↔
      (it = s.links.next ∧ l = ⟨source, target, validThrough⟩) ∨ s.kept source it = some l := by
  rw [h.find]
  split
  · rename_i hit
    have hnone : s.kept source it ≠ some l := fun hl =>
      (OrderedSet.lt_next (kept_eq_some.1 hl).2).ne hit
    simp [hit, eq_comm, hit ▸ hnone]
  · rename_i hit
    simp [hit]

theorem find_new (h : TakenIn validThrough source target s s') :
    s'.links.find s.links.next = some ⟨source, target, validThrough⟩ :=
  h.find_eq_some.2 (.inl ⟨rfl, rfl⟩)

/-- A port of a kept link that is not a port of the beacon leads where it led. -/
theorem out_kept (h : TakenIn validThrough source target s s')
    (hne : s.outEdges source ≠ some it) (ht : ap ≠ target) (ho : s.outEdges ap = some it) :
    s'.outEdges ap = some it := by
  rw [h.out, if_neg, ho]
  intro hap
  rcases hap with rfl | hap
  · exact hne ho
  · exact ht hap

/-- A port that leads to a kept link is not the second port of the beacon. -/
theorem ne_target (h : TakenIn validThrough source target s s') (hl : s.links.find it = some l)
    (ho : s'.outEdges ap = some it) : ap ≠ target := by
  intro hap
  rw [h.out, if_pos (.inr hap)] at ho
  exact (OrderedSet.lt_next hl).ne (Option.some.inj ho).symm

/-- A port of the older edge that is neither is left with a dangling iterator. -/
theorem older_port (h : TakenIn validThrough source target s s') (hI' : s'.Indexed)
    (ho : s.outEdges source = some it) (hap : s.outEdges ap = some it) :
    ap = source ∨ ap = target := by
  by_contra hport
  have ho' := h.out ap
  rw [if_neg hport, hap] at ho'
  obtain ⟨l, hl, hep⟩ := hI'.out ap it ho'
  rcases h.find_eq_some.1 hl with ⟨-, rfl⟩ | hl
  · exact hport (hep.imp Eq.symm Eq.symm)
  · exact (kept_eq_some.1 hl).1 ho

theorem beaconMatches (h : TakenIn (now + lifetime pollInterval) source target s s')
    (hk : ∀ j l, s.kept source j = some l → l.validThrough ≠ now + lifetime pollInterval)
    (hI : s.Indexed) (hI' : s'.Indexed) : BeaconMatches pollInterval s now source target := by
  refine ⟨fun a ha ho => ?_, fun a ha ho => ?_⟩
  · have hf : s.links.find a.1 = some a.2 := OrderedSet.find_eq_some.2 ha
    exact ⟨h.older_port hI' ho (hI.source _ _ hf), h.older_port hI' ho (hI.target _ _ hf)⟩
  · have hf : s.links.find a.1 = some a.2 := OrderedSet.find_eq_some.2 ha
    have hkept : s.kept source a.1 = some a.2 := kept_eq_some.2 ⟨ho, hf⟩
    have hf' : s'.links.find a.1 = some a.2 := h.find_eq_some.2 (.inr hkept)
    exact ⟨hk _ _ hkept, h.ne_target hf (hI'.source _ _ hf'), h.ne_target hf (hI'.target _ _ hf')⟩

theorem indexed (h : TakenIn (now + lifetime pollInterval) source target s s') (hI : s.Indexed)
    (hm : BeaconMatches pollInterval s now source target) : s'.Indexed := by
  have other : ∀ j l, s.kept source j = some l → s.outEdges source ≠ some j ∧
      s.links.find j = some l ∧ l.source ≠ target ∧ l.target ≠ target := by
    intro j l hl
    obtain ⟨hne, hf⟩ := kept_eq_some.1 hl
    exact ⟨hne, hf, (hm.others (j, l) (OrderedSet.find_eq_some.1 hf) hne).2⟩
  refine ⟨fun ap j hap => ?_, fun j l hl => ?_, fun j l hl => ?_⟩
  · rw [h.out] at hap
    split at hap
    · rename_i hport
      cases hap
      exact ⟨_, h.find_new, hport.imp Eq.symm Eq.symm⟩
    · rename_i hport
      obtain ⟨l, hl, hep⟩ := hI.out ap j hap
      refine ⟨l, h.find_eq_some.2 (.inr (kept_eq_some.2 ⟨fun ho => ?_, hl⟩)), hep⟩
      -- the older edge has no port but those of the beacon
      obtain ⟨h1, h2⟩ := hm.older (j, l) (OrderedSet.find_eq_some.1 hl) ho
      rcases hep with rfl | rfl
      · exact hport h1
      · exact hport h2
  · rcases h.find_eq_some.1 hl with ⟨rfl, rfl⟩ | hl
    · rw [h.out, if_pos (.inl rfl)]
    · obtain ⟨hne, hf, hs, -⟩ := other j l hl
      exact h.out_kept hne hs (hI.source j l hf)
  · rcases h.find_eq_some.1 hl with ⟨rfl, rfl⟩ | hl
    · rw [h.out, if_pos (.inr rfl)]
    · obtain ⟨hne, hf, -, ht⟩ := other j l hl
      exact h.out_kept hne ht (hI.target j l hf)

end TakenIn

/-- A link that expires together with the link of the beacon is taken for it. -/
theorem Indexed.beacon_same (hI : s.Indexed) {l : DiscoveredLink}
    (hl : s.kept source it = some l) (hk : l.validThrough = now + lifetime pollInterval)
    (hs' : s.handleBeacon pollInterval now source target = .ok s') : ¬ s'.Indexed := by
  intro hI'
  obtain ⟨hne, hf⟩ := kept_eq_some.1 hl
  obtain ⟨s'', hs'', ho, hf'⟩ := handleBeacon_same target hI.found hl hk
  cases hs'.symm.trans hs''
  obtain ⟨l', hl', hport⟩ := hI'.out source it ho
  cases hf'.symm.trans hl'
  rcases hport with hport | hport
  · exact hne (hport ▸ hI.source it l hf)
  · exact hne (hport ▸ hI.target it l hf)

/-- **Beacons**: the index survives a beacon exactly when it matches. -/
theorem beacon_indexed (hI : s.Indexed) :
    (∃ s', s.handleBeacon pollInterval now source target = .ok s' ∧ s'.Indexed) ↔
      BeaconMatches pollInterval s now source target := by
  by_cases hk : ∀ j l, s.kept source j = some l → l.validThrough ≠ now + lifetime pollInterval
  swap
  · push Not at hk
    obtain ⟨j, l, hl, hk⟩ := hk
    obtain ⟨hne, hf⟩ := kept_eq_some.1 hl
    constructor
    · intro ⟨s', hs', hI'⟩
      exact absurd hI' (hI.beacon_same hl hk hs')
    · intro hm
      exact absurd hk (hm.others (j, l) (OrderedSet.find_eq_some.1 hf) hne).1
  obtain ⟨s'', hs'', h⟩ := handleBeacon_spec pollInterval now target hI.found hk
  constructor
  · intro ⟨s', hs', hI'⟩
    cases hs'.symm.trans hs''
    exact h.beaconMatches hk hI hI'
  · intro hm
    exact ⟨s'', hs'', h.indexed hI hm⟩

/-! ## Removals -/

/-- The state once the node `it` and the entries of two ports are erased and the link is announced
as broken. -/
def unlinked (s : LinkDiscovery) (it : Nat) (a b : SwitchAndPort) (ports : PortPair) :
    LinkDiscovery :=
  { links := s.links.erase it
    outEdges := Function.update (Function.update s.outEdges a none) b none
    signals := .down ports :: s.signals }

theorem unlinked_outEdges (s : LinkDiscovery) (it : Nat) (ports : PortPair)
    (a b ap : SwitchAndPort) :
    (s.unlinked it a b ports).outEdges ap =
      if ap = a ∨ ap = b then none else s.outEdges ap := by
  by_cases h2 : ap = b
  · simp [unlinked, h2]
  by_cases h1 : ap = a
  · subst h1
    simp [unlinked, h2]
  · simp [unlinked, h1, h2]

section
variable {l : DiscoveredLink}

theorem opposite_eq (hport : l.source = source ∨ l.target = source) :
    (l.source = source ∧ l.opposite source = l.target) ∨
      (l.source ≠ source ∧ l.target = source ∧ l.opposite source = l.source) := by
  unfold DiscoveredLink.opposite
  split
  · rename_i h; exact .inl ⟨h, rfl⟩
  · rename_i h; exact .inr ⟨h, hport.resolve_left h, rfl⟩

section
variable {fault : Fault} {outEdges : SwitchAndPort → Option Nat} {a b : SwitchAndPort}

theorem eraseOne_of_ne_none (h : outEdges a ≠ none) :
    eraseOne fault outEdges a = .ok (Function.update outEdges a none) := if_neg h

/-- The second of two `erase` calls fails for a self-link and for a port with no entry. -/
theorem eraseOne_update : eraseOne fault (Function.update outEdges a none) b =
    if b = a ∨ outEdges b = none then .error fault
    else .ok (Function.update (Function.update outEdges a none) b none) := by
  unfold eraseOne
  by_cases hab : b = a
  · simp [hab]
  · simp [hab]

end

/-- A call of `clearLinkAt` for a port with a link. -/
theorem clearLinkAt_eq (ndebug : Bool) (ho : s.outEdges source = some it)
    (hl : s.links.find it = some l) (hport : l.source = source ∨ l.target = source) :
    s.clearLinkAt ndebug source =
      if l.opposite source = source ∨ s.outEdges (l.opposite source) = none then .error .check
      else .ok (s.unlinked it source (l.opposite source)
        (if source < l.opposite source then (source, l.opposite source)
          else (l.opposite source, source))) := by
  have hguard : ¬ (l.source ≠ source ∧ ndebug = false ∧ l.target ≠ source) :=
    fun h => hport.elim h.1 h.2.2
  have hsome : s.outEdges source ≠ none := by simp [ho]
  unfold clearLinkAt
  simp only [ho, hl, if_neg hguard, eraseOne_of_ne_none hsome, eraseOne_update, bind, Except.bind]
  by_cases hfail : l.opposite source = source ∨ s.outEdges (l.opposite source) = none
  · simp only [if_pos hfail]
  · simp only [if_neg hfail]
    rfl

/-- One pass of the timer's loop. -/
theorem expireTop_eq (ndebug : Bool) (hs : s.outEdges l.source ≠ none) :
    s.expireTop ndebug it l =
      if ndebug = true then
        .ok { s with links := s.links.erase it, signals := .down l.ports :: s.signals }
      else if l.target = l.source ∨ s.outEdges l.target = none then .error .assertion
      else .ok (s.unlinked it l.source l.target l.ports) := by
  unfold expireTop
  cases ndebug with
  | true => rfl
  | false =>
    simp only [Bool.false_eq_true, if_false, eraseOne_of_ne_none hs, eraseOne_update, bind,
      Except.bind]
    by_cases hfail : l.target = l.source ∨ s.outEdges l.target = none
    · simp only [if_pos hfail]
    · simp only [if_neg hfail]
      rfl

/-- Erasing a link with its entries keeps the index. -/
theorem Indexed.unlinked (hI : s.Indexed) (hl : s.links.find it = some l) {a b : SwitchAndPort}
    (hab : ∀ ap, ap = a ∨ ap = b ↔ ap = l.source ∨ ap = l.target) (ports : PortPair) :
    (s.unlinked it a b ports).Indexed := by
  have hout : ∀ ap, (s.unlinked it a b ports).outEdges ap =
      if ap = l.source ∨ ap = l.target then none else s.outEdges ap := by
    intro ap
    rw [unlinked_outEdges]
    simp only [hab]
  have stays : ∀ {j : Nat} {ap : SwitchAndPort}, j ≠ it → s.outEdges ap = some j →
      (s.unlinked it a b ports).outEdges ap = some j := by
    intro j ap hj ho
    rw [hout, if_neg, ho]
    rintro (rfl | rfl)
    · exact hj (Option.some.inj (ho.symm.trans (hI.source it l hl)))
    · exact hj (Option.some.inj (ho.symm.trans (hI.target it l hl)))
  refine ⟨fun ap j hap => ?_, fun j l' hl' => ?_, fun j l' hl' => ?_⟩
  · rw [hout] at hap
    split at hap
    · cases hap
    · rename_i hne
      obtain ⟨l', hl', hport⟩ := hI.out ap j hap
      refine ⟨l', OrderedSet.find_erase_eq_some.2 ⟨fun hj => ?_, hl'⟩, hport⟩
      subst hj
      cases hl.symm.trans hl'
      exact hne (hport.imp Eq.symm Eq.symm)
  · obtain ⟨hj, hl'⟩ := OrderedSet.find_erase_eq_some.1 hl'
    exact stays hj (hI.source j l' hl')
  · obtain ⟨hj, hl'⟩ := OrderedSet.find_erase_eq_some.1 hl'
    exact stays hj (hI.target j l' hl')

end

/-- **Removals at a port**: the index survives unless the link there is a self-link. -/
theorem clear_indexed (hI : s.Indexed) :
    (∃ s', s.clearLinkAt ndebug source = .ok s' ∧ s'.Indexed) ↔
      ∀ a ∈ s.links.nodes, s.outEdges source = some a.1 → a.2.source ≠ a.2.target := by
  cases ho : s.outEdges source with
  | none => exact ⟨fun _ _ _ h => (nomatch h), fun _ => ⟨s, by simp [clearLinkAt, ho], hI⟩⟩
  | some it =>
    obtain ⟨l, hl, hport⟩ := hI.out source it ho
    have hnode := OrderedSet.find_eq_some.1 hl
    have hopp := opposite_eq hport
    rw [clearLinkAt_eq ndebug ho hl hport]
    have hother : s.outEdges (l.opposite source) ≠ none := by
      rcases hopp with ⟨-, h⟩ | ⟨-, -, h⟩
      · simp [h, hI.target it l hl]
      · simp [h, hI.source it l hl]
    by_cases hself : l.source = l.target
    · have hsame : l.opposite source = source := by
        rcases hopp with ⟨h1, h⟩ | ⟨-, h2, h⟩
        · rw [h, ← hself, h1]
        · rw [h, hself, h2]
      rw [if_pos (.inl hsame)]
      exact ⟨fun ⟨_, h, _⟩ => (nomatch h), fun h => absurd hself (h (it, l) hnode rfl)⟩
    · have hdiff : l.opposite source ≠ source := by
        rcases hopp with ⟨h1, h⟩ | ⟨h1, -, h⟩
        · rw [h, ← h1]
          exact fun h => hself h.symm
        · rw [h]
          exact h1
      rw [if_neg (not_or.2 ⟨hdiff, hother⟩)]
      refine ⟨fun _ a ha heq => ?_, fun _ => ⟨_, rfl, hI.unlinked hl (fun ap => ?_) _⟩⟩
      · have hf := OrderedSet.find_eq_some.2 ha
        rw [← Option.some.inj heq, hl] at hf
        cases hf
        exact hself
      · rcases hopp with ⟨h1, h⟩ | ⟨-, h2, h⟩
        · rw [h, h1]
        · rw [h, h2]
          exact or_comm

/-! ## Expiry -/

/-- With `NDEBUG` the timer leaves `m_out_edges` alone. -/
theorem expire_ndebug : ∀ (passes : Nat) (s s' : LinkDiscovery),
    expire true now passes s = .ok s' → s'.outEdges = s.outEdges ∧
      ∀ j l, s'.links.find j = some l → s.links.find j = some l
  | 0, s, s', h => by cases h; exact ⟨rfl, fun _ _ h => h⟩
  | passes + 1, s, s', h => by
    unfold expire at h
    split at h
    · cases h; exact ⟨rfl, fun _ _ h => h⟩
    · split at h
      · obtain ⟨hout, hsub⟩ := expire_ndebug passes _ s' h
        exact ⟨hout, fun j l hl => (OrderedSet.find_erase_eq_some.1 (hsub j l hl)).2⟩
      · cases h; exact ⟨rfl, fun _ _ h => h⟩

/-- **Expiry**: the index survives unless a link expires that is a self-link, or that expires
under `NDEBUG`. -/
theorem expire_indexed : ∀ (ndebug : Bool) (passes : Nat) (s : LinkDiscovery), s.Indexed →
    s.links.size ≤ passes →
    ((∃ s', expire ndebug now passes s = .ok s' ∧ s'.Indexed) ↔
      ∀ j l, s.links.find j = some l → l.validThrough < now →
        ndebug = false ∧ l.source ≠ l.target)
  | _, 0, s, hI, hsize => by
    refine ⟨fun _ j l hl => ?_, fun _ => ⟨s, rfl, hI⟩⟩
    have := OrderedSet.size_erase hl
    omega
  | ndebug, passes + 1, s, hI, hsize => by
    unfold expire
    split
    · rename_i hnone
      refine ⟨fun _ j l hl => ?_, fun _ => ⟨s, rfl, hI⟩⟩
      rw [OrderedSet.begin?_eq_none hnone] at hl
      cases hl
    rename_i it top htop
    have hl := OrderedSet.find_begin? htop
    have hsrc := hI.source it top hl
    have htgt := hI.target it top hl
    split
    swap
    · rename_i hlive
      refine ⟨fun _ j l hl hlt => ?_, fun _ => ⟨s, rfl, hI⟩⟩
      have := OrderedSet.begin?_le htop hl
      exact absurd (this.trans_lt hlt) hlive
    rename_i hexp
    rw [expireTop_eq ndebug (by simp [hsrc])]
    cases ndebug with
    | true =>
      refine ⟨fun ⟨s', hs', hI'⟩ => ?_, fun h => nomatch (h it top hl hexp).1⟩
      -- the entry of `top.source` is left with a dangling iterator
      obtain ⟨hout, hsub⟩ := expire_ndebug passes _ s' hs'
      obtain ⟨l, hl', -⟩ := hI'.out top.source it (by rw [hout]; exact hsrc)
      exact absurd rfl (OrderedSet.find_erase_eq_some.1 (hsub it l hl')).1
    | false =>
      rw [if_neg Bool.false_ne_true]
      by_cases hself : top.target = top.source
      · rw [if_pos (.inl hself)]
        exact ⟨fun ⟨_, h, _⟩ => (nomatch h), fun h => absurd hself.symm (h it top hl hexp).2⟩
      rw [if_neg (not_or.2 ⟨hself, by simp [htgt]⟩)]
      have hI₁ := hI.unlinked hl (fun _ => Iff.rfl) top.ports
      have hsize₁ : (s.unlinked it top.source top.target top.ports).links.size ≤ passes := by
        have : (s.links.erase it).size < s.links.size := OrderedSet.size_erase hl
        show (s.links.erase it).size ≤ passes
        omega
      refine Iff.trans (expire_indexed false passes _ hI₁ hsize₁) ?_
      rw [OrderedSet.forall_find_erase (s := s.links) hl]
      exact (and_iff_right fun _ => ⟨rfl, fun h => hself h.symm⟩).symm

/-! ## Runs -/

/-- The calls the packet handler and the timer make: beacons with `from <= to`, at clock values
that do not decrease. -/
def Ordered (s : System) : Event → Prop
  | .beacon now source target => ¬ target < source ∧ ∀ t ∈ s.lastBeacon, t ≤ now
  | _ => True

/-- A call the index survives (module doc). -/
def Matching (pollInterval : UInt32) (ndebug : Bool) (s : LinkDiscovery) : Event → Prop
  | .beacon now source target => BeaconMatches pollInterval s now source target
  | .clear source => ∀ a ∈ s.links.nodes, s.outEdges source = some a.1 → a.2.source ≠ a.2.target
  | .timer now => ∀ a ∈ s.links.nodes, a.2.validThrough < now →
      ndebug = false ∧ a.2.source ≠ a.2.target

instance (s : System) : DecidablePred (Ordered s)
  | .beacon _ _ _ => inferInstanceAs (Decidable (_ ∧ ∀ _ ∈ _, _))
  | .clear _ | .timer _ => .isTrue trivial

instance (s : LinkDiscovery) : DecidablePred (Matching pollInterval ndebug s)
  | .beacon now source target =>
    inferInstanceAs (Decidable (BeaconMatches pollInterval s now source target))
  | .clear _ => inferInstanceAs (Decidable (∀ _ ∈ _, _ → _))
  | .timer _ => inferInstanceAs (Decidable (∀ _ ∈ _, _ → _))

theorem step_indexed {s : System} (hI : s.app.Indexed) (e : Event) :
    (∃ s', s.step pollInterval ndebug e = .ok s' ∧ s'.app.Indexed) ↔
      Matching pollInterval ndebug s.app e := by
  have lift : ∀ {x : Except Fault LinkDiscovery} {f : LinkDiscovery → System},
      (∀ app, (f app).app = app) →
      ((∃ s', (x >>= fun app => Except.ok (f app)) = .ok s' ∧ s'.app.Indexed) ↔
        ∃ app, x = .ok app ∧ app.Indexed) := by
    rintro (fault | app) f hf
    · exact ⟨fun ⟨_, h, _⟩ => (nomatch h), fun ⟨_, h, _⟩ => (nomatch h)⟩
    · constructor
      · rintro ⟨s', ⟨⟩, h⟩
        exact ⟨app, rfl, by rwa [hf] at h⟩
      · rintro ⟨_, ⟨⟩, h⟩
        exact ⟨_, rfl, by rwa [hf]⟩
  cases e with
  | beacon now source target =>
    exact (lift (f := fun app => ⟨app, some now⟩) fun _ => rfl).trans (beacon_indexed hI)
  | clear source =>
    exact (lift (f := fun app => { s with app }) fun _ => rfl).trans (clear_indexed hI)
  | timer now =>
    refine (lift (f := fun app => { s with app }) fun _ => rfl).trans
      ((expire_indexed _ _ s.app hI (le_refl _)).trans ?_)
    constructor
    · exact fun h a ha => h a.1 a.2 (OrderedSet.find_eq_some.2 ha)
    · exact fun h j l hl => h (j, l) (OrderedSet.find_eq_some.1 hl)

/-- A run of calls that satisfy `ok`. -/
abbrev Calls (pollInterval : UInt32) (ndebug : Bool) (ok : System → Event → Prop)
    (h : List (System × Event)) (s : System) : Prop :=
  Trace (System.step pollInterval ndebug) ok .init h s

/-- **The link database** stays indexed in every run whose calls match, and the next call keeps it
so, without a failed check or a dangling iterator, exactly when it matches too. -/
theorem link_database {h : List (System × Event)} {s : System}
    (hr : Calls pollInterval ndebug
      (fun s e => Ordered s e ∧ Matching pollInterval ndebug s.app e) h s) :
    s.app.Indexed ∧ ∀ e, Ordered s e →
      ((∃ s', s.step pollInterval ndebug e = .ok s' ∧ s'.app.Indexed) ↔
        Matching pollInterval ndebug s.app e) := by
  have hI : s.app.Indexed := by
    refine hr.invariant_state (I := fun s => s.app.Indexed) ?_ fun s e s' hI hok hs => ?_
    · exact ⟨fun _ _ h => (nomatch h), fun _ _ h => (nomatch h), fun _ _ h => (nomatch h)⟩
    · obtain ⟨s'', hs'', hI'⟩ := (step_indexed hI e).2 hok.2
      cases hs.symm.trans hs''
      exact hI'
  exact ⟨hI, fun e _ => step_indexed hI e⟩

/-- Two links: one is cleared and found again, then it expires while the other is refreshed. -/
theorem link_database_refreshed : ∃ h s,
    Calls 120 false (fun s e => Ordered s e ∧ Matching 120 false s.app e) h s ∧
    s.app.links.nodes.map (fun a => a.2.ports) = [(⟨1, 1⟩, ⟨2, 1⟩)] ∧ s.app.Indexed := by
  obtain ⟨h, s, hr, hl⟩ := exists_trace (System.step 120 false)
    (fun s e => Ordered s e ∧ Matching 120 false s.app e) .init
    [.beacon 0 ⟨1, 1⟩ ⟨2, 1⟩, .beacon 1 ⟨1, 2⟩ ⟨3, 1⟩, .clear ⟨3, 1⟩, .beacon 2 ⟨1, 2⟩ ⟨3, 1⟩,
      .beacon 3 ⟨1, 1⟩ ⟨2, 1⟩, .timer (3 + lifetime 120)]
    (P := fun _ s => s.app.links.nodes.map (fun a => a.2.ports) = [(⟨1, 1⟩, ⟨2, 1⟩)])
    (by decide +kernel)
  exact ⟨h, s, hr, hl, (link_database hr).1⟩

/-- Port 1 of switch 1 is moved from switch 2 to switch 3: the entry of the port of switch 2 is
left with an iterator to the erased link, which `clearLinkAt` then uses. -/
theorem link_database_recabled : ∃ h s, Calls 120 false Ordered h s ∧
    s.app.outEdges ⟨2, 1⟩ = some 0 ∧ s.app.links.find 0 = none ∧ ¬ s.app.Indexed ∧
    s.app.clearLinkAt false ⟨2, 1⟩ = .error .undefined := by
  obtain ⟨h, s, hr, ho, hf⟩ := exists_trace (System.step 120 false) Ordered .init
    [.beacon 0 ⟨1, 1⟩ ⟨2, 1⟩, .beacon 1 ⟨1, 1⟩ ⟨3, 1⟩]
    (P := fun _ s => s.app.outEdges ⟨2, 1⟩ = some 0 ∧ s.app.links.find 0 = none)
    (by decide +kernel)
  refine ⟨h, s, hr, ho, hf, fun hI => ?_, by simp [clearLinkAt, ho, hf]⟩
  obtain ⟨l, hl, -⟩ := hI.out _ _ ho
  rw [hf] at hl
  cases hl

end LinkDiscovery
