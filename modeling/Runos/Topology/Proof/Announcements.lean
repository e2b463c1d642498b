import Runos.Topology.Proof.Database

/-!
# The signals of link discovery

`Announces`: the signals describe `m_links`. `handleBeacon` takes a link for new when it finds
nothing at its first port, so a port that is moved to another switch changes the database without
a signal. `Recognized` says when a call does not fall for this and does not use an iterator to an
erased link; `link_signals` shows that the signals describe the database after exactly those calls.
-/

namespace LinkDiscovery

open Runs Signal

variable {pollInterval : UInt32} {ndebug : Bool} {s s' : LinkDiscovery} {now it : Nat}
  {source target : SwitchAndPort} {l : DiscoveredLink}

/-- The signals emitted so far alternate for every link, name its lower port first, and announce
the links of the database. -/
structure Announces (s : LinkDiscovery) : Prop where
  alternating : Alternating s.signals
  ordered : ∀ ports, .up ports ∈ s.signals ∨ .down ports ∈ s.signals → ports.1 < ports.2
  live : ∀ ports, Live s.signals ports ↔ ∃ it l, s.links.find it = some l ∧ l.ports = ports

/-- What the calls keep: `Announces`, and what `m_out_edges` and `m_links` still say of each other
when links that share a port have been taken in. -/
structure Described (s : LinkDiscovery) : Prop extends Announces s where
  source_lt : ∀ it l, s.links.find it = some l → l.source < l.target
  out_lt : ∀ ap it, s.outEdges ap = some it → it < s.links.next
  port : ∀ ap it l, s.outEdges ap = some it → s.links.find it = some l →
    l.source = ap ∨ l.target = ap
  unique : ∀ i j l l', s.links.find i = some l → s.links.find j = some l' →
    l.ports = l'.ports → i = j

theorem Described.init : init.Described where
  alternating := trivial
  ordered := by simp [LinkDiscovery.init]
  live := by simp [LinkDiscovery.init]
  source_lt := by simp [LinkDiscovery.init]
  out_lt := by simp [LinkDiscovery.init]
  port := by simp [LinkDiscovery.init]
  unique := by simp [LinkDiscovery.init]

/-! ## Removals -/

/-- Every link of `s'` is one of `s`. -/
def Within (s' s : LinkDiscovery) : Prop :=
  ∀ j l, s'.links.find j = some l → s.links.find j = some l

theorem within_erase {outEdges : SwitchAndPort → Option Nat} {signals : List (Signal PortPair)} :
    Within ⟨s.links.erase it, outEdges, signals⟩ s := by
  intro j l hl
  exact (OrderedSet.find_erase_eq_some.1 hl).2

/-- A link that is erased and announced as broken. -/
theorem Described.removed (h : s.Described) (hl : s.links.find it = some l)
    (hlinks : s'.links = s.links.erase it)
    (hout : ∀ ap j, s'.outEdges ap = some j → s.outEdges ap = some j)
    (hsig : s'.signals = .down l.ports :: s.signals) : s'.Described := by
  have find_iff : ∀ {j l'}, s'.links.find j = some l' ↔ j ≠ it ∧ s.links.find j = some l' := by
    rw [hlinks]
    exact OrderedSet.find_erase_eq_some
  have hlive : Live s.signals l.ports := (h.live _).2 ⟨it, l, hl, rfl⟩
  refine ⟨⟨?_, fun ports hp => ?_, fun ports => ?_⟩, fun j l' hl' => ?_, fun ap j hap => ?_,
    fun ap j l' hap hl' => ?_, fun i j l₁ l₂ h1 h2 hp => ?_⟩
  · rw [hsig]
    exact ⟨hlive, h.alternating⟩
  · rw [hsig] at hp
    simp only [List.mem_cons, reduceCtorEq, false_or, Signal.down.injEq] at hp
    rcases hp with hp | rfl | hp
    · exact h.ordered ports (.inl hp)
    · exact h.source_lt it l hl
    · exact h.ordered ports (.inr hp)
  · rw [hsig, live_down, h.live]
    constructor
    · rintro ⟨hne, j, l', hl', rfl⟩
      refine ⟨j, l', find_iff.2 ⟨fun hj => ?_, hl'⟩, rfl⟩
      subst hj
      cases hl.symm.trans hl'
      exact hne rfl
    · rintro ⟨j, l', hl', rfl⟩
      obtain ⟨hj, hl'⟩ := find_iff.1 hl'
      exact ⟨fun hp => hj (h.unique _ _ _ _ hl' hl hp), j, l', hl', rfl⟩
  · exact h.source_lt j l' (find_iff.1 hl').2
  · rw [hlinks]
    exact h.out_lt ap j (hout ap j hap)
  · exact h.port ap j l' (hout ap j hap) (find_iff.1 hl').2
  · exact h.unique i j l₁ l₂ (find_iff.1 h1).2 (find_iff.1 h2).2 hp

/-- The pair `clearLinkAt` announces. -/
theorem opposite_ports (hlt : l.source < l.target)
    (hport : l.source = source ∨ l.target = source) :
    (if source < l.opposite source then (source, l.opposite source)
      else (l.opposite source, source)) = l.ports := by
  rcases opposite_eq hport with ⟨h1, h⟩ | ⟨-, h2, h⟩
  · rw [h, ← h1, if_pos hlt]
    rfl
  · rw [h, ← h2, if_neg (SwitchAndPort.lt_asymm hlt)]
    rfl

/-- `clearLinkAt` returns with the link at the port gone, or a check fails. -/
theorem Described.clear (h : s.Described) (ndebug : Bool) (ho : s.outEdges source = some it)
    (hl : s.links.find it = some l) : s.clearLinkAt ndebug source = .error .check ∨
      ∃ s', s.clearLinkAt ndebug source = .ok s' ∧ s'.Described ∧ Within s' s := by
  have hport := h.port source it l ho hl
  rw [clearLinkAt_eq ndebug ho hl hport, opposite_ports (h.source_lt it l hl) hport]
  split
  · exact .inl rfl
  · refine .inr ⟨_, rfl, h.removed hl rfl (fun ap j hap => ?_) rfl, within_erase⟩
    rw [unlinked_outEdges] at hap
    split at hap
    · cases hap
    · exact hap

/-- One pass of the timer's loop, whatever `m_out_edges` holds at the ports of the link. -/
theorem expireTop_cases (ndebug : Bool) (s : LinkDiscovery) (it : Nat) (l : DiscoveredLink) :
    s.expireTop ndebug it l = .error .assertion ∨ ∃ outEdges,
      s.expireTop ndebug it l =
        .ok ⟨s.links.erase it, outEdges, .down l.ports :: s.signals⟩ ∧
      ∀ ap j, outEdges ap = some j → s.outEdges ap = some j := by
  by_cases hs : s.outEdges l.source = none
  · cases ndebug with
    | true => exact .inr ⟨s.outEdges, rfl, fun _ _ h => h⟩
    | false => exact .inl (by simp [expireTop, eraseOne, hs, bind, Except.bind])
  rw [expireTop_eq ndebug hs]
  split
  · exact .inr ⟨s.outEdges, rfl, fun _ _ h => h⟩
  split
  · exact .inl rfl
  · refine .inr ⟨_, rfl, fun ap j hap => ?_⟩
    have := unlinked_outEdges s it l.ports l.source l.target ap
    rw [show (s.unlinked it l.source l.target l.ports).outEdges ap = some j from hap] at this
    split at this
    · cases this
    · exact this.symm

theorem Described.expire (ndebug : Bool) (now : Nat) :
    ∀ (passes : Nat) {s : LinkDiscovery}, s.Described →
    expire ndebug now passes s = .error .assertion ∨
      ∃ s', expire ndebug now passes s = .ok s' ∧ s'.Described ∧ Within s' s
  | 0, s, h => .inr ⟨s, rfl, h, fun _ _ hl => hl⟩
  | passes + 1, s, h => by
    unfold LinkDiscovery.expire
    split
    · exact .inr ⟨s, rfl, h, fun _ _ hl => hl⟩
    rename_i it top htop
    split
    · rcases expireTop_cases ndebug s it top with hx | ⟨outEdges, hx, hout⟩
      · exact .inl (by rw [hx]; rfl)
      · rw [hx]
        have h₁ : Described ⟨s.links.erase it, outEdges, .down top.ports :: s.signals⟩ :=
          h.removed (OrderedSet.find_begin? htop) rfl hout rfl
        rcases Described.expire ndebug now passes h₁ with hf | ⟨s', hs', h', hsub⟩
        · exact .inl hf
        · exact .inr ⟨s', hs', h', fun j l hl => within_erase j l (hsub j l hl)⟩
    · exact .inr ⟨s, rfl, h, fun _ _ hl => hl⟩

/-! ## Beacons -/

/-- What a beacon needs: an entry at its first port leads to the link itself; without an entry
there, the link is not in the database. -/
structure BeaconRecognized (s : LinkDiscovery) (source target : SwitchAndPort) : Prop where
  known : ∀ it ∈ s.outEdges source, ∃ l ∈ s.links.find it, l.ports = (source, target)
  new : s.outEdges source = none → ∀ a ∈ s.links.nodes, a.2.ports ≠ (source, target)

instance (s : LinkDiscovery) (source target : SwitchAndPort) :
    Decidable (BeaconRecognized s source target) :=
  decidable_of_iff ((∀ it ∈ s.outEdges source, ∃ l ∈ s.links.find it,
      l.ports = (source, target)) ∧
    (s.outEdges source = none → ∀ a ∈ s.links.nodes, a.2.ports ≠ (source, target)))
    ⟨fun ⟨h1, h2⟩ => ⟨h1, h2⟩, fun h => ⟨h.known, h.new⟩⟩

section
variable {validThrough : Nat}

theorem BeaconRecognized.found (hb : BeaconRecognized s source target) (it : Nat)
    (ho : s.outEdges source = some it) : ∃ l, s.links.find it = some l := by
  obtain ⟨l, hl, -⟩ := hb.known it ho
  exact ⟨l, hl⟩

/-- The older edge at the first port is the link itself, and the only one. -/
theorem Described.kept_iff (h : s.Described) (hb : BeaconRecognized s source target) :
    s.kept source it = some l ↔ s.links.find it = some l ∧ l.ports ≠ (source, target) := by
  rw [kept_eq_some, and_comm]
  refine and_congr_right fun hl => not_congr ⟨fun ho => ?_, fun hp => ?_⟩
  · obtain ⟨l', hl', hp'⟩ := hb.known it ho
    cases hl.symm.trans hl'
    exact hp'
  · cases ho : s.outEdges source with
    | none => exact absurd hp (hb.new ho (it, l) (OrderedSet.find_eq_some.1 hl))
    | some j =>
      obtain ⟨l', hl', hp'⟩ := hb.known j ho
      rw [h.unique _ _ _ _ hl hl' (hp.trans hp'.symm)]

namespace TakenIn

/-- A link of the new database is the link of the beacon or another of the old ones. -/
theorem find_iff (ht : TakenIn validThrough source target s s') (h : s.Described)
    (hb : BeaconRecognized s source target) : s'.links.find it = some l ↔
      (it = s.links.next ∧ l = ⟨source, target, validThrough⟩) ∨
        s.links.find it = some l ∧ l.ports ≠ (source, target) := by
  rw [ht.find_eq_some, h.kept_iff hb]

/-- The link of the beacon is up, whether or not it was announced before. -/
theorem live_iff (ht : TakenIn validThrough source target s s') (h : s.Described)
    (hb : BeaconRecognized s source target) (ports : PortPair) :
    Live s'.signals ports ↔ ports = (source, target) ∨ Live s.signals ports := by
  rw [ht.signals]
  split
  · exact live_up
  · rename_i ho
    obtain ⟨it, ho⟩ := Option.ne_none_iff_exists'.1 ho
    obtain ⟨l, hl, hp⟩ := hb.known it ho
    refine ⟨.inr, fun hports => ?_⟩
    rcases hports with rfl | hlive
    · exact (h.live _).2 ⟨it, l, hl, hp⟩
    · exact hlive

theorem announces (ht : TakenIn validThrough source target s s') (h : s.Described)
    (hlt : source < target) (hb : BeaconRecognized s source target) : s'.Announces := by
  refine ⟨?_, fun ports hp => ?_, fun ports => ?_⟩
  · rw [ht.signals]
    split
    · rename_i ho
      refine ⟨fun hlive => ?_, h.alternating⟩
      obtain ⟨j, l, hl, hp⟩ := (h.live _).1 hlive
      exact hb.new ho (j, l) (OrderedSet.find_eq_some.1 hl) hp
    · exact h.alternating
  · rw [ht.signals] at hp
    split at hp
    · simp only [List.mem_cons, reduceCtorEq, false_or, Signal.up.injEq] at hp
      rcases hp with (rfl | hp) | hp
      · exact hlt
      · exact h.ordered ports (.inl hp)
      · exact h.ordered ports (.inr hp)
    · exact h.ordered ports hp
  · rw [ht.live_iff h hb, h.live]
    constructor
    · intro hports
      rcases hports with rfl | ⟨j, l, hl, rfl⟩
      · exact ⟨_, _, ht.find_new, rfl⟩
      · by_cases hp : l.ports = (source, target)
        · exact ⟨_, _, ht.find_new, hp.symm⟩
        · exact ⟨j, l, (ht.find_iff h hb).2 (.inr ⟨hl, hp⟩), rfl⟩
    · intro ⟨j, l, hl, hports⟩
      subst hports
      rcases (ht.find_iff h hb).1 hl with ⟨-, rfl⟩ | ⟨hl, -⟩
      · exact .inl rfl
      · exact .inr ⟨j, l, hl, rfl⟩

theorem described (ht : TakenIn validThrough source target s s') (h : s.Described)
    (hlt : source < target) (hb : BeaconRecognized s source target) : s'.Described := by
  refine ⟨ht.announces h hlt hb, fun j l hl => ?_, fun ap j hap => ?_, fun ap j l hap hl => ?_,
    fun i j l l' hl hl' hp => ?_⟩
  · rcases (ht.find_iff h hb).1 hl with ⟨-, rfl⟩ | ⟨hl, -⟩
    · exact hlt
    · exact h.source_lt j l hl
  · rw [ht.out] at hap
    rw [ht.next]
    split at hap
    · cases hap
      omega
    · have := h.out_lt ap j hap
      omega
  · rw [ht.out] at hap
    rcases (ht.find_iff h hb).1 hl with ⟨rfl, rfl⟩ | ⟨hl, -⟩
    · split at hap
      · rename_i hport
        exact hport.imp Eq.symm Eq.symm
      · exact absurd (h.out_lt ap _ hap) (Nat.lt_irrefl _)
    · split at hap
      · cases hap
        exact absurd (OrderedSet.lt_next hl) (Nat.lt_irrefl _)
      · exact h.port ap j l hap hl
  · rcases (ht.find_iff h hb).1 hl with ⟨rfl, rfl⟩ | ⟨hl, hne⟩ <;>
      rcases (ht.find_iff h hb).1 hl' with ⟨rfl, rfl⟩ | ⟨hl', hne'⟩
    · rfl
    · exact absurd hp.symm hne'
    · exact absurd hp hne
    · exact h.unique i j l l' hl hl' hp

end TakenIn

end

/-- A recognized beacon of a link that expires after every other. -/
theorem Described.beacon (h : s.Described) (pollInterval : UInt32) (hlt : source < target)
    (hk : ∀ j l, s.links.find j = some l → l.validThrough ≠ now + lifetime pollInterval)
    (hb : BeaconRecognized s source target) :
    ∃ s', s.handleBeacon pollInterval now source target = .ok s' ∧ s'.Described ∧
      ∀ j l, s'.links.find j = some l → s.links.find j = some l ∨
        l.validThrough = now + lifetime pollInterval := by
  obtain ⟨s', hs', ht⟩ := handleBeacon_spec pollInterval now target hb.found fun j l hl =>
    hk j l (kept_eq_some.1 hl).2
  refine ⟨s', hs', ht.described h hlt hb, fun j l hl => ?_⟩
  rcases (ht.find_iff h hb).1 hl with ⟨-, rfl⟩ | ⟨hl, -⟩
  · exact .inr rfl
  · exact .inl hl

/-- A beacon after which the signals still describe the database was recognized. -/
theorem Described.beacon_recognized (h : s.Described)
    (hk : ∀ j l, s.links.find j = some l → l.validThrough ≠ now + lifetime pollInterval)
    (hne : s.handleBeacon pollInterval now source target ≠ .error .undefined)
    (ha : ∀ s', s.handleBeacon pollInterval now source target = .ok s' → s'.Announces) :
    BeaconRecognized s source target := by
  have hfound : ∀ it, s.outEdges source = some it → ∃ l, s.links.find it = some l := by
    intro it ho
    cases hl : s.links.find it with
    | some l => exact ⟨l, rfl⟩
    | none =>
      refine absurd ?_ hne
      rw [handleBeacon, removeOlder_undefined ho hl]
      rfl
  obtain ⟨s', hs', ht⟩ := handleBeacon_spec pollInterval now target hfound fun j l hl =>
    hk j l (kept_eq_some.1 hl).2
  have hsig := ht.signals
  have ha' := ha s' hs'
  refine ⟨fun it ho => ?_, fun ho a haa hp => ?_⟩
  · obtain ⟨l, hl⟩ := hfound it ho
    refine ⟨l, hl, ?_⟩
    -- no signal was emitted, so the old link is still in the database
    rw [if_neg (by simp [show s.outEdges source = some it from ho])] at hsig
    have hlive : Live s'.signals l.ports := by
      rw [hsig, h.live]
      exact ⟨it, l, hl, rfl⟩
    obtain ⟨j, l', hl', hp⟩ := (ha'.live _).1 hlive
    rcases ht.find_eq_some.1 hl' with ⟨-, rfl⟩ | hl'
    · exact hp.symm
    · obtain ⟨hj, hl'⟩ := kept_eq_some.1 hl'
      rw [h.unique _ _ _ _ hl' hl hp] at hj
      exact absurd ho hj
  · -- a second announcement that the link is up
    have halt := ha'.alternating
    rw [hsig, if_pos ho] at halt
    exact halt.1 ((h.live _).2 ⟨a.1, a.2, OrderedSet.find_eq_some.2 haa, hp⟩)

/-! ## Runs -/

/-- Beacons with `from < to`, at strictly increasing clock values. -/
def Increasing (s : System) : Event → Prop
  | .beacon now source target => source < target ∧ ∀ t ∈ s.lastBeacon, t < now
  | _ => True

/-- A call after which the signals describe the database (module doc). -/
def Recognized (s : LinkDiscovery) : Event → Prop
  | .beacon _ source target => BeaconRecognized s source target
  | .clear source => ∀ it ∈ s.outEdges source, s.links.find it ≠ none
  | .timer _ => True

instance (s : System) : DecidablePred (Increasing s)
  | .beacon _ _ _ => inferInstanceAs (Decidable (_ ∧ ∀ _ ∈ _, _))
  | .clear _ | .timer _ => .isTrue trivial

instance (s : LinkDiscovery) : DecidablePred (Recognized s)
  | .beacon _ source target => inferInstanceAs (Decidable (BeaconRecognized s source target))
  | .clear _ => inferInstanceAs (Decidable (∀ _ ∈ _, _))
  | .timer _ => .isTrue trivial

/-- No link expires after the one of a beacon now. -/
structure System.Described (pollInterval : UInt32) (s : System) : Prop where
  app : s.app.Described
  valid : ∀ it l, s.app.links.find it = some l →
    ∃ t ∈ s.lastBeacon, l.validThrough ≤ t + lifetime pollInterval

section
variable {s s' : System} {e : Event}

theorem System.Described.new_key (h : s.Described pollInterval) {source target : SwitchAndPort}
    (hi : Increasing s (.beacon now source target)) :
    ∀ j l, s.app.links.find j = some l → l.validThrough ≠ now + lifetime pollInterval := by
  intro j l hl
  obtain ⟨t, ht, hle⟩ := h.valid j l hl
  have := hi.2 t ht
  omega

theorem System.Described.of_within (h : s.Described pollInterval) {app : LinkDiscovery}
    (ha : app.Described) (hsub : Within app s.app) :
    System.Described pollInterval { s with app } :=
  ⟨ha, fun it l hl => h.valid it l (hsub it l hl)⟩

/-- **A recognized call** returns with the signals describing the database, or a check or an
assertion fails. -/
theorem step_recognized (ndebug : Bool) (h : s.Described pollInterval) (hi : Increasing s e)
    (hr : Recognized s.app e) :
    (∃ s', s.step pollInterval ndebug e = .ok s' ∧ s'.Described pollInterval) ∨
      s.step pollInterval ndebug e = .error .check ∨
      s.step pollInterval ndebug e = .error .assertion := by
  cases e with
  | beacon now source target =>
    obtain ⟨app, happ, ha, hsub⟩ := h.app.beacon pollInterval hi.1
      (h.new_key hi) hr
    refine .inl ⟨⟨app, some now⟩, by rw [System.step, happ]; rfl, ha, fun j l hl => ?_⟩
    refine ⟨now, rfl, ?_⟩
    rcases hsub j l hl with hl | hv
    · obtain ⟨t, ht, hle⟩ := h.valid j l hl
      have := hi.2 t ht
      omega
    · exact hv.le
  | clear source =>
    cases ho : s.app.outEdges source with
    | none =>
      refine .inl ⟨s, ?_, h⟩
      simp [System.step, clearLinkAt, ho, bind, Except.bind]
    | some it =>
      obtain ⟨l, hl⟩ := Option.ne_none_iff_exists'.1 (hr it ho)
      rcases h.app.clear ndebug ho hl with hf | ⟨app, happ, ha, hsub⟩
      · exact .inr (.inl (by rw [System.step, hf]; rfl))
      · exact .inl ⟨_, by rw [System.step, happ]; rfl, h.of_within ha hsub⟩
  | timer now =>
    rcases h.app.expire ndebug now s.app.links.size with hf | ⟨app, happ, ha, hsub⟩
    · exact .inr (.inr (by rw [System.step, timerEvent, hf]; rfl))
    · exact .inl ⟨_, by rw [System.step, timerEvent, happ]; rfl, h.of_within ha hsub⟩

/-- A call that keeps the signals describing the database was recognized. -/
theorem recognized_of_step (h : s.Described pollInterval) (hi : Increasing s e)
    (hne : s.step pollInterval ndebug e ≠ .error .undefined)
    (ha : ∀ s', s.step pollInterval ndebug e = .ok s' → s'.app.Announces) :
    Recognized s.app e := by
  cases e with
  | beacon now source target =>
    refine h.app.beacon_recognized (h.new_key hi) (fun hx => hne ?_) fun app happ => ?_
    · rw [System.step, hx]
      rfl
    · exact ha ⟨app, some now⟩ (by rw [System.step, happ]; rfl)
  | clear source =>
    intro it ho hl
    refine hne ?_
    have ho : s.app.outEdges source = some it := ho
    simp [System.step, clearLinkAt, ho, hl, bind, Except.bind]
  | timer now => trivial

/-- **The signals describe the database** in every run whose calls are recognized; and after the
next call they do, without undefined behaviour, exactly when it is recognized too. -/
theorem link_signals {h : List (System × Event)}
    (hr : Calls pollInterval ndebug (fun s e => Increasing s e ∧ Recognized s.app e) h s) :
    s.app.Announces ∧ ∀ e, Increasing s e →
      ((s.step pollInterval ndebug e ≠ .error .undefined ∧
        ∀ s', s.step pollInterval ndebug e = .ok s' → s'.app.Announces) ↔
        Recognized s.app e) := by
  have hd : s.Described pollInterval := by
    refine hr.invariant_state (I := System.Described pollInterval) ?_ fun s e s' hd hok hs => ?_
    · exact ⟨.init, by simp [System.init, LinkDiscovery.init]⟩
    · rcases step_recognized ndebug hd hok.1 hok.2 with ⟨s'', hs'', hd'⟩ | hf | hf
      · cases hs.symm.trans hs''
        exact hd'
      · cases hs.symm.trans hf
      · cases hs.symm.trans hf
  refine ⟨hd.app.toAnnounces, fun e hi => ⟨fun ⟨hne, ha⟩ => recognized_of_step hd hi hne ha, ?_⟩⟩
  intro hrec
  rcases step_recognized ndebug hd hi hrec with ⟨s'', hs'', hd'⟩ | hf | hf
  · rw [hs'']
    refine ⟨by simp, fun s' hs' => ?_⟩
    cases hs'
    exact hd'.app.toAnnounces
  · rw [hf]
    exact ⟨by simp, fun s' hs' => nomatch hs'⟩
  · rw [hf]
    exact ⟨by simp, fun s' hs' => nomatch hs'⟩

end

/-- A link is found, refreshed, broken and found again, while another stays. -/
theorem link_signals_rediscovered : ∃ h s,
    Calls 120 true (fun s e => Increasing s e ∧ Recognized s.app e) h s ∧
    s.app.signals = [.up (⟨1, 1⟩, ⟨2, 1⟩), .down (⟨1, 1⟩, ⟨2, 1⟩), .up (⟨1, 2⟩, ⟨3, 1⟩),
      .up (⟨1, 1⟩, ⟨2, 1⟩)] ∧ s.app.Announces := by
  obtain ⟨h, s, hr, hsig⟩ := exists_trace (System.step 120 true)
    (fun s e => Increasing s e ∧ Recognized s.app e) .init
    [.beacon 0 ⟨1, 1⟩ ⟨2, 1⟩, .beacon 1 ⟨1, 2⟩ ⟨3, 1⟩, .beacon 2 ⟨1, 1⟩ ⟨2, 1⟩, .clear ⟨2, 1⟩,
      .beacon 3 ⟨1, 1⟩ ⟨2, 1⟩]
    (P := fun _ s => s.app.signals = [.up (⟨1, 1⟩, ⟨2, 1⟩), .down (⟨1, 1⟩, ⟨2, 1⟩),
      .up (⟨1, 2⟩, ⟨3, 1⟩), .up (⟨1, 1⟩, ⟨2, 1⟩)])
    (by decide +kernel)
  exact ⟨h, s, hr, hsig, (link_signals hr).1⟩

/-- Port 1 of switch 1 is moved from switch 2 to switch 3: the database changes, and no signal is
emitted. -/
theorem link_signals_recabled : ∃ h s, Calls 120 false Increasing h s ∧
    s.app.signals = [.up (⟨1, 1⟩, ⟨2, 1⟩)] ∧
    s.app.links.nodes.map (fun a => a.2.ports) = [(⟨1, 1⟩, ⟨3, 1⟩)] ∧ ¬ s.app.Announces := by
  obtain ⟨h, s, hr, hsig, hlinks, hf⟩ := exists_trace (System.step 120 false) Increasing .init
    [.beacon 0 ⟨1, 1⟩ ⟨2, 1⟩, .beacon 1 ⟨1, 1⟩ ⟨3, 1⟩]
    (P := fun _ s => s.app.signals = [.up (⟨1, 1⟩, ⟨2, 1⟩)] ∧
      s.app.links.nodes.map (fun a => a.2.ports) = [(⟨1, 1⟩, ⟨3, 1⟩)] ∧
      ∃ l ∈ s.app.links.find 1, l.ports = (⟨1, 1⟩, ⟨3, 1⟩))
    (by decide +kernel)
  refine ⟨h, s, hr, hsig, hlinks, fun ha => ?_⟩
  obtain ⟨l, hl, hp⟩ := hf
  have hlive := (ha.live _).2 ⟨1, l, hl, hp⟩
  rw [hsig] at hlive
  exact absurd hlive (by decide)

end LinkDiscovery
