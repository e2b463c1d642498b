import Mathlib.Data.List.Induction
import Runos.Rest.Proof.EventManager

/-!
# A client that polls

What a client has received is a part of the events, in their order. A client has caught up
(`Caught`) with the events up to the last it knows: of those it has both of a pair or neither. While
it also has the Adds of all Deletes that are still to come (`Settled`), `timeout` keeps its view
consistent (`Settled.consistent`); a poll that sends an event between an Add and its Delete, and
nothing after the Delete, ends that (`settled_iff`). `polls_consistent_iff`: such a poll is the only
way to an inconsistent view.
-/

namespace Rest

namespace Polling

open EventManager EventType Runs

variable {α : Type} {hashOf : α → UInt32} {hashMap : UInt32} {s s' : Polling α}
  {k d j : Nat} {a e x : Event α} {obj : α} {l : List (Report α)} {r : Report α}

/-! ## Clients that have caught up -/

/-- In the order of the ids. -/
def Sorted (l : List (Report α)) : Prop :=
  l.Pairwise fun r r' => r.eventId.toNat < r'.eventId.toNat

variable (hashMap) in
/-- The client has what it should have of the events up to the last it knows. -/
structure Caught (s : Polling α) : Prop where
  bound : s.last.toNat ≤ s.manager.events.length
  sorted : Sorted s.received
  upTo : ∀ r ∈ s.received, r.eventId.toNat ≤ s.last.toNat ∧
    ∃ e ∈ s.manager.events, e.hash &&& hashMap ≠ 0 ∧ e.toJson = r
  opened : ∀ k a, Open s.manager k a → a.hash &&& hashMap ≠ 0 → a.id.toNat ≤ s.last.toNat →
    a.toJson ∈ s.received
  paired : ∀ k a d e, Pair s.manager k a d e → e.id.toNat ≤ s.last.toNat →
    (a.toJson ∈ s.received ↔ e.toJson ∈ s.received)

variable (hashMap) in
/-- The Adds of the Deletes that are still to come have been received. -/
def Settled (s : Polling α) : Prop :=
  ∀ k a d e, Pair s.manager k a d e → a.hash &&& hashMap ≠ 0 → a.id.toNat ≤ s.last.toNat →
    s.last.toNat < e.id.toNat → a.toJson ∈ s.received

variable (hashMap) in
/-- A poll now sends an event between an Add and its Delete that both are new, and nothing after the
Delete. -/
def Straddles (s : Polling α) : Prop :=
  ∃ (k : Nat) (a d : Event α), s.manager.events[k]? = some a ∧ d ∈ s.manager.events ∧
    d.type = delete ∧ d.brother = some k ∧ a.hash &&& hashMap ≠ 0 ∧ s.last < a.id ∧
    (∃ e ∈ s.manager.events, s.manager.Sends hashMap s.last e ∧ a.id < e.id) ∧
    ∀ e ∈ s.manager.events, s.manager.Sends hashMap s.last e → e.id < d.id

theorem Caught.init : Caught hashMap (init : Polling α) where
  bound := Nat.le_refl 0
  sorted := .nil
  upTo := nofun
  opened _ _ ho := by cases ho.event
  paired _ _ _ _ hp := by cases hp.event

theorem Settled.init : Settled hashMap (init : Polling α) := by
  intro k a d e hp
  cases hp.event

/-! ### An event -/

section
variable (hg : Grows s.manager s'.manager) (hlast : s'.last = s.last)
  (hrec : s'.received = s.received)
include hg hlast hrec

theorem Caught.grows (hl : Linked hashOf s'.manager) (hc : Caught hashMap s) :
    Caught hashMap s' where
  bound := by
    rw [hlast, hg.length]
    exact Nat.le_succ_of_le hc.bound
  sorted := hrec ▸ hc.sorted
  upTo r hr := by
    rw [hrec] at hr
    obtain ⟨hle, e, he, hhash, rfl⟩ := hc.upTo r hr
    obtain ⟨e', he', hjson, hhash'⟩ := hg.keep e he
    exact ⟨hlast ▸ hle, e', he', hhash' ▸ hhash, hjson⟩
  opened k a ho hhash hle := by
    rw [hlast] at hle
    rw [hrec]
    rcases hg.open_back k a ho with hold | rfl
    · exact hc.opened k a hold hhash hle
    · have hid := hl.id _ a ho.event
      have := hc.bound
      omega
  paired k a d e hp hle := by
    rw [hlast] at hle
    rw [hrec]
    rcases hg.pair_back k a d e hp with hold | ⟨rfl, -⟩
    · exact hc.paired k a d e hold hle
    · have hid := hl.id _ e hp.event'
      have := hc.bound
      omega

theorem settled_grows (hc : Caught hashMap s) : Settled hashMap s' ↔ Settled hashMap s := by
  unfold Settled
  rw [hlast, hrec]
  constructor
  · intro h k a d e hp
    exact h k a d e (hg.pair k a d e hp)
  · intro h k a d e hp hhash hle hlt
    rcases hg.pair_back k a d e hp with hold | ⟨-, a₀, ho, hjson, hhash'⟩
    · exact h k a d e hold hhash hle hlt
    · -- the Add of a new Delete was open
      have hid : a₀.id = a.id := congrArg Report.eventId hjson
      rw [← hjson]
      exact hc.opened k a₀ ho (hhash' ▸ hhash) (hid ▸ hle)

end

theorem sorted_events {m : EventManager α} (h : Linked hashOf m) :
    Sorted (m.events.map Event.toJson) := by
  refine List.pairwise_map.2 (List.pairwise_iff_getElem.2 fun i j hi hj hlt => ?_)
  have hi' := h.id i _ (List.getElem?_eq_getElem hi)
  have hj' := h.id j _ (List.getElem?_eq_getElem hj)
  show (m.events[i]).id.toNat < (m.events[j]).id.toNat
  omega

/-! ### A poll -/

variable (hashMap) in
/-- How a client changes when it polls. -/
structure Polled (s s' : Polling α) : Prop where
  manager : s'.manager = s.manager
  received : s'.received = s.received ++
    (s.manager.events.filter fun e => s.manager.Sends hashMap s.last e).map Event.toJson
  bound : ∀ e ∈ s.manager.events, s.manager.Sends hashMap s.last e → e.id.toNat ≤ s'.last.toNat
  last : (s'.last = s.last ∧ ∀ e ∈ s.manager.events, ¬ s.manager.Sends hashMap s.last e) ∨
    ∃ e ∈ s.manager.events, s.manager.Sends hashMap s.last e ∧ s'.last = e.id

theorem sends_open (ho : Open s.manager k a) (hhash : a.hash &&& hashMap ≠ 0) :
    s.manager.Sends hashMap s.last a ↔ s.last.toNat < a.id.toNat := by
  rw [← UInt32.lt_iff_toNat_lt]
  exact ⟨fun hs => hs.2.1, fun hlt => ⟨hhash, hlt, ho.checkOverlap⟩⟩

theorem not_sends_add (hp : Pair s.manager k a d e) : ¬ s.manager.Sends hashMap s.last a := by
  intro hs
  cases hp.checkOverlap_add.symm.trans hs.2.2

theorem Polled.last_le (h : Polled hashMap s s') : s.last.toNat ≤ s'.last.toNat := by
  rcases h.last with ⟨heq, -⟩ | ⟨e, -, hs, heq⟩
  · exact Nat.le_of_eq (congrArg UInt32.toNat heq.symm)
  · rw [heq]
    exact Nat.le_of_lt (UInt32.lt_iff_toNat_lt.1 hs.2.1)

/-- What has been received comes from the list. -/
theorem Polled.upTo (h : Polled hashMap s s') (hc : Caught hashMap s) :
    ∀ r ∈ s'.received, r.eventId.toNat ≤ s'.last.toNat ∧
      ∃ e ∈ s'.manager.events, e.hash &&& hashMap ≠ 0 ∧ e.toJson = r := by
  intro r hr
  rw [h.received] at hr
  rw [h.manager]
  rcases List.mem_append.1 hr with hr | hr
  · obtain ⟨hle, hevent⟩ := hc.upTo r hr
    exact ⟨Nat.le_trans hle h.last_le, hevent⟩
  · obtain ⟨e, he, rfl⟩ := List.mem_map.1 hr
    obtain ⟨he, hs⟩ := List.mem_filter.1 he
    have hs := of_decide_eq_true hs
    exact ⟨h.bound e he hs, e, he, hs.1, rfl⟩

/-- The event of a report. -/
theorem Polled.exists_event (h : Polled hashMap s s') (hc : Caught hashMap s)
    (hr : r ∈ s'.received) : ∃ (k : Nat) (e : Event α),
      s.manager.events[k]? = some e ∧ e.hash &&& hashMap ≠ 0 ∧ e.toJson = r := by
  obtain ⟨-, e, he, hhash, hjson⟩ := h.upTo hc r hr
  rw [h.manager] at he
  obtain ⟨k, hk⟩ := List.mem_iff_getElem?.1 he
  exact ⟨k, e, hk, hhash, hjson⟩

section
variable (hl : Linked hashOf s.manager)
include hl

theorem sends_delete (hp : Pair s.manager k a d e) :
    s.manager.Sends hashMap s.last e ↔ a.hash &&& hashMap ≠ 0 ∧
      s.last.toNat < e.id.toNat ∧ a.id.toNat ≤ s.last.toNat := by
  have hhash : e.hash = a.hash := by
    rw [hl.hash k a hp.event, hl.hash d e hp.event', hp.obj]
  unfold Sends
  rw [hhash, hp.checkOverlap_delete, UInt32.lt_iff_toNat_lt, Option.some.injEq,
    Bool.not_eq_false', decide_eq_true_eq, UInt32.le_iff_toNat_le]

/-- An event has been received when it was before, or was sent. -/
theorem Polled.mem_received (h : Polled hashMap s s') (hk : s.manager.events[k]? = some x) :
    x.toJson ∈ s'.received ↔ x.toJson ∈ s.received ∨ s.manager.Sends hashMap s.last x := by
  rw [h.received, List.mem_append]
  refine or_congr Iff.rfl ⟨fun hm => ?_, fun hs => ?_⟩
  · obtain ⟨y, hy, hjson⟩ := List.mem_map.1 hm
    obtain ⟨hy, hs⟩ := List.mem_filter.1 hy
    obtain ⟨j, hj⟩ := List.mem_iff_getElem?.1 hy
    obtain ⟨-, rfl⟩ := hl.index_inj hj hk (congrArg Report.eventId hjson)
    exact of_decide_eq_true hs
  · exact List.mem_map.2 ⟨x, List.mem_filter.2 ⟨List.mem_of_getElem? hk, decide_eq_true hs⟩, rfl⟩

/-- The Add of a pair is received before its Delete is added, or never. -/
theorem Polled.mem_received_add (h : Polled hashMap s s') (hp : Pair s.manager k a d e) :
    a.toJson ∈ s'.received ↔ a.toJson ∈ s.received := by
  rw [h.mem_received hl hp.event, or_iff_left (not_sends_add hp)]

theorem Polled.sorted (h : Polled hashMap s s') (hc : Caught hashMap s) : Sorted s'.received := by
  unfold Sorted
  rw [h.received, List.pairwise_append]
  refine ⟨hc.sorted, ?_, fun r hr r' hr' => ?_⟩
  · exact (sorted_events hl).sublist ((List.filter_sublist).map Event.toJson)
  · obtain ⟨e, he, rfl⟩ := List.mem_map.1 hr'
    have hs := of_decide_eq_true (List.mem_filter.1 he).2
    exact Nat.lt_of_le_of_lt (hc.upTo r hr).1 (UInt32.lt_iff_toNat_lt.1 hs.2.1)

/-- A received event of the list. -/
theorem Caught.of_mem (hc : Caught hashMap s) (hk : s.manager.events[k]? = some x)
    (hm : x.toJson ∈ s.received) : x.hash &&& hashMap ≠ 0 ∧ x.id.toNat ≤ s.last.toNat := by
  obtain ⟨hle, y, hy, hhash, hjson⟩ := hc.upTo _ hm
  obtain ⟨j, hj⟩ := List.mem_iff_getElem?.1 hy
  obtain ⟨-, rfl⟩ := hl.index_inj hj hk (congrArg Report.eventId hjson)
  exact ⟨hhash, hle⟩

/-- **A settled client catches up**. -/
theorem Caught.polled (h : Polled hashMap s s') (hc : Caught hashMap s)
    (hset : Settled hashMap s) : Caught hashMap s' where
  bound := by
    rw [h.manager]
    rcases h.last with ⟨heq, -⟩ | ⟨e, he, -, heq⟩
    · rw [heq]
      exact hc.bound
    · obtain ⟨k, hk⟩ := List.mem_iff_getElem?.1 he
      rw [heq, hl.id k e hk]
      exact lt_of_event hk
  sorted := h.sorted hl hc
  upTo := h.upTo hc
  opened k a ho hhash hle := by
    rw [h.manager] at ho
    rw [h.mem_received hl ho.event, sends_open ho hhash]
    rcases Nat.lt_or_ge s.last.toNat a.id.toNat with hlt | hge
    · exact .inr hlt
    · exact .inl (hc.opened k a ho hhash hge)
  paired k a d e hp hle := by
    rw [h.manager] at hp
    rw [h.mem_received_add hl hp, h.mem_received hl hp.event', sends_delete hl hp]
    rcases Nat.lt_or_ge s.last.toNat e.id.toNat with hlt | hge
    · -- the Delete is new
      have hnot : e.toJson ∉ s.received := by
        intro hm
        have := (hc.of_mem hl hp.event' hm).2
        omega
      constructor
      · intro ha
        obtain ⟨hhash, hle'⟩ := hc.of_mem hl hp.event ha
        exact .inr ⟨hhash, hlt, hle'⟩
      · intro he
        obtain ⟨hhash, -, hle'⟩ := he.resolve_left hnot
        exact hset k a d e hp hhash hle' hlt
    · rw [hc.paired k a d e hp hge]
      exact ⟨.inl, fun he => he.elim id fun he => absurd he.2.1 (by omega)⟩

section
variable (h : Polled hashMap s s') (hc : Caught hashMap s)
include h hc

/-- A Delete has been received after the Add of the pair. -/
theorem Settled.mem_before (hset : Settled hashMap s) (hp : Pair s.manager k a d e)
    {r₁ r₂ : List (Report α)} (heq : s'.received = r₁ ++ e.toJson :: r₂) : a.toJson ∈ r₁ := by
  have ha : a.toJson ∈ s'.received := by
    rw [h.mem_received_add hl hp]
    have he : e.toJson ∈ s'.received := by rw [heq]; simp
    rcases (h.mem_received hl hp.event').1 he with he | hs
    · exact (hc.paired k a d e hp (hc.of_mem hl hp.event' he).2).2 he
    · obtain ⟨hhash, hnew, hold⟩ := (sends_delete hl hp).1 hs
      exact hset k a d e hp hhash hold hnew
  have hsorted : s'.received.Pairwise fun r r' => r.eventId.toNat < r'.eventId.toNat :=
    h.sorted hl hc
  rw [heq] at ha hsorted
  have hlt := hp.id_lt hl
  rcases List.mem_append.1 ha with ha | ha
  · exact ha
  · obtain ⟨-, hlater, -⟩ := List.pairwise_append.1 hsorted
    rcases List.mem_cons.1 ha with hsame | ha
    · have hid : a.id = e.id := congrArg Report.eventId hsame
      rw [hid] at hlt
      exact absurd hlt (Nat.lt_irrefl _)
    · have hafter : e.id.toNat < a.id.toNat := (List.pairwise_cons.1 hlater).1 _ ha
      omega

/-- The Delete of an Add that has been received has been received too. -/
theorem Polled.mem_delete (hp : Pair s.manager k a d e) (ha : a.toJson ∈ s'.received) :
    e.toJson ∈ s'.received := by
  have ha' := (h.mem_received_add hl hp).1 ha
  obtain ⟨hhash, hold⟩ := hc.of_mem hl hp.event ha'
  rw [h.mem_received hl hp.event']
  rcases Nat.lt_or_ge s.last.toNat e.id.toNat with hlt | hge
  · exact .inr ((sends_delete hl hp).2 ⟨hhash, hlt, hold⟩)
  · exact .inl ((hc.paired k a d e hp hge).1 ha')

end

/-- **When a client stays settled**: the poll does not straddle a pair. -/
theorem settled_iff (h : Polled hashMap s s') (hc : Caught hashMap s) :
    Settled hashMap s' ↔ ¬ Straddles hashMap s := by
  constructor
  · rintro hset ⟨k, a, e, ha, he, htype, hbrother, hhash, hnew, ⟨x, hx, hs, hax⟩, hlate⟩
    rw [UInt32.lt_iff_toNat_lt] at hnew hax
    obtain ⟨d, hd⟩ := List.mem_iff_getElem?.1 he
    have hp := hl.pair_of_brother hd htype hbrother ha
    have hle : a.id.toNat ≤ s'.last.toNat := by
      have := h.bound x hx hs
      omega
    have hlt : s'.last.toNat < e.id.toNat := by
      rcases h.last with ⟨-, hnone⟩ | ⟨y, hy, hsy, heq⟩
      · exact absurd hs (hnone x hx)
      · rw [heq]
        exact UInt32.lt_iff_toNat_lt.1 (hlate y hy hsy)
    have hm := hset k a d e (h.manager ▸ hp) hhash hle hlt
    have := (hc.of_mem hl ha ((h.mem_received_add hl hp).1 hm)).2
    omega
  · intro hno k a d e hp hhash hle hlt
    rw [h.manager] at hp
    rcases Nat.lt_or_ge s.last.toNat a.id.toNat with hnew | hold
    · -- the mark is an event after the Add
      refine absurd ?_ hno
      rcases h.last with ⟨heq, -⟩ | ⟨y, hy, hsy, heq⟩
      · rw [heq] at hle
        omega
      · have hne : a.id.toNat ≠ y.id.toNat := by
          intro hid
          obtain ⟨j, hj⟩ := List.mem_iff_getElem?.1 hy
          obtain ⟨-, rfl⟩ := hl.index_inj hp.event hj (UInt32.toNat_inj.1 hid)
          exact not_sends_add hp hsy
        rw [heq] at hle
        refine ⟨k, a, e, hp.event, List.mem_of_getElem? hp.event', hp.type', hp.brother', hhash,
          UInt32.lt_iff_toNat_lt.2 hnew, ⟨y, hy, hsy, UInt32.lt_iff_toNat_lt.2 (by omega)⟩,
          fun z hz hsz => UInt32.lt_iff_toNat_lt.2 ?_⟩
        have := h.bound z hz hsz
        omega
    · -- the Delete was sent
      have hs : s.manager.Sends hashMap s.last e :=
        (sends_delete hl hp).2 ⟨hhash, Nat.lt_of_le_of_lt h.last_le hlt, hold⟩
      have := h.bound e (List.mem_of_getElem? hp.event') hs
      omega

end

/-! ## What is shown -/

theorem type_ne_change {m : EventManager α} (h : Linked hashOf m) (hk : m.events[k]? = some e) :
    e.type ≠ change := by
  rcases h.each k e hk with ho | ⟨d, x, hp⟩ | ⟨j, x, hp⟩
  · rw [ho.type]
    nofun
  · rw [hp.type]
    nofun
  · rw [hp.type']
    nofun

variable [DecidableEq α]

theorem shown_snoc (l : List (Report α)) (r : Report α) (obj : α) :
    shown (l ++ [r]) obj =
      if r.obj = obj then
        match r.type with
        | .add => true
        | .delete => false
        | .change => shown l obj
      else shown l obj := by
  rw [shown, List.foldl_append]
  rfl

/-- An object is shown when the last report of it is an Add. -/
theorem shown_iff (hs : Sorted l) (hc : ∀ r ∈ l, r.type ≠ change) :
    shown l obj = true ↔ ∃ a ∈ l, a.type = add ∧ a.obj = obj ∧
      ∀ r ∈ l, r.obj = obj → r.eventId.toNat ≤ a.eventId.toNat := by
  induction l using List.reverseRecOn with
  | nil => simp [shown]
  | append_singleton l r ih =>
    obtain ⟨hs', -, hlast⟩ := List.pairwise_append.1 hs
    have hr : ∀ x ∈ l, x.eventId.toNat < r.eventId.toNat := fun x hx =>
      hlast x hx r List.mem_cons_self
    have ih := ih hs' fun x hx => hc x (List.mem_append_left _ hx)
    rw [shown_snoc]
    by_cases hobj : r.obj = obj
    · rw [if_pos hobj]
      cases htype : r.type with
      | add =>
        refine iff_of_true rfl ⟨r, by simp, htype, hobj, fun x hx _ => ?_⟩
        rcases List.mem_append.1 hx with hx | hx
        · exact Nat.le_of_lt (hr x hx)
        · obtain rfl := List.mem_singleton.1 hx
          exact Nat.le_refl _
      | delete =>
        refine iff_of_false Bool.false_ne_true ?_
        rintro ⟨a, ha, hadd, -, hmax⟩
        rcases List.mem_append.1 ha with ha | ha
        · have hlt := hr a ha
          have hle := hmax r (by simp) hobj
          omega
        · rw [List.mem_singleton.1 ha, htype] at hadd
          cases hadd
      | change => exact absurd htype (hc r (by simp))
    · rw [if_neg hobj, ih]
      constructor
      · rintro ⟨a, ha, hadd, hao, hmax⟩
        refine ⟨a, List.mem_append_left _ ha, hadd, hao, fun x hx hxo => ?_⟩
        rcases List.mem_append.1 hx with hx | hx
        · exact hmax x hx hxo
        · rw [List.mem_singleton.1 hx] at hxo
          exact absurd hxo hobj
      · rintro ⟨a, ha, hadd, hao, hmax⟩
        rcases List.mem_append.1 ha with ha | ha
        · exact ⟨a, ha, hadd, hao, fun x hx => hmax x (List.mem_append_left _ hx)⟩
        · rw [List.mem_singleton.1 ha] at hao
          exact absurd hao hobj

/-- A part of the events shows an object that has an open Add, when it has all open Adds of the
object and no Add without its Delete. -/
theorem shown_iff_open {m : EventManager α} (h : Linked hashOf m) (hs : Sorted l)
    (hevent : ∀ r ∈ l, ∃ (k : Nat) (e : Event α), m.events[k]? = some e ∧ e.toJson = r)
    (hpaired : ∀ k a d e, Pair m k a d e → a.toJson ∈ l → e.toJson ∈ l)
    (hopen : ∀ k a, Open m k a → a.obj = obj → a.toJson ∈ l) :
    shown l obj = true ↔ ∃ k a, Open m k a ∧ a.obj = obj := by
  have hchange : ∀ r ∈ l, r.type ≠ change := by
    intro r hr
    obtain ⟨k, e, hk, rfl⟩ := hevent r hr
    exact type_ne_change h hk
  rw [shown_iff hs hchange]
  constructor
  · rintro ⟨r, hr, hadd, hobj, hmax⟩
    obtain ⟨k, a, hk, rfl⟩ := hevent r hr
    rcases h.open_or_pair hk hadd with ho | ⟨d, e, hp⟩
    · exact ⟨k, a, ho, hobj⟩
    · -- the Delete follows
      have hle : e.id.toNat ≤ a.id.toNat := hmax _ (hpaired k a d e hp hr) (hp.obj.trans hobj)
      exact absurd (hp.id_lt h) (Nat.not_lt_of_le hle)
  · rintro ⟨k, a, ho, hobj⟩
    refine ⟨a.toJson, hopen k a ho hobj, ho.type, hobj, fun r hr hr' => ?_⟩
    obtain ⟨j, x, hj, rfl⟩ := hevent r hr
    exact ho.id_le h hj (hr'.trans hobj.symm)

/-- An object is there when it has an open Add. -/
theorem live_iff (h : Linked hashOf s.manager) :
    s.live obj = true ↔ ∃ k a, Open s.manager k a ∧ a.obj = obj := by
  refine shown_iff_open h (sorted_events h) (fun r hr => ?_)
    (fun _ _ _ _ hp _ => List.mem_map_of_mem (List.mem_of_getElem? hp.event'))
    fun _ _ ho _ => List.mem_map_of_mem (List.mem_of_getElem? ho.event)
  obtain ⟨e, he, rfl⟩ := List.mem_map.1 hr
  obtain ⟨k, hk⟩ := List.mem_iff_getElem?.1 he
  exact ⟨k, e, hk, rfl⟩

/-! ## What a poll leaves -/

variable (hashOf hashMap) in
/-- What a client is promised. -/
structure Consistent (s : Polling α) : Prop where
  /-- A Delete comes after the Add of the object, with no event of the object in between. -/
  known : ∀ r₁ d r₂, s.received = r₁ ++ d :: r₂ → d.type = delete →
    ∃ a ∈ r₁, a.type = add ∧ a.obj = d.obj ∧ a.eventId.toNat < d.eventId.toNat ∧
      ∀ e ∈ s.manager.events, e.obj = d.obj →
        ¬ (a.eventId.toNat < e.id.toNat ∧ e.id.toNat < d.eventId.toNat)
  once : (s.received.map Report.eventId).Nodup
  exact : ∀ obj, hashOf obj &&& hashMap ≠ 0 → shown s.received obj = s.live obj

section
variable (hl : Linked hashOf s.manager) (h : Polled hashMap s s') (hc : Caught hashMap s)
include hl h hc

/-- The objects that are shown are there. -/
theorem Polled.shown_eq (hobj : hashOf obj &&& hashMap ≠ 0) :
    shown s'.received obj = s'.live obj := by
  have hl' : Linked hashOf s'.manager := h.manager ▸ hl
  rw [Bool.eq_iff_iff, live_iff hl', h.manager]
  refine shown_iff_open hl (h.sorted hl hc) (fun r hr => ?_)
    (fun _ _ _ _ hp ha => h.mem_delete hl hc hp ha) fun k a ho hobj' => ?_
  · obtain ⟨k, e, hk, -, hjson⟩ := h.exists_event hc hr
    exact ⟨k, e, hk, hjson⟩
  · have hhash : a.hash &&& hashMap ≠ 0 := by rwa [hl.hash k a ho.event, hobj']
    rw [h.mem_received hl ho.event, sends_open ho hhash]
    rcases Nat.lt_or_ge s.last.toNat a.id.toNat with hlt | hge
    · exact .inr hlt
    · exact .inl (hc.opened k a ho hhash hge)

/-- **What a settled client sees**. -/
theorem Settled.consistent (hset : Settled hashMap s) : Consistent hashOf hashMap s' where
  known r₁ r r₂ heq htype := by
    obtain ⟨d, e, hd, -, rfl⟩ := h.exists_event hc (r := r) (by rw [heq]; simp)
    obtain ⟨k, a, hp⟩ := hl.pair_of_delete hd htype
    refine ⟨a.toJson, hset.mem_before hl h hc hp heq, hp.type, hp.obj.symm, hp.id_lt hl,
      fun x hx hobj hbetween => ?_⟩
    rw [h.manager] at hx
    obtain ⟨j, hj⟩ := List.mem_iff_getElem?.1 hx
    have hidx := hl.id j x hj
    have hida := hl.id k a hp.event
    have hide := hl.id d e hd
    have hbetween' : a.id.toNat < x.id.toNat ∧ x.id.toNat < e.id.toNat := hbetween
    rcases hp.between j x hj (hobj.trans hp.obj) with hle | hge <;> omega
  once := by
    have hsorted : s'.received.Pairwise fun r r' => r.eventId.toNat < r'.eventId.toNat :=
      h.sorted hl hc
    refine List.pairwise_map.2 (hsorted.imp fun hlt heq => ?_)
    rw [heq] at hlt
    exact absurd hlt (Nat.lt_irrefl _)
  exact obj hobj := h.shown_eq hl hc hobj

/-- A Delete is sent to a client that does not know the Add. -/
theorem not_consistent (hset : ¬ Settled hashMap s) : ¬ Consistent hashOf hashMap s' := by
  intro hcons
  refine hset fun k a d e hp hhash hold hnew => ?_
  have hs := (sends_delete hl hp).2 ⟨hhash, hnew, hold⟩
  have he := (h.mem_received hl hp.event').2 (.inr hs)
  obtain ⟨r₁, r₂, heq⟩ := List.append_of_mem he
  obtain ⟨r, hr, -, hobj, hlt, hbetween⟩ := hcons.known r₁ _ r₂ heq hp.type'
  obtain ⟨j, x, hj, -, rfl⟩ := h.exists_event hc (r := r) (by rw [heq]; simp [hr])
  have hobj' : x.obj = a.obj := hobj.trans hp.obj
  have hlt' : x.id.toNat < e.id.toNat := hlt
  have hidx := hl.id j x hj
  have hida := hl.id k a hp.event
  have hide := hl.id d e hp.event'
  -- it is the Add of the pair
  have hnot : ¬ (x.id.toNat < a.id.toNat ∧ a.id.toNat < e.id.toNat) :=
    hbetween a (h.manager ▸ List.mem_of_getElem? hp.event) hp.obj.symm
  have hsame : j = k := by
    have hkd := hp.lt
    rcases hp.between j x hj hobj' with hle | hge <;> omega
  subst hsame
  cases hj.symm.trans hp.event
  exact (h.mem_received_add hl hp).1 (by rw [heq]; exact List.mem_append_left _ hr)

end

/-! ## A session -/

theorem step_poll (hl : Linked hashOf s.manager) :
    ∃ s', step hashOf hashMap s .poll = .ok s' ∧ Polled hashMap s s' := by
  obtain ⟨mark, htimeout, hbound, hlast⟩ := timeout_spec hl hashMap s.last
  refine ⟨⟨s.manager, mark, s.received ++
    (s.manager.events.filter fun e => s.manager.Sends hashMap s.last e).map Event.toJson⟩,
    ?_, rfl, rfl, fun e he hs => UInt32.le_iff_toNat_le.1 (hbound e he hs), hlast⟩
  simp only [step, htimeout]

/-- An event of an application without a hash is dropped; any other one is added. -/
theorem step_event (hl : Linked hashOf s.manager) {type : EventType}
    (ha : Alternates hashOf s (.event type obj)) :
    ∃ s', step hashOf hashMap s (.event type obj) = .ok s' ∧
      (s' = s ∨ Grows s.manager s'.manager ∧ s'.last = s.last ∧ s'.received = s.received ∧
        (s.manager.events.length + 1 < 2 ^ 32 → Linked hashOf s'.manager)) := by
  by_cases hh : hashOf obj = 0
  · refine ⟨s, ?_, .inl rfl⟩
    simp only [step, hh, addToEventList_zero]
  · cases type with
    | change => exact ha.elim
    | add =>
      have hdead : ∀ k a, Open s.manager k a → a.obj ≠ obj := by
        intro k a ho hobj
        have hlive := (live_iff hl).2 ⟨k, a, ho, hobj⟩
        rw [ha hh] at hlive
        cases hlive
      refine ⟨{ s with manager := s.manager.withAdd obj (hashOf obj) }, ?_,
        .inr ⟨grows_withAdd hl _ _, rfl, rfl, fun hn => hl.withAdd hn hdead⟩⟩
      simp only [step, addToEventList_add hh]
    | delete =>
      obtain ⟨k, a, ho, rfl⟩ := (live_iff hl).1 (ha hh)
      refine ⟨{ s with manager := s.manager.withDelete a.obj (hashOf a.obj) k }, ?_,
        .inr ⟨grows_withDelete ho hl _, rfl, rfl, fun hn => Linked.withDelete ho hl hn⟩⟩
      simp only [step, addToEventList_delete hh ho]

theorem length_le_of_step {e : Step α} (h : step hashOf hashMap s e = .ok s') :
    s.manager.events.length ≤ s'.manager.events.length := by
  cases e with
  | poll =>
    simp only [step] at h
    split at h
    · cases h
    · cases h
      exact Nat.le_refl _
  | event type obj =>
    simp only [step, addToEventList] at h
    split at h
    · cases h
    · rename_i m hm
      cases h
      split at hm
      · cases hm
        exact Nat.le_refl _
      · split at hm
        · split at hm
          · cases hm
          · cases hm
            simp
        · cases hm
          simp

variable (hashMap) in
/-- The last poll of the run straddled a pair. -/
def LastStraddles : List (Polling α × Step α) → Prop
  | [] => False
  | (s, .poll) :: _ => Straddles hashMap s
  | (_, .event _ _) :: h => LastStraddles h

variable (hashMap) in
/-- No poll of the run comes after one that straddled a pair. -/
def Clean : List (Polling α × Step α) → Prop
  | [] => True
  | (_, .poll) :: h => ¬ LastStraddles hashMap h ∧ Clean h
  | (_, .event _ _) :: h => Clean h

variable (hashOf hashMap) in
/-- After each poll the client has a consistent view. -/
def Right (h : List (Polling α × Step α)) : Prop :=
  ∀ x ∈ h, x.2 = .poll → ∀ s', step hashOf hashMap x.1 .poll = .ok s' →
    Consistent hashOf hashMap s'

/-- What holds along a session. -/
theorem session_spec {h : List (Polling α × Step α)} (ht : Session hashOf hashMap h s)
    (hn : s.manager.events.length < 2 ^ 32) :
    Linked hashOf s.manager ∧ (Right hashOf hashMap h ↔ Clean hashMap h) ∧
      (Clean hashMap h → Caught hashMap s ∧ (Settled hashMap s ↔ ¬ LastStraddles hashMap h)) := by
  revert hn
  refine ht.invariant (I := fun h s => s.manager.events.length < 2 ^ 32 →
    Linked hashOf s.manager ∧ (Right hashOf hashMap h ↔ Clean hashMap h) ∧
      (Clean hashMap h → Caught hashMap s ∧ (Settled hashMap s ↔ ¬ LastStraddles hashMap h)))
    (fun _ => ⟨.init, iff_of_true nofun trivial,
      fun _ => ⟨.init, iff_of_true .init id⟩⟩) fun h s e s' _ ih ha hstep hn => ?_
  obtain ⟨hl, hiff, hpast⟩ := ih (Nat.lt_of_le_of_lt (length_le_of_step hstep) hn)
  cases e with
  | event type obj =>
    have hright : Right hashOf hashMap ((s, .event type obj) :: h) ↔ Right hashOf hashMap h := by
      unfold Right
      rw [List.forall_mem_cons]
      exact and_iff_right nofun
    obtain ⟨s₁, hstep₁, hcase⟩ := step_event hl ha
    cases hstep₁.symm.trans hstep
    rcases hcase with rfl | ⟨hg, hlast, hrec, hlinked⟩
    · exact ⟨hl, hright.trans hiff, hpast⟩
    · have hl' := hlinked (hg.length ▸ hn)
      refine ⟨hl', hright.trans hiff, fun hclean => ?_⟩
      obtain ⟨hc, hset⟩ := hpast hclean
      exact ⟨hc.grows hg hlast hrec hl', (settled_grows hg hlast hrec hc).trans hset⟩
  | poll =>
    obtain ⟨s₁, hstep₁, hp⟩ := step_poll hl
    cases hstep₁.symm.trans hstep
    have hright : Right hashOf hashMap ((s, .poll) :: h) ↔
        Consistent hashOf hashMap s' ∧ Right hashOf hashMap h := by
      unfold Right
      rw [List.forall_mem_cons]
      refine and_congr_left fun _ => ⟨fun hall => hall rfl s' hstep, fun hcons _ s₂ hs₂ => ?_⟩
      cases hstep.symm.trans hs₂
      exact hcons
    refine ⟨hp.manager ▸ hl, ?_, fun hclean => ?_⟩
    · rw [hright, hiff]
      refine and_congr_left fun hclean => ?_
      obtain ⟨hc, hset⟩ := hpast hclean
      rw [← hset]
      constructor
      · intro hcons
        by_contra hnot
        exact not_consistent hl hp hc hnot hcons
      · exact fun hs => hs.consistent hl hp hc
    · obtain ⟨hc, hset⟩ := hpast hclean.2
      exact ⟨hc.polled hl hp (hset.2 hclean.1), settled_iff hl hp hc⟩

/-- **When the polls of a client are consistent**: no poll comes after one that sent an event between
a new Add and its Delete, and nothing after the Delete. No call follows a null pointer. -/
theorem polls_consistent_iff {h : List (Polling α × Step α)} (ht : Session hashOf hashMap h s)
    (hn : s.manager.events.length < 2 ^ 32) :
    (∀ e, Alternates hashOf s e → ∃ s', step hashOf hashMap s e = .ok s') ∧
      (Right hashOf hashMap h ↔ Clean hashMap h) := by
  obtain ⟨hl, hiff, -⟩ := session_spec ht hn
  refine ⟨fun e ha => ?_, hiff⟩
  cases e with
  | event type obj =>
    obtain ⟨s', hstep, -⟩ := step_event hl ha
    exact ⟨s', hstep⟩
  | poll =>
    obtain ⟨s', hstep, -⟩ := step_poll hl
    exact ⟨s', hstep⟩

theorem Session.next {h : List (Polling α × Step α)} (ht : Session hashOf hashMap h s)
    {e : Step α} (ha : Alternates hashOf s e) (hs : step hashOf hashMap s e = .ok s') :
    Session hashOf hashMap ((s, e) :: h) s' := ht.snoc ha hs

/-- An object is added, and deleted between two polls. -/
theorem polls_consistent_iff_two : ∃ (h : List (Polling Nat × Step Nat)) (s : Polling Nat),
    Session (fun _ => 1) 1 h s ∧ s.received = [⟨1, add, 0⟩, ⟨2, delete, 0⟩] ∧
      (Right (fun _ => 1) 1 h ↔ Clean 1 h) := by
  have ht : Session (fun _ : Nat => 1) 1 _ _ :=
    (((Session.next (s := init) .nil (e := .event add 0) (fun _ => rfl) rfl).next
      (e := .poll) trivial rfl).next (e := .event delete 0) (fun _ => rfl) rfl).next
      (e := .poll) trivial rfl
  exact ⟨_, _, ht, rfl, (polls_consistent_iff ht (by decide)).2⟩

/-- The object 0 is added, then 1, and 0 is deleted: the first poll sends the Add of 1 only, and the
second one sends the Delete of 0. -/
theorem poll_sends_lone_delete : ¬ ∀ (h : List (Polling Nat × Step Nat)) (s : Polling Nat),
    Session (fun _ => 1) 1 h s → Right (fun _ => 1) 1 h := by
  intro hall
  have ht : Session (fun _ : Nat => 1) 1 _ _ :=
    ((((Session.next (s := init) .nil (e := .event add 0) (fun _ => rfl) rfl).next
      (e := .event add 1) (fun _ => rfl) rfl).next (e := .event delete 0) (fun _ => rfl) rfl).next
      (e := .poll) trivial rfl).next (e := .poll) trivial rfl
  have hcons := hall _ _ ht _ List.mem_cons_self rfl _ rfl
  obtain ⟨a, ha, -, hobj, -⟩ := hcons.known [⟨2, add, 1⟩] ⟨3, delete, 0⟩ [] rfl rfl
  cases List.mem_singleton.1 ha
  cases hobj

end Polling

end Rest
