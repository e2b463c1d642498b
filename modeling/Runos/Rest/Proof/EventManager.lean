import Mathlib.Algebra.Group.Nat.Defs
import Mathlib.Tactic.Common
import Runos.Rest.EventManager

/-!
# The list of events

Every event of the list is the Add of an object that is there, or one of a pair: an Add and the
Delete that is its brother (`Linked`). Objects whose Adds and Deletes alternate keep it so
(`Linked.withAdd`,
`Linked.withDelete`). `timeout` sends what is not overlapped (`timeout_spec`).
-/

namespace Rest

namespace EventManager

open EventType

variable {α : Type} {m m' : EventManager α} {hashOf : α → UInt32} {hashMap last hash : UInt32}
  {k d j : Nat} {a e x : Event α} {obj : α}

/-! ## Pairs -/

/-- An Add of an object that is there: no event of the object follows. -/
structure Open (m : EventManager α) (k : Nat) (a : Event α) : Prop where
  event : m.events[k]? = some a
  type : a.type = add
  brother : a.brother = none
  latest : ∀ (j : Nat) (x : Event α), m.events[j]? = some x → x.obj = a.obj → j ≤ k

/-- An Add and its Delete: no event of the object is between them. -/
structure Pair (m : EventManager α) (k : Nat) (a : Event α) (d : Nat) (e : Event α) : Prop where
  event : m.events[k]? = some a
  event' : m.events[d]? = some e
  type : a.type = add
  type' : e.type = delete
  obj : e.obj = a.obj
  brother : a.brother = some d
  brother' : e.brother = some k
  lt : k < d
  between : ∀ (j : Nat) (x : Event α), m.events[j]? = some x → x.obj = a.obj → j ≤ k ∨ d ≤ j

variable (hashOf) in
/-- Ids are positions, and every event is open or one of a pair. -/
structure Linked (m : EventManager α) : Prop where
  count : m.lastEvent.toNat = m.events.length
  id : ∀ (k : Nat) (e : Event α), m.events[k]? = some e → e.id.toNat = k + 1
  hash : ∀ (k : Nat) (e : Event α), m.events[k]? = some e → e.hash = hashOf e.obj
  each : ∀ (k : Nat) (e : Event α), m.events[k]? = some e →
    Open m k e ∨ (∃ d x, Pair m k e d x) ∨ ∃ j x, Pair m j x k e

theorem Linked.init : Linked hashOf (init : EventManager α) :=
  ⟨rfl, nofun, nofun, nofun⟩

theorem Open.unique (h : Open m k a) (h' : Open m j x) (heq : x.obj = a.obj) : j = k :=
  Nat.le_antisymm (h.latest j x h'.event heq) (h'.latest k a h.event heq.symm)

theorem Pair.ne_open (h : Pair m j x d e) (ho : Open m k a) : j ≠ k ∧ d ≠ k := by
  constructor
  · rintro rfl
    cases h.event.symm.trans ho.event
    cases h.brother.symm.trans ho.brother
  · rintro rfl
    cases h.event'.symm.trans ho.event
    cases h.type'.symm.trans ho.type

theorem Linked.open_or_pair (h : Linked hashOf m) (hk : m.events[k]? = some e)
    (htype : e.type = add) : Open m k e ∨ ∃ d x, Pair m k e d x := by
  rcases h.each k e hk with ho | hp | ⟨j, x, hp⟩
  · exact .inl ho
  · exact .inr hp
  · cases hp.type'.symm.trans htype

theorem Linked.pair_of_delete (h : Linked hashOf m) (hd : m.events[d]? = some e)
    (htype : e.type = delete) : ∃ k a, Pair m k a d e := by
  rcases h.each d e hd with ho | ⟨i, x, hp⟩ | hp
  · cases ho.type.symm.trans htype
  · cases hp.type.symm.trans htype
  · exact hp

/-- The Delete of a brother is one of a pair. -/
theorem Linked.pair_of_brother (h : Linked hashOf m) (hd : m.events[d]? = some e)
    (htype : e.type = delete) (hbrother : e.brother = some k) (ha : m.events[k]? = some a) :
    Pair m k a d e := by
  obtain ⟨j, x, hp⟩ := h.pair_of_delete hd htype
  cases hp.brother'.symm.trans hbrother
  cases hp.event.symm.trans ha
  exact hp

theorem Open.id_le (ho : Open m k a) (h : Linked hashOf m) (hj : m.events[j]? = some x)
    (hobj : x.obj = a.obj) : x.id.toNat ≤ a.id.toNat := by
  rw [h.id j x hj, h.id k a ho.event]
  exact Nat.succ_le_succ (ho.latest j x hj hobj)

theorem Pair.id_lt (hp : Pair m k a d e) (h : Linked hashOf m) : a.id.toNat < e.id.toNat := by
  rw [h.id k a hp.event, h.id d e hp.event']
  exact Nat.succ_lt_succ hp.lt

/-- The position of an event is its id. -/
theorem Linked.index_inj (h : Linked hashOf m) (hk : m.events[k]? = some e)
    (hj : m.events[j]? = some x) (hid : e.id = x.id) : k = j ∧ e = x := by
  have hk' := h.id k e hk
  have hj' := h.id j x hj
  rw [hid] at hk'
  have heq : k = j := by omega
  subst heq
  exact ⟨rfl, Option.some.inj (hk.symm.trans hj)⟩

/-! ## Adding an event -/

theorem next_id (h : Linked hashOf m) (hn : m.events.length + 1 < 2 ^ 32) :
    (m.lastEvent + 1).toNat = m.events.length + 1 := by
  rw [UInt32.toNat_add, h.count]
  exact Nat.mod_eq_of_lt hn

/-- How the list grows by one event. -/
structure Grows (m m' : EventManager α) : Prop where
  length : m'.events.length = m.events.length + 1
  keep : ∀ e ∈ m.events, ∃ e' ∈ m'.events, e'.toJson = e.toJson ∧ e'.hash = e.hash
  pair : ∀ k a d e, Pair m k a d e → Pair m' k a d e
  pair_back : ∀ k a d e, Pair m' k a d e → Pair m k a d e ∨
    d = m.events.length ∧ ∃ a₀, Open m k a₀ ∧ a₀.toJson = a.toJson ∧ a₀.hash = a.hash
  open_back : ∀ k a, Open m' k a → Open m k a ∨ k = m.events.length

theorem lt_of_event (h : m.events[k]? = some e) : k < m.events.length :=
  (List.getElem?_eq_some_iff.1 h).1

theorem getElem?_snoc {β : Type} {l : List β} {k : Nat} {x y : β} :
    (l ++ [x])[k]? = some y ↔ l[k]? = some y ∨ k = l.length ∧ y = x := by
  rw [List.getElem?_append]
  by_cases hk : k < l.length
  · rw [if_pos hk]
    exact ⟨.inl, fun h => h.elim id fun h => absurd h.1 (by omega)⟩
  · rw [if_neg hk, List.getElem?_singleton, List.getElem?_eq_none (Nat.le_of_not_lt hk)]
    by_cases heq : k = l.length
    · simp [heq, eq_comm]
    · rw [if_neg (by omega)]
      simp [heq]

/-! ### An Add -/

/-- The list after an Add. -/
def withAdd (m : EventManager α) (obj : α) (hash : UInt32) : EventManager α :=
  ⟨m.lastEvent + 1, m.events ++ [⟨m.lastEvent + 1, add, obj, hash, none⟩]⟩

theorem withAdd_event : (m.withAdd obj hash).events[k]? = some e ↔
    m.events[k]? = some e ∨ k = m.events.length ∧ e = ⟨m.lastEvent + 1, add, obj, hash, none⟩ :=
  getElem?_snoc

theorem Open.withAdd (h : Open m k a) (hne : a.obj ≠ obj) : Open (m.withAdd obj hash) k a where
  event := withAdd_event.2 (.inl h.event)
  type := h.type
  brother := h.brother
  latest j x hx heq := by
    rcases withAdd_event.1 hx with hx | ⟨-, rfl⟩
    · exact h.latest j x hx heq
    · exact absurd heq.symm hne

theorem Pair.withAdd (h : Pair m k a d e) : Pair (m.withAdd obj hash) k a d e where
  event := withAdd_event.2 (.inl h.event)
  event' := withAdd_event.2 (.inl h.event')
  type := h.type
  type' := h.type'
  obj := h.obj
  brother := h.brother
  brother' := h.brother'
  lt := h.lt
  between j x hx heq := by
    rcases withAdd_event.1 hx with hx | ⟨rfl, -⟩
    · exact h.between j x hx heq
    · exact .inr (Nat.le_of_lt (lt_of_event h.event'))

theorem open_withAdd : Open (m.withAdd obj hash) m.events.length
    ⟨m.lastEvent + 1, add, obj, hash, none⟩ where
  event := withAdd_event.2 (.inr ⟨rfl, rfl⟩)
  type := rfl
  brother := rfl
  latest j x hx _ := by
    rcases withAdd_event.1 hx with hx | ⟨rfl, -⟩
    · exact Nat.le_of_lt (lt_of_event hx)
    · exact Nat.le_refl _

/-- **An Add** of an object that is not there. -/
theorem Linked.withAdd (h : Linked hashOf m) (hn : m.events.length + 1 < 2 ^ 32)
    (hdead : ∀ k a, Open m k a → a.obj ≠ obj) : Linked hashOf (m.withAdd obj (hashOf obj)) where
  count := by
    rw [EventManager.withAdd, next_id h hn, List.length_append]
    rfl
  id k e he := by
    rcases withAdd_event.1 he with he | ⟨rfl, rfl⟩
    · exact h.id k e he
    · exact next_id h hn
  hash k e he := by
    rcases withAdd_event.1 he with he | ⟨rfl, rfl⟩
    · exact h.hash k e he
    · rfl
  each k e he := by
    rcases withAdd_event.1 he with he | ⟨rfl, rfl⟩
    · rcases h.each k e he with ho | ⟨d, x, hp⟩ | ⟨j, x, hp⟩
      · exact .inl (ho.withAdd (hdead k e ho))
      · exact .inr (.inl ⟨d, x, hp.withAdd⟩)
      · exact .inr (.inr ⟨j, x, hp.withAdd⟩)
    · exact .inl open_withAdd

theorem grows_withAdd (h : Linked hashOf m) (obj : α) (hash : UInt32) :
    Grows m (m.withAdd obj hash) where
  length := by
    rw [EventManager.withAdd, List.length_append]
    rfl
  keep e he := ⟨e, List.mem_append_left _ he, rfl, rfl⟩
  pair _ _ _ _ hp := hp.withAdd
  pair_back k a d e hp := by
    rcases withAdd_event.1 hp.event' with he | ⟨-, rfl⟩
    · rcases withAdd_event.1 hp.event with ha | ⟨rfl, -⟩
      · exact .inl (h.pair_of_brother he hp.type' hp.brother' ha)
      · exact absurd hp.lt (by have := lt_of_event he; omega)
    · cases hp.type'
  open_back k a ho := by
    rcases withAdd_event.1 ho.event with ha | ⟨rfl, -⟩
    · exact .inl ⟨ha, ho.type, ho.brother,
        fun j x hx => ho.latest j x (withAdd_event.2 (.inl hx))⟩
    · exact .inr rfl

/-! ### A Delete -/

/-- The list after a Delete whose brother is at `k`. -/
def withDelete (m : EventManager α) (obj : α) (hash : UInt32) (k : Nat) : EventManager α :=
  ⟨m.lastEvent + 1, (m.events.modify k fun e => { e with brother := some m.events.length }) ++
    [⟨m.lastEvent + 1, delete, obj, hash, some k⟩]⟩

theorem withDelete_event : (m.withDelete obj hash k).events[j]? = some e ↔
    (j ≠ k ∧ m.events[j]? = some e ∨
      j = k ∧ ∃ a, m.events[k]? = some a ∧ e = { a with brother := some m.events.length }) ∨
    j = m.events.length ∧ e = ⟨m.lastEvent + 1, delete, obj, hash, some k⟩ := by
  have hold : (m.events.modify k fun e => { e with brother := some m.events.length })[j]? = some e ↔
      j ≠ k ∧ m.events[j]? = some e ∨
        j = k ∧ ∃ a, m.events[k]? = some a ∧ e = { a with brother := some m.events.length } := by
    rw [List.getElem?_modify]
    by_cases hj : k = j
    · subst hj
      cases m.events[k]? <;> simp [eq_comm]
    · simp [hj, Ne.symm hj]
  rw [withDelete, getElem?_snoc, hold, List.length_modify]

/-- The events as they were, but for the brother of one. -/
theorem withDelete_old (h : (m.withDelete obj hash k).events[j]? = some e) :
    (∃ x, m.events[j]? = some x ∧ x.toJson = e.toJson ∧ x.hash = e.hash) ∨
      j = m.events.length ∧ e = ⟨m.lastEvent + 1, delete, obj, hash, some k⟩ := by
  rcases withDelete_event.1 h with (⟨-, he⟩ | ⟨rfl, a, ha, rfl⟩) | hnew
  · exact .inl ⟨e, he, rfl, rfl⟩
  · exact .inl ⟨a, ha, rfl, rfl⟩
  · exact .inr hnew

section
variable (ho : Open m k a)
include ho

theorem Open.withDelete (h : Open m j x) (hne : j ≠ k) :
    Open (m.withDelete a.obj hash k) j x where
  event := withDelete_event.2 (.inl (.inl ⟨hne, h.event⟩))
  type := h.type
  brother := h.brother
  latest i y hy heq := by
    rcases withDelete_old hy with ⟨y', hy', hjson, -⟩ | ⟨-, rfl⟩
    · have hobj : y'.obj = y.obj := congrArg Report.obj hjson
      exact h.latest i y' hy' (hobj.trans heq)
    · exact absurd (h.unique ho heq).symm hne

theorem Pair.withDelete (h : Pair m j x d e) : Pair (m.withDelete a.obj hash k) j x d e where
  event := withDelete_event.2 (.inl (.inl ⟨(h.ne_open ho).1, h.event⟩))
  event' := withDelete_event.2 (.inl (.inl ⟨(h.ne_open ho).2, h.event'⟩))
  type := h.type
  type' := h.type'
  obj := h.obj
  brother := h.brother
  brother' := h.brother'
  lt := h.lt
  between i y hy heq := by
    rcases withDelete_old hy with ⟨y', hy', hjson, -⟩ | ⟨rfl, -⟩
    · have hobj : y'.obj = y.obj := congrArg Report.obj hjson
      exact h.between i y' hy' (hobj.trans heq)
    · exact .inr (Nat.le_of_lt (lt_of_event h.event'))

theorem pair_withDelete : Pair (m.withDelete a.obj hash k) k
    { a with brother := some m.events.length } m.events.length
    ⟨m.lastEvent + 1, delete, a.obj, hash, some k⟩ where
  event := withDelete_event.2 (.inl (.inr ⟨rfl, a, ho.event, rfl⟩))
  event' := withDelete_event.2 (.inr ⟨rfl, rfl⟩)
  type := ho.type
  type' := rfl
  obj := rfl
  brother := rfl
  brother' := rfl
  lt := lt_of_event ho.event
  between i y hy heq := by
    rcases withDelete_old hy with ⟨y', hy', hjson, -⟩ | ⟨rfl, -⟩
    · have hobj : y'.obj = y.obj := congrArg Report.obj hjson
      exact .inl (ho.latest i y' hy' (hobj.trans heq))
    · exact .inr (Nat.le_refl _)

/-- **A Delete** of an object that is there. -/
theorem Linked.withDelete (h : Linked hashOf m) (hn : m.events.length + 1 < 2 ^ 32) :
    Linked hashOf (m.withDelete a.obj (hashOf a.obj) k) where
  count := by
    rw [EventManager.withDelete, next_id h hn, List.length_append, List.length_modify]
    rfl
  id i y hy := by
    rcases withDelete_old hy with ⟨y', hy', hjson, -⟩ | ⟨rfl, rfl⟩
    · have hid : y'.id = y.id := congrArg Report.eventId hjson
      rw [← hid]
      exact h.id i y' hy'
    · exact next_id h hn
  hash i y hy := by
    rcases withDelete_old hy with ⟨y', hy', hjson, hhash⟩ | ⟨rfl, rfl⟩
    · have hobj : y'.obj = y.obj := congrArg Report.obj hjson
      rw [← hhash, ← hobj]
      exact h.hash i y' hy'
    · rfl
  each i y hy := by
    rcases withDelete_event.1 hy with (⟨hne, he⟩ | ⟨rfl, a', ha', rfl⟩) | ⟨rfl, rfl⟩
    · rcases h.each i y he with ho' | ⟨d, x, hp⟩ | ⟨j, x, hp⟩
      · exact .inl (Open.withDelete ho ho' hne)
      · exact .inr (.inl ⟨d, x, hp.withDelete ho⟩)
      · exact .inr (.inr ⟨j, x, hp.withDelete ho⟩)
    · cases ha'.symm.trans ho.event
      exact .inr (.inl ⟨_, _, pair_withDelete ho⟩)
    · exact .inr (.inr ⟨_, _, pair_withDelete ho⟩)

theorem grows_withDelete (h : Linked hashOf m) (hash : UInt32) :
    Grows m (m.withDelete a.obj hash k) where
  length := by
    rw [EventManager.withDelete, List.length_append, List.length_modify]
    rfl
  keep e he := by
    obtain ⟨i, hi⟩ := List.mem_iff_getElem?.1 he
    by_cases hne : i = k
    · subst hne
      cases hi.symm.trans ho.event
      exact ⟨_, List.mem_of_getElem? (pair_withDelete ho).event, rfl, rfl⟩
    · exact ⟨e, List.mem_of_getElem? (withDelete_event.2 (.inl (.inl ⟨hne, hi⟩))), rfl, rfl⟩
  pair _ _ _ _ hp := hp.withDelete ho
  pair_back j x d e hp := by
    rcases withDelete_event.1 hp.event' with (⟨-, he⟩ | ⟨rfl, a', ha', rfl⟩) | ⟨rfl, rfl⟩
    · obtain ⟨i, y, hp'⟩ := h.pair_of_delete he hp.type'
      cases hp'.brother'.symm.trans hp.brother'
      cases (hp'.withDelete ho).event.symm.trans hp.event
      exact .inl hp'
    · cases ha'.symm.trans ho.event
      cases ho.type.symm.trans hp.type'
    · cases hp.brother'
      cases (pair_withDelete ho).event.symm.trans hp.event
      exact .inr ⟨rfl, a, ho, rfl, rfl⟩
  open_back j x ho' := by
    rcases withDelete_event.1 ho'.event with (⟨hne, he⟩ | ⟨rfl, a', ha', rfl⟩) | ⟨rfl, -⟩
    · rcases h.open_or_pair he ho'.type with hold | ⟨d, y, hp⟩
      · exact .inl hold
      · cases hp.brother.symm.trans ho'.brother
    · cases ho'.brother
    · exact .inr rfl

end

/-! ### What the manager does -/

section
variable [DecidableEq α]

/-- The latest Add of an object is found. -/
theorem findBrother_eq (ho : Open m k a) : m.findBrother a.obj = some k := by
  have hlt := lt_of_event ho.event
  have hfound : m.events.reverse.findIdx? (fun e => e.obj = a.obj ∧ e.type = add) =
      some (m.events.length - 1 - k) := by
    rw [List.findIdx?_eq_some_iff_getElem]
    refine ⟨by rw [List.length_reverse]; omega, ?_, fun j hj => ?_⟩
    · have hidx : m.events.length - 1 - (m.events.length - 1 - k) = k := by omega
      have hget := (List.getElem?_eq_some_iff.1 ho.event).2
      simp only [List.getElem_reverse, hidx, hget, ho.type, and_self, decide_true]
    · rw [List.getElem_reverse]
      intro hp
      have hobj := (of_decide_eq_true hp).1
      have hle := ho.latest _ _ (List.getElem?_eq_getElem (by omega)) hobj
      omega
  rw [findBrother, hfound]
  simp only [Option.map_some, Option.some.injEq]
  omega

theorem addToEventList_zero {type : EventType} : m.addToEventList type obj 0 = some m := if_pos rfl

theorem addToEventList_add (hh : hash ≠ 0) :
    m.addToEventList add obj hash = some (m.withAdd obj hash) := by
  rw [addToEventList, if_neg hh]
  rfl

theorem addToEventList_delete (hh : hash ≠ 0) (ho : Open m k a) :
    m.addToEventList delete a.obj hash = some (m.withDelete a.obj hash k) := by
  simp only [addToEventList, if_neg hh, if_true, findBrother_eq ho]
  rfl

end

theorem Open.checkOverlap (h : Open m k a) : m.checkOverlap a last = some false := by
  simp only [EventManager.checkOverlap, h.type, h.brother, Option.isSome_none]

theorem Pair.checkOverlap_add (h : Pair m k a d e) : m.checkOverlap a last = some true := by
  simp only [EventManager.checkOverlap, h.type, h.brother, Option.isSome_some]

theorem Pair.checkOverlap_delete (h : Pair m k a d e) :
    m.checkOverlap e last = some !decide (a.id ≤ last) := by
  simp only [EventManager.checkOverlap, h.type', h.brother', Option.bind_some, h.event]

theorem Linked.checkOverlap (h : Linked hashOf m) (hk : m.events[k]? = some e) :
    ∃ b, m.checkOverlap e last = some b := by
  rcases h.each k e hk with ho | ⟨d, x, hp⟩ | ⟨j, x, hp⟩
  · exact ⟨_, ho.checkOverlap⟩
  · exact ⟨_, hp.checkOverlap_add⟩
  · exact ⟨_, hp.checkOverlap_delete⟩

/-! ## What is sent -/

/-- The event is sent to a client that knows the event `last`. -/
def Sends (m : EventManager α) (hashMap last : UInt32) (e : Event α) : Prop :=
  e.hash &&& hashMap ≠ 0 ∧ last < e.id ∧ m.checkOverlap e last = some false

instance (m : EventManager α) (hashMap last : UInt32) (e : Event α) :
    Decidable (m.Sends hashMap last e) := inferInstanceAs (Decidable (_ ∧ _ ∧ _))

variable (hashMap last) in
/-- The loop of `timeout`. -/
theorem collect_spec (g : UInt32) (sent : List (Report α)) {l : List (Event α)}
    (hl : ∀ e ∈ l, ∃ b, m.checkOverlap e last = some b) :
    ∃ g', l.foldlM (m.collect hashMap last) (g, sent) =
        some (g', sent ++ (l.filter fun e => m.Sends hashMap last e).map Event.toJson) ∧
      g ≤ g' ∧ (∀ e ∈ l, m.Sends hashMap last e → e.id ≤ g') ∧
      (g' = g ∨ ∃ e ∈ l, m.Sends hashMap last e ∧ g' = e.id) := by
  induction l generalizing g sent with
  | nil => exact ⟨g, by simp, UInt32.le_refl g, nofun, .inl rfl⟩
  | cons e l ih =>
    obtain ⟨b, hb⟩ := hl e List.mem_cons_self
    have hl' : ∀ e ∈ l, ∃ b, m.checkOverlap e last = some b :=
      fun x hx => hl x (List.mem_cons_of_mem _ hx)
    by_cases hs : m.Sends hashMap last e
    · have hstep : m.collect hashMap last (g, sent) e =
          some (if g < e.id then e.id else g, sent ++ [e.toJson]) := by
        simp only [collect, hs.1, hs.2.1, hs.2.2, ne_eq, not_false_eq_true, and_self, if_true]
      have hmax : g ≤ (if g < e.id then e.id else g) ∧ e.id ≤ if g < e.id then e.id else g := by
        split
        · exact ⟨UInt32.le_of_lt ‹_›, UInt32.le_refl _⟩
        · exact ⟨UInt32.le_refl _, UInt32.not_lt.1 ‹_›⟩
      obtain ⟨g', hfold, hle, hbound, hlast⟩ :=
        ih (if g < e.id then e.id else g) (sent ++ [e.toJson]) hl'
      refine ⟨g', ?_, UInt32.le_trans hmax.1 hle, fun x hx hsx => ?_, ?_⟩
      · rw [List.append_assoc] at hfold
        rw [List.foldlM_cons, hstep, List.filter_cons_of_pos (by simpa using hs)]
        exact hfold
      · rcases List.mem_cons.1 hx with rfl | hx
        · exact UInt32.le_trans hmax.2 hle
        · exact hbound x hx hsx
      · rcases hlast with heq | ⟨x, hx, hsx, heq⟩
        · by_cases hg : g < e.id
          · exact .inr ⟨e, List.mem_cons_self, hs, by rw [heq, if_pos hg]⟩
          · exact .inl (by rw [heq, if_neg hg])
        · exact .inr ⟨x, List.mem_cons_of_mem _ hx, hsx, heq⟩
    · have hstep : m.collect hashMap last (g, sent) e = some (g, sent) := by
        unfold collect
        split
        · rename_i hnew
          cases b with
          | true => simp only [hb]
          | false => exact absurd ⟨hnew.1, hnew.2, hb⟩ hs
        · rfl
      obtain ⟨g', hfold, hle, hbound, hlast⟩ := ih g sent hl'
      refine ⟨g', ?_, hle, fun x hx hsx => ?_, ?_⟩
      · rw [List.foldlM_cons, hstep, List.filter_cons_of_neg (by simpa using hs)]
        exact hfold
      · rcases List.mem_cons.1 hx with rfl | hx
        · exact absurd hsx hs
        · exact hbound x hx hsx
      · rcases hlast with heq | ⟨x, hx, hsx, heq⟩
        · exact .inl heq
        · exact .inr ⟨x, List.mem_cons_of_mem _ hx, hsx, heq⟩

/-- **What `timeout` returns**: what is to be sent, in the order of the list, and the last of it. -/
theorem timeout_spec (h : Linked hashOf m) (hashMap last : UInt32) :
    ∃ mark, m.timeout hashMap last =
        some (mark, (m.events.filter fun e => m.Sends hashMap last e).map Event.toJson) ∧
      (∀ e ∈ m.events, m.Sends hashMap last e → e.id ≤ mark) ∧
      ((mark = last ∧ ∀ e ∈ m.events, ¬ m.Sends hashMap last e) ∨
        ∃ e ∈ m.events, m.Sends hashMap last e ∧ mark = e.id) := by
  obtain ⟨g, hfold, -, hbound, hlast⟩ := collect_spec hashMap last 0 []
    fun e he => by
      obtain ⟨k, hk⟩ := List.mem_iff_getElem?.1 he
      exact h.checkOverlap hk
  have hpos : ∀ e ∈ m.events, e.id ≠ 0 := by
    intro e he hzero
    obtain ⟨k, hk⟩ := List.mem_iff_getElem?.1 he
    have hid := h.id k e hk
    rw [hzero] at hid
    cases hid
  refine ⟨if g = 0 then last else g, ?_, ?_⟩
  · rw [timeout, hfold]
    rfl
  · rcases hlast with rfl | ⟨e, he, hs, rfl⟩
    · -- an event that is sent has an id of at most 0
      have hnone : ∀ e ∈ m.events, ¬ m.Sends hashMap last e := fun e he hs =>
        hpos e he (UInt32.le_zero_iff.1 (hbound e he hs))
      exact ⟨fun e he hs => absurd hs (hnone e he), .inl ⟨if_pos rfl, hnone⟩⟩
    · rw [if_neg (hpos e he)]
      exact ⟨hbound, .inr ⟨e, he, hs, rfl⟩⟩

end EventManager

end Rest
