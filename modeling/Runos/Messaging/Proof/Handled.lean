import Runos.Lib.Fallible
import Runos.Messaging.Proof.Entries

/-!
# Which committed entries can be applied

`process_entries` trusts the text of an entry: it reads the tokens of its kind and converts them
unchecked, and looks at the front of `request_queue` whatever the queue holds. `entry_handled_iff`
says exactly when an entry is handled in a reachable state: the queue is not empty and the text is
`WellFormed`. The graph itself never stands in the way (`TopologyImpl.Ok`, kept by `Ok.run`), and an
entry of another kind leaves the topology as it was.
-/

namespace Messaging

open Signal Runs Topology Fallible

/-! ## Texts that are read -/

/-- The text after its blanks and its sign. -/
def unsigned (text : String) : List Char :=
  match text.toList.dropWhile Stream.isSpace with
  | '-' :: rest | '+' :: rest => rest
  | text => text

/-- After blanks and a sign, the text starts with a decimal number of 64 bits. -/
def IsNumeral (text : String) : Prop :=
  (unsigned text).takeWhile Char.isDigit ≠ [] ∧
    Nat.ofDigitChars 10 ((unsigned text).takeWhile Char.isDigit) 0 < 2 ^ 64

/-- The text is four groups of at most three digits, with a character between them. -/
def IsAddress (text : String) : Prop := IPv4Addr.matchOctets 4 text.toList ≠ none

/-- There is a token at the index, and it satisfies `P`. -/
def TokenIs (P : String → Prop) (tokens : List String) (i : Nat) : Prop := ∃ t ∈ tokens[i]?, P t

/-- The tokens have a kind, and those that an entry of the kind is read from are there and can be
converted. -/
structure WellFormed (tokens : List String) : Prop where
  kind : 3 ≤ tokens.length
  host : tokens[2]? = some "hostDiscovered" →
    TokenIs IsNumeral tokens 5 ∧ TokenIs IsNumeral tokens 6 ∧ TokenIs IsAddress tokens 7
  link : tokens[2]? = some "linkDiscovered" ∨ tokens[2]? = some "linkBroken" →
    ∀ i, 3 ≤ i → i < 7 → TokenIs IsNumeral tokens i

instance : DecidablePred IsNumeral := fun _ => inferInstanceAs (Decidable (_ ∧ _))

instance : DecidablePred IsAddress := fun _ => inferInstanceAs (Decidable (_ ≠ _))

instance (P : String → Prop) [DecidablePred P] (tokens : List String) (i : Nat) :
    Decidable (TokenIs P tokens i) := inferInstanceAs (Decidable (∃ t ∈ tokens[i]?, _))

/-- The number that is read, with its sign and the rest of the text left open. -/
theorem integer_eq (text : String) : ∃ negative rest, Stream.integer text.toList =
    let digits := (unsigned text).takeWhile Char.isDigit
    if digits = [] then .error .failbit
    else .ok ((negative, Nat.ofDigitChars 10 digits 0), rest) := by
  unfold Stream.integer unsigned
  split
  · rename_i h
    simp only [h]
    exact ⟨_, _, rfl⟩
  · rename_i h
    simp only [h]
    exact ⟨_, _, rfl⟩
  · simp only
    exact ⟨_, _, rfl⟩

theorem exists_stoull (text : String) : (∃ n, stoull text = .ok n) ↔ IsNumeral text := by
  obtain ⟨negative, rest, h⟩ := integer_eq text
  rw [stoull, h, IsNumeral]
  by_cases hnil : (unsigned text).takeWhile Char.isDigit = []
  · rw [if_pos hnil]
    exact iff_of_false (not_exists_error _) fun h' => h'.1 hnil
  · rw [if_neg hnil]
    simp only [← not_le]
    split
    · rename_i hle
      exact iff_of_false (not_exists_error _) fun h' => h'.2 hle
    · rename_i hlt
      exact iff_of_true ⟨_, rfl⟩ ⟨hnil, hlt⟩

theorem exists_stoPort (text : String) : (∃ n, stoPort text = .ok n) ↔ IsNumeral text := by
  rw [← exists_stoull, stoPort]
  cases stoull text <;> simp [bind, Except.bind]

theorem exists_toIPv4Addr (text : String) :
    (∃ ip, toIPv4Addr text = .ok ip) ↔ IsAddress text := by
  rw [toIPv4Addr, IPv4Addr.parseIPv4Address, IsAddress]
  cases IPv4Addr.matchOctets 4 text.toList <;> simp [Except.mapError]

/-- Converting a token. -/
theorem exists_bind_token {α β : Type} {f : String → Except Fault α} {P : String → Prop}
    (hf : ∀ t, (∃ a, f t = .ok a) ↔ P t) (tokens : List String) (i : Nat)
    {k : α → Except Fault β} {Q : Prop} (hk : ∀ a, (∃ b, k a = .ok b) ↔ Q) :
    (∃ b, (token tokens i >>= fun t => f t >>= k) = .ok b) ↔ TokenIs P tokens i ∧ Q := by
  rw [token, TokenIs]
  cases tokens[i]? with
  | none => simp [bind, Except.bind]
  | some t =>
    cases hft : f t with
    | error e =>
      have ht : ¬ P t := by rw [← hf, hft]; simp
      simp [bind, Except.bind, hft, ht]
    | ok a =>
      have ht : P t := (hf t).1 ⟨a, hft⟩
      simp [bind, Except.bind, hft, ht, hk]

theorem exists_readLink (tokens : List String) :
    (∃ k, readLink tokens = .ok k) ↔ ∀ i, 3 ≤ i → i < 7 → TokenIs IsNumeral tokens i := by
  have hread : (∃ k, readLink tokens = .ok k) ↔ TokenIs IsNumeral tokens 3 ∧
      TokenIs IsNumeral tokens 4 ∧ TokenIs IsNumeral tokens 5 ∧ TokenIs IsNumeral tokens 6 ∧
      True := by
    refine exists_bind_token exists_stoull tokens 3 fun _ => ?_
    refine exists_bind_token exists_stoPort tokens 4 fun _ => ?_
    refine exists_bind_token exists_stoull tokens 5 fun _ => ?_
    exact exists_bind_token exists_stoPort tokens 6 fun _ => by simp
  rw [hread]
  constructor
  · rintro ⟨h3, h4, h5, h6, -⟩ i hlo hhi
    obtain rfl | rfl | rfl | rfl : i = 3 ∨ i = 4 ∨ i = 5 ∨ i = 6 := by omega
    · exact h3
    · exact h4
    · exact h5
    · exact h6
  · intro h
    exact ⟨h 3 (by omega) (by omega), h 4 (by omega) (by omega), h 5 (by omega) (by omega),
      h 6 (by omega) (by omega), trivial⟩

theorem TokenIs.lt_length {P : String → Prop} {tokens : List String} {i : Nat}
    (h : TokenIs P tokens i) : i < tokens.length := by
  obtain ⟨t, ht, -⟩ := h
  exact (List.getElem?_eq_some_iff.1 ht).1

/-! ## One entry -/

section
variable {ndebug : Bool} {choice : EdgeChoice LinkProperty} {s s' : Messaging}
  {tokens : List String} {m : TopologyImpl}

theorem exists_processHostDiscovered (s : Messaging) (tokens : List String) :
    (∃ s', s.processHostDiscovered tokens = .ok s') ↔
      TokenIs IsNumeral tokens 5 ∧ TokenIs IsNumeral tokens 6 ∧ TokenIs IsAddress tokens 7 := by
  cases h4 : tokens[4]? with
  | none =>
    have hlen := List.getElem?_eq_none_iff.1 h4
    simp only [processHostDiscovered, token, h4, bind, Except.bind, reduceCtorEq, exists_false,
      false_iff]
    intro h
    have := h.2.2.lt_length
    omega
  | some mac =>
    have hread : (∃ s', s.processHostDiscovered tokens = .ok s') ↔ TokenIs IsAddress tokens 7 ∧
        TokenIs IsNumeral tokens 5 ∧ TokenIs IsNumeral tokens 6 ∧ True := by
      rw [processHostDiscovered, token, h4]
      refine exists_bind_token exists_toIPv4Addr tokens 7 fun _ => ?_
      refine exists_bind_token exists_stoull tokens 5 fun _ => ?_
      exact exists_bind_token exists_stoPort tokens 6 fun _ => by simp
    refine hread.trans ?_
    constructor
    · intro h
      exact ⟨h.2.1, h.2.2.1, h.1⟩
    · intro h
      exact ⟨h.2.2, h.1, h.2.1, trivial⟩

theorem linkDiscovered_ok (ndebug : Bool) (choice : EdgeChoice LinkProperty) (h : m.Ok)
    (k : PortPair) : ∃ m', linkDiscovered ndebug choice m k.1 k.2 = .ok m' ∧ m'.Ok := by
  by_cases hd : k.1.dpid = k.2.dpid
  · exact ⟨m, by rw [linkDiscovered, if_pos hd], h⟩
  · obtain ⟨m', hm', hok, -⟩ := linkDiscovered_spec ndebug choice h hd
    exact ⟨m', hm', hok⟩

/-- Reading the two ports of a link, then a change of the graph that always returns. -/
theorem exists_bind_readLink {f : PortPair → Except Fault TopologyImpl}
    (hf : ∀ k, ∃ m', f k = .ok m' ∧ m'.Ok) (s : Messaging) (tokens : List String) :
    (∃ s', (readLink tokens >>= fun k => f k >>= fun m' => .ok { s with m := m' }) = .ok s') ↔
      ∀ i, 3 ≤ i → i < 7 → TokenIs IsNumeral tokens i := by
  rw [← exists_readLink]
  cases readLink tokens with
  | error e => simp [bind, Except.bind]
  | ok k =>
    obtain ⟨m', hm', -⟩ := hf k
    simp [bind, Except.bind, hm']

/-- An entry is read from its tokens alone: the graph never stops it. -/
theorem exists_processTokens (ndebug : Bool) (choice : EdgeChoice LinkProperty) (h : s.m.Ok)
    (tokens : List String) :
    (∃ s', s.processTokens ndebug choice tokens = .ok s') ↔ WellFormed tokens := by
  have hup := exists_bind_readLink (f := fun k => linkDiscovered ndebug choice s.m k.1 k.2)
    (linkDiscovered_ok ndebug choice h) s tokens
  have hdown := exists_bind_readLink (f := fun k => linkBroken ndebug s.m k.1 k.2)
    (fun k => (linkBroken_spec ndebug h k).imp fun _ hm => ⟨hm.1, hm.2.1⟩) s tokens
  unfold processTokens
  cases h2 : tokens[2]? with
  | none =>
    have hlen := List.getElem?_eq_none_iff.1 h2
    simp only [token, h2, bind, Except.bind, reduceCtorEq, exists_false, false_iff]
    intro hw
    have := hw.kind
    omega
  | some kind =>
    have hlen := (List.getElem?_eq_some_iff.1 h2).1
    have htok : token tokens 2 = .ok kind := by rw [token, h2]
    simp only [htok, bind, Except.bind]
    split
    · rename_i hk
      subst hk
      rw [exists_processHostDiscovered]
      exact ⟨fun hr => ⟨hlen, fun _ => hr, by simp [h2]⟩, fun hw => hw.host h2⟩
    · rename_i hhost
      split
      · rename_i hk
        subst hk
        refine hup.trans ⟨fun hr => ⟨hlen, by simp [h2], fun _ => hr⟩, fun hw => hw.link (.inl h2)⟩
      · rename_i hdisc
        split
        · rename_i hk
          subst hk
          refine hdown.trans
            ⟨fun hr => ⟨hlen, by simp [h2], fun _ => hr⟩, fun hw => hw.link (.inr h2)⟩
        · rename_i hbroken
          exact iff_of_true ⟨s, rfl⟩ ⟨hlen, by simp [h2, hhost], by simp [h2, hdisc, hbroken]⟩

theorem processTokens_keeps (h : s.m.Ok) (hs : s.processTokens ndebug choice tokens = .ok s') :
    s'.requestQueue = s.requestQueue ∧ s'.m.Ok ∧
      (tokens[2]? ∉ [some "hostDiscovered", some "linkDiscovered", some "linkBroken"] →
        s' = s) := by
  obtain ⟨kind, htok, hs⟩ := bind_ok hs
  have h2 : tokens[2]? = some kind := by
    unfold token at htok
    split at htok
    · cases htok; assumption
    · cases htok
  split at hs
  · rename_i hk
    obtain ⟨mac, -, hs⟩ := bind_ok hs
    obtain ⟨t7, -, hs⟩ := bind_ok hs
    obtain ⟨ip, -, hs⟩ := bind_ok hs
    obtain ⟨t5, -, hs⟩ := bind_ok hs
    obtain ⟨switchID, -, hs⟩ := bind_ok hs
    obtain ⟨t6, -, hs⟩ := bind_ok hs
    obtain ⟨switchPort, -, hs⟩ := bind_ok hs
    cases hs
    exact ⟨rfl, h, fun hn => absurd (by simp [h2, hk]) hn⟩
  · split at hs
    · rename_i hk
      obtain ⟨k, -, hs⟩ := bind_ok hs
      obtain ⟨m, hm, hs⟩ := bind_ok hs
      cases hs
      obtain ⟨m', hm', hok⟩ := linkDiscovered_ok ndebug choice h k
      cases hm.symm.trans hm'
      exact ⟨rfl, hok, fun hn => absurd (by simp [h2, hk]) hn⟩
    · split at hs
      · rename_i hk
        obtain ⟨k, -, hs⟩ := bind_ok hs
        obtain ⟨m, hm, hs⟩ := bind_ok hs
        cases hs
        obtain ⟨m', hm', hok, -⟩ := linkBroken_spec ndebug h k
        cases hm.symm.trans hm'
        exact ⟨rfl, hok, fun hn => absurd (by simp [h2, hk]) hn⟩
      · cases hs
        exact ⟨rfl, h, fun _ => rfl⟩

theorem popRequest_keeps (hs : s.popRequest tokens = .ok s') :
    s.requestQueue ≠ [] ∧ s'.m = s.m ∧ s'.hosts = s.hosts := by
  unfold popRequest at hs
  split at hs
  · cases hs
  · rename_i hq
    rw [hq]
    split at hs <;> cases hs <;> exact ⟨by simp, rfl, rfl⟩

/-- The call returns, and an entry that it does not recognise leaves the topology as it was. -/
def Handled (ndebug : Bool) (choice : EdgeChoice LinkProperty) (s : Messaging) (data : String) :
    Prop :=
  ∃ s', s.processEntries ndebug choice [data] = .ok s' ∧
    ((split data)[2]? ∉ [some "hostDiscovered", some "linkDiscovered", some "linkBroken"] →
      s'.m = s.m ∧ s'.hosts = s.hosts)

theorem processEntries_single (s : Messaging) (data : String) :
    s.processEntries ndebug choice [data] = s.processEntry ndebug choice data := by
  rw [processEntries, List.foldlM_cons]
  exact bind_pure _

theorem handled_iff (h : s.m.Ok) (data : String) :
    Handled ndebug choice s data ↔ s.requestQueue ≠ [] ∧ WellFormed (split data) := by
  rw [← exists_processTokens ndebug choice h]
  constructor
  · rintro ⟨s', hs, -⟩
    rw [processEntries_single] at hs
    obtain ⟨s₁, hs₁, hs⟩ := bind_ok hs
    refine ⟨?_, s₁, hs₁⟩
    rw [← (processTokens_keeps h hs₁).1]
    exact (popRequest_keeps hs).1
  · rintro ⟨hq, s₁, hs₁⟩
    obtain ⟨hq₁, -, hsame⟩ := processTokens_keeps h hs₁
    rcases popRequest_spec s₁ (split data) with ⟨hnil, -⟩ | ⟨-, s', hs', -⟩
    · exact absurd (hq₁.symm.trans hnil) hq
    · refine ⟨s', ?_, fun hn => ?_⟩
      · rw [processEntries_single, processEntry, hs₁]
        exact hs'
      · obtain ⟨-, hm, hhosts⟩ := popRequest_keeps hs'
        rw [hsame hn] at hm hhosts
        exact ⟨hm, hhosts⟩

/-! ## Runs -/

/-- Whatever a node receives and processes, its graph stays in order. -/
theorem Replica.ok_run {clientId : String} {h : List (Replica × Replica.Event)} {s : Replica}
    (hr : Trace (Replica.step ndebug choice) (fun _ _ => True) (.init clientId) h s) :
    s.app.m.Ok := by
  refine hr.invariant_state (I := fun s => s.app.m.Ok) .init ?_
  intro s e s' hok _ hstep
  cases e with
  | event e =>
    obtain ⟨app, happ, hs⟩ := bind_ok hstep
    cases hs
    rcases receive_spec happ with rfl | ⟨request, rfl⟩
    · exact hok
    · exact hok
  | entry data =>
    obtain ⟨app, happ, hs⟩ := bind_ok hstep
    cases hs
    rw [processEntries_single] at happ
    obtain ⟨s₁, hs₁, hs⟩ := bind_ok happ
    show app.m.Ok
    rw [(popRequest_keeps hs).2.1]
    exact (processTokens_keeps hok hs₁).2.1

end

end Messaging
