import Runos.Lib.Priority
import Runos.Maple.Proof.Tracing

/-!
# The rules of a compiled tree

`Node.rules` lists the rules of a tree in the order in which the compiler installs them, without
the mutable match set; on a well-formed tree the compiler installs exactly these
(`compile_eq`), with consecutive priorities. `Node.claimant` says from the tree alone which flow's
rule decides for a packet when only the flows of `adds` get a rule (`lastMatch_rules`); with the
barrier among them it is the result of `lookup` (`claimant_of_lookup`), from which
`compile_agrees_lookup` follows.
-/

namespace Maple

open Oxm OxmType Priority

variable {τ : Type} [OxmType τ] {D F β : Type} {t : τ}

/-! ## The installed rules -/

/-- The match sets and flows that the compiler installs below the match set `M`, in order. -/
def Node.rules [DecidableEq τ] (alive : F → Bool) (barrier : F) :
    FieldSet τ → Node τ F → List (FieldSet τ × F)
  | _, .unexplored => []
  | M, .flow f => if alive f then [(M, f)] else []
  | M, .test _ need positive negative =>
    negative.rules alive barrier M ++ [(M.modify need, barrier)] ++
      positive.rules alive barrier (M.modify need)
  | M, .load _ mask keys cases =>
    keys.flatMap fun key => (cases key).rules alive barrier (M.modify (Field.make key mask))

/-- Installing rules one after the other, from the priority `p` on. -/
def installAll (B : Backend τ F β) : List (FieldSet τ × F) → Nat → β → Except (Exc × β) β
  | [], _, b => .ok b
  | r :: rs, p, b => B.install p r.1 r.2 b >>= installAll B rs ((p + 1) % 2 ^ 16)

variable (B : Backend τ F β) (alive : F → Bool) (barrier : F)

theorem installAll_append {rs rs' : List (FieldSet τ × F)} {p : Nat} (hp : p < 2 ^ 16) (b : β) :
    installAll B (rs ++ rs') p b =
      installAll B rs p b >>= installAll B rs' ((p + rs.length) % 2 ^ 16) := by
  induction rs generalizing p b with
  | nil => rw [List.length_nil, Nat.add_zero, Nat.mod_eq_of_lt hp]; rfl
  | cons r rs ih =>
    simp only [List.cons_append, installAll, bind_assoc]
    congr 1
    funext b'
    rw [ih (Nat.mod_lt _ (by decide)), Nat.mod_add_mod, List.length_cons, Nat.add_assoc,
      Nat.add_comm 1]

/-- What a visit of the compiler leaves: the backend moved on, the match set is as before. -/
def Visited (M : FieldSet τ) (p : Nat) (rs : List (FieldSet τ × F)) (b : β) :
    Except (Exc × β) (Compiler τ β) :=
  installAll B rs p b >>= fun b' => .ok ⟨b', M, (p + rs.length) % 2 ^ 16⟩

theorem visited_nil (M : FieldSet τ) {p : Nat} (hp : p < 2 ^ 16) (b : β) :
    Visited B M p [] b = .ok ⟨b, M, p⟩ := by
  simp only [Visited, installAll, bind, Except.bind, List.length_nil, Nat.add_zero,
    Nat.mod_eq_of_lt hp]

theorem install_eq (M : FieldSet τ) (p : Nat) (b : β) (f : F) :
    Compiler.install B ⟨b, M, p⟩ f = Visited B M p [(M, f)] b := by
  simp only [Compiler.install, Visited, installAll, bind_assoc]
  rfl

theorem visited_bind {M : FieldSet τ} {rs rs' : List (FieldSet τ × F)} {p : Nat}
    (hp : p < 2 ^ 16) {b : β} {k : Compiler τ β → Except (Exc × β) (Compiler τ β)}
    {M' : FieldSet τ} (hk : ∀ b' p', p' < 2 ^ 16 → k ⟨b', M, p'⟩ = Visited B M' p' rs' b') :
    Visited B M p rs b >>= k = Visited B M' p (rs ++ rs') b := by
  simp only [Visited, installAll_append B hp, bind_assoc]
  congr 1
  funext b'
  change k _ = _
  rw [hk _ _ (Nat.mod_lt _ (by decide)), Visited]
  simp only [Nat.mod_add_mod, List.length_append, Nat.add_assoc]

section
variable [DecidableEq τ]

theorem compile_load {M : FieldSet τ} {mask : Mask t} {keys : List (Bits t)}
    {cases : Bits t → Node τ F} (hM : M.Proper) (hf : M.Free mask)
    (ih : ∀ key ∈ keys, ∀ (b : β) p, p < 2 ^ 16 →
      (cases key).compile B alive barrier ⟨b, M.modify (Field.make key mask), p⟩ =
        Visited B (M.modify (Field.make key mask)) p
          ((cases key).rules alive barrier (M.modify (Field.make key mask))) b)
    {p : Nat} (hp : p < 2 ^ 16) (b : β) :
    (Node.load t mask keys cases).compile B alive barrier ⟨b, M, p⟩ =
      Visited B M p ((Node.load t mask keys cases).rules alive barrier M) b := by
  simp only [Node.compile, Node.rules]
  induction keys generalizing p b with
  | nil => exact (visited_nil B M hp b).symm
  | cons key keys ihk =>
    rw [List.foldlM_cons, List.flatMap_cons]
    simp only [bind_assoc]
    rw [ih key List.mem_cons_self b p hp]
    refine visited_bind B hp fun b' p' hp' => ?_
    rw [pure_bind]
    dsimp only
    have hr : (M.modify (Field.make key mask)).erase mask = M :=
      FieldSet.erase_modify (f := Field.make key mask) hM hf
    rw [hr]
    exact ihk (fun key' hk' => ih key' (List.mem_cons_of_mem _ hk')) hp' b'

/-- **The compiler installs the rules of the tree**, and leaves its match set as it was. -/
theorem compile_eq (n : Node τ F) {M : FieldSet τ} (hn : n.WF M) (hM : M.Proper) {p : Nat}
    (hp : p < 2 ^ 16) (b : β) :
    n.compile B alive barrier ⟨b, M, p⟩ = Visited B M p (n.rules alive barrier M) b := by
  induction n generalizing M p b with
  | unexplored => exact (visited_nil B M hp b).symm
  | flow f =>
    simp only [Node.compile, Node.rules]
    split
    · exact install_eq B M p b f
    · exact (visited_nil B M hp b).symm
  | test t need pos neg ihp ihn =>
    obtain ⟨hw, hf, hp', hn'⟩ := hn
    simp only [Node.compile, Node.rules, List.append_assoc]
    rw [ihn hn' hM hp b]
    refine visited_bind B hp fun b1 p1 hp1 => ?_
    rw [install_eq]
    refine visited_bind B hp1 fun b2 p2 hp2 => ?_
    rw [ihp hp' (hM.modify hw) hp2 b2]
    simp only [Visited, bind_assoc]
    congr 1
    funext b3
    change Except.ok _ = Except.ok _
    dsimp only
    rw [FieldSet.erase_modify hM hf]
  | load t mask keys cases ih =>
    obtain ⟨hw, hf, hk⟩ := hn
    refine compile_load B alive barrier hM hf (fun key hkey b' p' hp' => ?_) hp b
    exact ih key (hk key hkey).2 (hM.modify hw) hp' b'

end

/-! ## The rule that decides -/

/-- The flow whose rule decides for `q`, when only the flows of `adds` have a rule. -/
def Node.claimant (alive adds : F → Bool) (barrier : F) (q : Packet τ) : Node τ F → Option F
  | .unexplored => none
  | .flow f => if alive f && adds f then some f else none
  | .test _ need positive negative =>
    if q.test need = some true then
      (positive.claimant alive adds barrier q).or
        ((if adds barrier then some barrier else none).or
          (negative.claimant alive adds barrier q))
    else negative.claimant alive adds barrier q
  | .load _ mask keys cases =>
    match q.load mask with
    | none => none
    | some f => if f.value ∈ keys then (cases f.value).claimant alive adds barrier q else none

variable {q : Packet τ} {M : FieldSet τ} {n : Node τ F} {adds : F → Bool}

theorem has_make_iff {mask : Mask t} {key : Bits t} (hk : (Field.make key mask).value = key) :
    q.Has (Field.make key mask) ↔ ∃ f, q.load mask = some f ∧ f.value = key := by
  constructor
  · rintro ⟨v, hv, hb⟩
    have hm : Field.make v mask = Field.make key mask := by
      refine Field.ext_get fun i => ?_
      cases h : (Field.make key mask).get i with
      | some b =>
        have hi := hb i b h
        rw [Field.get_make] at h ⊢
        split at h
        · rename_i hmi; rw [if_pos hmi, hi]
        · cases h
      | none =>
        rw [Field.get_make] at h ⊢
        split at h
        · cases h
        · rename_i hmi; rw [if_neg hmi]
    exact ⟨_, Packet.load_eq_some.2 ⟨v, hv, hm⟩, hk⟩
  · rintro ⟨f, hf, rfl⟩
    obtain ⟨v, hv, rfl⟩ := Packet.load_eq_some.1 hf
    refine ⟨v, hv, fun i b hi => ?_⟩
    have hv' : Field.make (Field.make v mask).value mask = Field.make v mask := make_value_mask _
    rw [hv', Field.get_make] at hi
    split at hi
    · simpa using hi
    · cases hi

section
variable [DecidableEq τ]

/-- Below a match set that does not admit the packet, no rule does. -/
theorem not_admits_of_mem_rules (hn : n.WF M) (hq : ¬ M.admits q = true) :
    ∀ r ∈ n.rules alive barrier M, ¬ r.1.admits q = true := by
  induction n generalizing M with
  | unexplored => simp [Node.rules]
  | flow f =>
    simp only [Node.rules]
    split
    · intro r hr; cases List.mem_singleton.1 hr; exact hq
    · simp
  | test t need pos neg ihp ihn =>
    obtain ⟨hw, hf, hp, hn'⟩ := hn
    have hq' : ¬ (M.modify need).admits q = true := fun h =>
      hq ((FieldSet.admits_modify hf).1 h).1
    intro r hr
    simp only [Node.rules, List.mem_append, List.mem_singleton] at hr
    rcases hr with (hr | rfl) | hr
    · exact ihn hn' hq r hr
    · exact hq'
    · exact ihp hp hq' r hr
  | load t mask keys cases ih =>
    obtain ⟨hw, hf, hk⟩ := hn
    intro r hr
    obtain ⟨key, hkey, hr⟩ := List.mem_flatMap.1 hr
    refine ih key (hk key hkey).2 (fun h => hq ?_) r hr
    exact ((FieldSet.admits_modify (f := Field.make key mask) hf).1 h).1

theorem lastMatch_rules_eq_none (hn : n.WF M) (hq : ¬ M.admits q = true) :
    lastMatch (fun r => adds r.2 && r.1.admits q) (n.rules alive barrier M) = none := by
  rw [lastMatch_eq_none]
  intro r hr
  have := not_admits_of_mem_rules alive barrier hn hq r hr
  simp [this]

/-- **The highest rule that matches** is the claimant's. -/
theorem lastMatch_rules (adds : F → Bool) (hn : n.WF M) (hq : M.admits q = true) :
    (lastMatch (fun r => adds r.2 && r.1.admits q) (n.rules alive barrier M)).map Prod.snd =
      n.claimant alive adds barrier q := by
  induction n generalizing M with
  | unexplored => rfl
  | flow f =>
    simp only [Node.rules, Node.claimant]
    by_cases ha : alive f <;> by_cases hd : adds f <;> simp [ha, hd, hq]
  | test t need pos neg ihp ihn =>
    obtain ⟨hw, hf, hp, hn'⟩ := hn
    simp only [Node.rules, Node.claimant, lastMatch_append, lastMatch_singleton]
    by_cases ht : q.test need = some true
    · have hq' : (M.modify need).admits q = true :=
        (FieldSet.admits_modify hf).2 ⟨hq, Packet.test_eq_true.1 ht⟩
      rw [if_pos ht, ← ihp hp hq', ← ihn hn' hq, hq', Bool.and_true, Option.map_or, Option.map_or]
      congr 2
      split <;> rfl
    · have hq' : ¬ (M.modify need).admits q = true := fun h =>
        ht (Packet.test_eq_true.2 ((FieldSet.admits_modify hf).1 h).2)
      rw [if_neg ht, ← ihn hn' hq, lastMatch_rules_eq_none alive barrier hp hq']
      simp [hq']
  | load t mask keys cases ih =>
    obtain ⟨hw, hf, hk⟩ := hn
    simp only [Node.rules, Node.claimant]
    have hadm : ∀ key ∈ keys, (M.modify (Field.make key mask)).admits q = true ↔
        ∃ f, q.load mask = some f ∧ f.value = key := by
      intro key hkey
      rw [FieldSet.admits_modify (f := Field.make key mask) hf, has_make_iff (hk key hkey).1]
      exact ⟨And.right, fun h => ⟨hq, h⟩⟩
    cases hl : q.load mask with
    | none =>
      have hnone : lastMatch (fun r : FieldSet τ × F => adds r.2 && r.1.admits q)
          (keys.flatMap fun key =>
            (cases key).rules alive barrier (M.modify (Field.make key mask))) = none := by
        rw [lastMatch_eq_none]
        intro r hr
        obtain ⟨key, hkey, hr⟩ := List.mem_flatMap.1 hr
        have hna : ¬ (M.modify (Field.make key mask)).admits q = true := by
          rw [hadm key hkey, hl]; simp
        have := not_admits_of_mem_rules alive barrier (hk key hkey).2 hna r hr
        simp [this]
      rw [hnone]; rfl
    | some f =>
      rw [lastMatch_flatMap (k := f.value)]
      · by_cases hm : f.value ∈ keys
        · rw [if_pos hm]
          simp only [if_pos hm]
          exact ih _ (hk _ hm).2 ((hadm _ hm).2 ⟨f, hl, rfl⟩)
        · simp [hm]
      · intro key hkey hne
        refine lastMatch_rules_eq_none alive barrier (hk key hkey).2 ?_
        rw [hadm key hkey, hl]
        rintro ⟨g, hg, rfl⟩
        cases hg
        exact hne rfl

end

/-! ## Enumeration orders -/

theorem Node.Reorder.refl (n : Node τ F) : n.Reorder n := by
  induction n with
  | unexplored => exact .unexplored
  | flow f => exact .flow f
  | test t need pos neg ihp ihn => exact .test t need ihp ihn
  | load t mask keys cases ih => exact .load t mask (.refl keys) ih

theorem Node.Reorder.lookup {n n' : Node τ F} (h : n.Reorder n') :
    n'.lookup alive q = n.lookup alive q := by
  induction h with
  | unexplored => rfl
  | flow f => rfl
  | test t need _ _ ihp ihn => simp only [Node.lookup, ihp, ihn]
  | load t mask hk _ ih => simp only [Node.lookup, ih, hk.mem_iff]

/-! ## Lookup -/

theorem lookup_of_carried (hq : n.Carried q) : ∃ r, n.lookup alive q = .ok r := by
  induction n with
  | unexplored => exact ⟨_, rfl⟩
  | flow f => exact ⟨_, rfl⟩
  | test t need pos neg ihp ihn =>
    obtain ⟨v, hv⟩ := Option.isSome_iff_exists.1 hq.1
    obtain ⟨b, hb⟩ := Packet.test_eq_some hv need
    simp only [Node.lookup, hb]
    cases b with
    | true => exact ihp hq.2.1
    | false => exact ihn hq.2.2
  | load t mask keys cases ih =>
    obtain ⟨v, hv⟩ := Option.isSome_iff_exists.1 hq.1
    simp only [Node.lookup, Packet.load, hv, Option.map_some]
    split
    · rename_i hm; exact ih _ (hq.2 _ hm)
    · exact ⟨_, rfl⟩

/-- With a rule for every flow, the claimant is the flow found; where `lookup` finds none, only a
barrier rule can match. -/
theorem claimant_of_lookup {r : Option F} (h : n.lookup alive q = .ok r) :
    n.claimant alive (fun _ => true) barrier q = r ∨
      r = none ∧ n.claimant alive (fun _ => true) barrier q = some barrier := by
  induction n with
  | unexplored => cases h; exact .inl rfl
  | flow f =>
    cases h
    simp [Node.claimant]
  | test t need pos neg ihp ihn =>
    simp only [Node.lookup] at h
    split at h
    · cases h
    · rename_i ht
      simp only [Node.claimant, ht, if_true]
      obtain hp | ⟨rfl, hp⟩ := ihp h
      · rw [hp]
        cases r with
        | some f => exact .inl rfl
        | none => exact .inr ⟨rfl, rfl⟩
      · rw [hp]; exact .inr ⟨rfl, rfl⟩
    · rename_i ht
      simp only [Node.claimant, ht]
      exact ihn h
  | load t mask keys cases ih =>
    simp only [Node.lookup] at h
    split at h
    · cases h
    · rename_i f hl
      simp only [Node.claimant, hl]
      split at h
      · rename_i hm
        rw [if_pos hm]; exact ih _ h
      · rename_i hm
        cases h
        rw [if_neg hm]; exact .inl rfl

/-! ## Numbered rules -/

/-- The rules with their priorities from `p` on. -/
def numbered : List (FieldSet τ × F) → Nat → List (Rule τ F)
  | [], _ => []
  | r :: rs, p => ⟨p, r.1, r.2⟩ :: numbered rs ((p + 1) % 2 ^ 16)

theorem installAll_recorder (rs : List (FieldSet τ × F)) (p : Nat) (acc : List (Rule τ F)) :
    installAll recorder rs p acc = .ok (acc ++ numbered rs p) := by
  induction rs generalizing p acc with
  | nil => simp [installAll, numbered]
  | cons r rs ih =>
    change installAll recorder rs _ (acc ++ [_]) = _
    rw [ih, List.append_assoc]; rfl

theorem numbered_map (rs : List (FieldSet τ × F)) (p : Nat) :
    (numbered rs p).map (fun r => (r.matchSet, r.flow)) = rs := by
  induction rs generalizing p with
  | nil => rfl
  | cons r rs ih => rw [numbered, List.map_cons, ih]

theorem numbered_length (rs : List (FieldSet τ × F)) (p : Nat) :
    (numbered rs p).length = rs.length := by
  rw [← List.length_map (fun r : Rule τ F => (r.matchSet, r.flow)), numbered_map]

theorem numbered_pairwise (rs : List (FieldSet τ × F)) (p : Nat) (h : p + rs.length ≤ 2 ^ 16) :
    (numbered rs p).Pairwise (·.priority < ·.priority) ∧
      ∀ r ∈ numbered rs p, p ≤ r.priority := by
  induction rs generalizing p with
  | nil => exact ⟨.nil, by simp [numbered]⟩
  | cons r rs ih =>
    rw [List.length_cons] at h
    cases rs with
    | nil => simp [numbered]
    | cons r' rs =>
      have hp : (p + 1) % 2 ^ 16 = p + 1 := Nat.mod_eq_of_lt (by simp at h; omega)
      obtain ⟨hpw, hle⟩ := ih (p + 1) (by omega)
      rw [numbered, hp]
      refine ⟨List.pairwise_cons.2 ⟨fun x hx => hle x hx, hpw⟩, fun x hx => ?_⟩
      rcases List.mem_cons.1 hx with rfl | hx
      · exact Nat.le_refl _
      · exact Nat.le_of_succ_le (hle x hx)

theorem lastMatch_numbered (P : FieldSet τ × F → Bool) (rs : List (FieldSet τ × F)) (p : Nat) :
    (lastMatch (fun r => P (r.matchSet, r.flow)) (numbered rs p)).map
      (fun r => (r.matchSet, r.flow)) = lastMatch P rs := by
  conv_rhs => rw [← numbered_map rs p, lastMatch_map]
  rfl

variable [DecidableEq τ]

theorem Node.Reorder.wf {n n' : Node τ F} (h : n.Reorder n') (hn : n.WF M) : n'.WF M := by
  induction h generalizing M with
  | unexplored => trivial
  | flow f => trivial
  | test t need _ _ ihp ihn => exact ⟨hn.1, hn.2.1, ihp hn.2.2.1, ihn hn.2.2.2⟩
  | load t mask hk _ ih =>
    refine ⟨hn.1, hn.2.1, fun key hkey => ?_⟩
    have := hn.2.2 key (hk.mem_iff.2 hkey)
    exact ⟨this.1, ih key this.2⟩

theorem commit_eq {tree : Node τ F} (h : tree.WF ∅) (b : β) :
    tree.commit B alive barrier b = installAll B (tree.rules alive barrier ∅) 1 (B.remove b) := by
  have hproper : FieldSet.Proper (∅ : FieldSet τ) := fun t f hf => by simp at hf
  rw [Node.commit, compile_eq B alive barrier tree h hproper (by decide), Visited]
  cases installAll B (tree.rules alive barrier ∅) 1 (B.remove b) <;> rfl

/-- **Compilation agrees with lookup**: of the rules that a commit installs for a tree built by
`augment` runs, in any enumeration order of its case maps, the highest that matches `q` is that of
the flow found for `q`, and a barrier rule, if any, when none is found. -/
theorem compile_agrees_lookup (calls : List (Augment τ D F)) (tree : Node τ F)
    (horder : (buildTree calls).Reorder tree) (q : Packet τ)
    (hq : (buildTree calls).Carried q) :
    ∃ rules found, tree.commit recorder alive barrier [] = .ok rules ∧
      (buildTree calls).lookup alive q = .ok found ∧
      (rules.length ≤ 65535 →
        match found with
        | some f => (∃ r, IsTop Rule.priority (·.matchSet.admits q) rules r) ∧
            ∀ r, IsTop Rule.priority (·.matchSet.admits q) rules r → r.flow = f
        | none => ∀ r, IsTop Rule.priority (·.matchSet.admits q) rules r → r.flow = barrier) := by
  have hwf : tree.WF ∅ := horder.wf (wf_buildTree calls)
  obtain ⟨found, hfound⟩ := lookup_of_carried alive hq
  refine ⟨numbered (tree.rules alive barrier ∅) 1, found, ?_, hfound, fun hlen => ?_⟩
  · rw [commit_eq recorder alive barrier hwf, installAll_recorder]; rfl
  · rw [numbered_length] at hlen
    have hpw := (numbered_pairwise (tree.rules alive barrier ∅) 1 (by omega)).1
    simp only [isTop_iff_lastMatch hpw]
    -- the flow of the last rule that matches is the claimant
    have hlast := lastMatch_rules alive barrier (fun _ => true) hwf (FieldSet.admits_empty q)
    simp only [Bool.true_and] at hlast
    rw [← lastMatch_numbered _ _ 1, Option.map_map] at hlast
    have hclaim := claimant_of_lookup alive barrier (horder.lookup alive ▸ hfound)
    rw [← hlast] at hclaim
    cases hm : lastMatch (fun r : Rule τ F => r.matchSet.admits q)
        (numbered (tree.rules alive barrier ∅) 1) with
    | none =>
      rw [hm] at hclaim
      cases found with
      | some f => simp at hclaim
      | none => simp
    | some r =>
      rw [hm] at hclaim
      cases found with
      | some f => simpa using hclaim
      | none => simpa using hclaim

/-- A policy that tests the Ethernet type, rewrites the destination of IPv4 packets and sends the
others by their port. -/
def dispatch : Policy OfbType Nat :=
  .test .eth_type (Field.make 0x0800 (.exact _)) fun
    | .ok true => .modify .eth_dst (Field.make 1 (.exact _)) fun
      | .ok () => .done 0
      | .error e => .raise e
    | .ok false => .load .in_port (.exact _) fun
      | .ok f => .done f.value.toNat
      | .error e => .raise e
    | .error e => .raise e

/-- A packet with an Ethernet type, a destination and a port. -/
def frame (ethType : BitVec 16) (ethDst : BitVec 48) (inPort : BitVec 32) : Packet OfbType
  | .eth_type => some ethType
  | .eth_dst => some ethDst
  | .in_port => some inPort
  | _ => none

/-- Two runs of `dispatch`, on a packet of each kind. -/
def dispatchCalls : List (Augment OfbType Nat Nat) :=
  [⟨fun _ => false, dispatch, frame 0x0806 5 3, 0⟩, ⟨fun _ => false, dispatch, frame 0x0800 5 1, 1⟩]

theorem frame_isSome {e e' : BitVec 16} {d d' : BitVec 48} {i i' : BitVec 32} (t : OfbType)
    (h : (frame e d i t).isSome) : (frame e' d' i' t).isSome := by
  cases t <;> first | rfl | cases h

theorem carries_dispatchCalls :
    ∀ a ∈ dispatchCalls, ∀ t, (a.pkt t).isSome → (frame 0x0806 7 3 t).isSome := by
  intro a ha t ht
  simp only [dispatchCalls, List.mem_cons, List.not_mem_nil, or_false] at ha
  rcases ha with rfl | rfl
  · exact frame_isSome t ht
  · exact frame_isSome t ht

theorem compile_agrees_lookup_dispatch :
    (buildTree dispatchCalls).lookup (fun _ => true) (frame 0x0806 7 3) = .ok (some 0) ∧
      ∃ rules, (buildTree dispatchCalls).commit recorder (fun _ => true) 2 [] = .ok rules ∧
        (rules.length ≤ 65535 →
          (∃ r, IsTop Rule.priority (·.matchSet.admits (frame 0x0806 7 3)) rules r) ∧
            ∀ r, IsTop Rule.priority (·.matchSet.admits (frame 0x0806 7 3)) rules r →
              r.flow = 0) := by
  have hl' : (buildTree dispatchCalls).lookup (fun _ => true) (frame 0x0806 7 3) =
      .ok (some 0) := by decide
  obtain ⟨rules, found, hc, hl, h⟩ := compile_agrees_lookup (fun _ => true) 2 dispatchCalls _
    (.refl _) (frame 0x0806 7 3) (carried_buildTree _ carries_dispatchCalls)
  rw [hl', Except.ok.injEq] at hl
  subst hl
  exact ⟨hl', rules, hc, h⟩

end Maple
