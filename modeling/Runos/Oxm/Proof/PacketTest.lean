import Runos.Oxm.Proof.PacketFields

/-!
# Fields of a frame, tested and loaded

What `test` and `load` return for a field: what the frame reads at its place. The type that `eth_type`
has is the one `link` gives (`test_ethType`), the fields of a header are at their places in it
(`load_header`), and `in_port` is the port the packet came in on (`load_inPort`).
-/

namespace Oxm

open Blocks OxmType

theorem Mask.exact_and_exact {τ : Type} [OxmType τ] (t : τ) :
    (Mask.exact t).and (.exact t) = .exact t :=
  Mask.ext BitVec.and_self

theorem Field.agrees_exact {τ : Type} [OxmType τ] {t : τ} (v x : Bits t) :
    (make v (.exact t)).agrees (make x (.exact t)) = decide (v = x) := by
  have hexact : ∀ y : Bits t, make (make y (.exact t)).value (.exact t) = make y (.exact t) :=
    fun y => by rw [value_make_exact]
  show (make _ ((Mask.exact t).and (.exact t)) == make _ ((Mask.exact t).and (.exact t))) = _
  rw [Mask.exact_and_exact, hexact, hexact]
  refine decide_eq_decide.2 ⟨fun h => ?_, fun h => by rw [h]⟩
  rw [← value_make_exact v, h, value_make_exact]

namespace PacketParser

variable {t : OfbType} {ptr : Pointer} {p : PacketParser} {inPort : BitVec 32}
  {packet : Option Buffer} {h : Header} {base o : Nat} {ethType : BitVec 16}

/-- A test for one value. -/
theorem test_exact (hb : p.bindings t = some ptr) {v : Bits t}
    (hv : p.value (nbits t) ptr = some v) (x : Bits t) :
    p.test (.make x (.exact t)) = .ok (decide (v = x)) := by
  rw [test, show (Field.make x (.exact t)).mask = .exact t from rfl, load_eq hb hv]
  exact congrArg Except.ok (Field.agrees_exact v x)

theorem test_unbound (hb : p.bindings t = none) (need : Field t) :
    p.test need = .error .outOfRange := by
  rw [test, load_unbound hb]
  rfl

/-! ## Fields of headers -/

theorem Parsed.bindings_header (hp : Parsed inPort packet p)
    (hm : (h, base) ∈ headers (frameOf packet)) (hf : (t, o) ∈ h.fields) :
    p.bindings t = some (.data (base + o)) :=
  (hp.bound _ _).2 (.inr ⟨_, hm, Header.mem_bound.2 ⟨o, hf, rfl⟩⟩)

theorem Parsed.value_data (hp : Parsed inPort packet p) {w : Nat} (o : Nat) :
    p.value w (.data o) = read w (frameOf packet) o := by
  rw [← hp.bytes]
  rfl

/-- **A field of a header** is the number at its place. -/
theorem Parsed.load_header (hp : Parsed inPort packet p)
    (hm : (h, base) ∈ headers (frameOf packet)) (hf : (t, o) ∈ h.fields) {v : Bits t}
    (hv : read (nbits t) (frameOf packet) (base + o) = some v) (m : Mask t) :
    p.load m = .ok (.make v m) :=
  load_eq (hp.bindings_header hm hf) ((hp.value_data _).trans hv) m

/-- The same, without a look at the frame. -/
theorem Parsed.load_number (hp : Parsed inPort packet p)
    (hm : (h, base) ∈ headers (frameOf packet)) (hf : (t, o) ∈ h.fields) (m : Mask t) :
    p.load m = .ok (.make (number (nbits t) (frameOf packet) (base + o)) m) := by
  have hin : base + o + count (nbits t) ≤ (frameOf packet).length := by
    have hfield := h.fields_in _ hf
    have hheader := headers_in hm
    dsimp only at hfield hheader
    omega
  obtain ⟨v, hv⟩ := read_eq_some hin
  rw [hp.load_header hm hf hv m, number, hv]
  rfl

theorem Parsed.test_number (hp : Parsed inPort packet p)
    (hm : (h, base) ∈ headers (frameOf packet)) (hf : (t, o) ∈ h.fields) (x : Bits t) :
    p.test (.make x (.exact t)) =
      .ok (decide (number (nbits t) (frameOf packet) (base + o) = x)) := by
  rw [test, show (Field.make x (.exact t)).mask = .exact t from rfl, hp.load_number hm hf]
  exact congrArg Except.ok (Field.agrees_exact _ x)

/-- A field of a layer that the frame has no header of. -/
theorem Parsed.unbound (hp : Parsed inPort packet p) (hne : t ≠ .in_port)
    (hno : ∀ x ∈ headers (frameOf packet), x.1.layer ≠ layerOf t) : p.bindings t = none := by
  by_contra hbound
  obtain ⟨ptr, hb⟩ := Option.ne_none_iff_exists'.1 hbound
  rcases (hp.bound _ _).1 hb with ⟨ht, -⟩ | ⟨x, hm, hx⟩
  · exact hne ht
  · obtain ⟨o, hf, -⟩ := Header.mem_bound.1 hx
    exact hno x hm (x.1.layerOf_fields _ hf).symm

theorem Parsed.load_inPort (hp : Parsed inPort packet p) (m : Mask OfbType.in_port) :
    p.load m = .ok (.make inPort m) := by
  refine load_eq ((hp.bound _ _).2 (.inl ⟨rfl, rfl⟩)) ?_ m
  show read 32 p.inPort.bytes 0 = some inPort
  have hread : read 32 ([] ++ bigEndian inPort ++ []) 0 = some inPort := read_append rfl inPort []
  rwa [List.nil_append, List.append_nil, ← reverse_toBlocks, ← hp.inPort] at hread

/-! ## The Ethernet type -/

/-- Where the type that `link` gives is read. -/
theorem link_ethType {frame : List Byte} (hl : link frame = some (h, ethType)) :
    ∃ o, (.eth_type, o) ∈ h.fields ∧ read 16 frame o = some ethType := by
  have hread : ∀ {o}, o + 2 ≤ frame.length → read 16 frame o = some (number 16 frame o) := by
    intro o ho
    obtain ⟨v, hv⟩ := read_eq_some (w := 16) ho
    rw [number, hv]
    rfl
  unfold link at hl
  split at hl
  · rename_i hether
    have hether : 14 ≤ frame.length := hether
    split at hl
    · split at hl
      · rename_i htag
        have htag : 18 ≤ frame.length := htag
        cases hl
        exact ⟨16, by decide, hread (by omega)⟩
      · cases hl
    · cases hl
      exact ⟨12, by decide, hread (by omega)⟩
  · cases hl

theorem mem_headers_link {frame : List Byte} (hl : link frame = some (h, ethType)) :
    (h, 0) ∈ headers frame := by
  rw [headers, hl]
  exact List.mem_cons_self

/-- **The type of a frame**, tested. -/
theorem Parsed.test_ethType (hp : Parsed inPort packet p)
    (hl : link (frameOf packet) = some (h, ethType)) (x : BitVec 16) :
    p.test (.make (t := .eth_type) x (.exact OfbType.eth_type)) = .ok (decide (ethType = x)) := by
  obtain ⟨o, hf, hread⟩ := link_ethType hl
  refine test_exact (hp.bindings_header (mem_headers_link hl) hf) ?_ x
  rw [hp.value_data, Nat.zero_add]
  exact hread

/-- A frame without a link header has no type. -/
theorem Parsed.test_ethType_none (hp : Parsed inPort packet p)
    (hl : link (frameOf packet) = none) (need : Field OfbType.eth_type) :
    p.test need = .error .outOfRange := by
  refine test_unbound ?_ need
  by_contra hne
  obtain ⟨ptr, hb⟩ := Option.ne_none_iff_exists'.1 hne
  rcases (hp.bound _ _).1 hb with ⟨ht, -⟩ | ⟨h, hm, -⟩
  · cases ht
  · rw [headers, hl] at hm
    cases hm

end PacketParser

end Oxm
