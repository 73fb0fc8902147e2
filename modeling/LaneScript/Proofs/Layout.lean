/-
  LaneScript.Proofs.Layout — numbers, counts and places in a packed image.

  Proved: a number of a width and its bytes determine each other; a header is read
  exactly where its counts stand in front; positions of sections never wrap, so each
  section begins at the next multiple of 16 behind the one before it.
-/
import LaneScript.Image.Layout
import Mathlib.Algebra.Group.Nat.Defs

namespace LaneScript

/-! ## Numbers in bytes -/

namespace Bytes

theorem ofLe_lt (bytes : Bytes) : ofLe bytes < 256 ^ bytes.length := by
  induction bytes with
  | nil => decide
  | cons b rest ih =>
    have hb := b.toNat_lt
    rw [ofLe, List.length_cons, Nat.pow_succ]
    omega

/-- A number that the width holds is read back. -/
theorem ofLe_le {width n : Nat} (h : n < 256 ^ width) : ofLe (le width n) = n := by
  induction width generalizing n with
  | zero =>
    rw [Nat.pow_zero] at h
    show 0 = n
    omega
  | succ width ih =>
    rw [Nat.pow_succ] at h
    have hlow : (UInt8.ofNat (n % 256)).toNat = n % 256 := UInt8.toNat_ofNat_of_lt' (Nat.mod_lt _ (by decide))
    rw [le, ofLe, hlow, ih (by omega)]
    omega

/-- Bytes are what their number is written as. -/
theorem le_ofLe {width : Nat} {bytes : Bytes} (h : bytes.length = width) : le width (ofLe bytes) = bytes := by
  induction bytes generalizing width with
  | nil =>
    subst h
    rfl
  | cons b rest ih =>
    subst h
    have hb := b.toNat_lt
    have hlow : (b.toNat + 256 * ofLe rest) % 256 = b.toNat := by omega
    have hhigh : (b.toNat + 256 * ofLe rest) / 256 = ofLe rest := by omega
    rw [ofLe, List.length_cons, le, hlow, hhigh, UInt8.ofNat_toNat, ih rfl]

variable {bytes : Bytes}

theorem le_word (h : bytes.length = 2) : le 2 (UInt16.ofNat (ofLe bytes)).toNat = bytes := by
  have hlt := ofLe_lt bytes
  rw [h] at hlt
  rw [UInt16.toNat_ofNat_of_lt' hlt, le_ofLe h]

theorem le_long (h : bytes.length = 4) : le 4 (UInt32.ofNat (ofLe bytes)).toNat = bytes := by
  have hlt := ofLe_lt bytes
  rw [h] at hlt
  rw [UInt32.toNat_ofNat_of_lt' hlt, le_ofLe h]

theorem le_quad (h : bytes.length = 8) : le 8 (UInt64.ofNat (ofLe bytes)).toNat = bytes := by
  have hlt := ofLe_lt bytes
  rw [h] at hlt
  rw [UInt64.toNat_ofNat_of_lt' hlt, le_ofLe h]

/-- Numbers of one width at the end of two byte strings can be told apart. -/
theorem append_le_iff {xs ys : Bytes} {width a b : Nat} (ha : a < 256 ^ width) (hb : b < 256 ^ width) :
    xs ++ le width a = ys ++ le width b ↔ xs = ys ∧ a = b := by
  constructor
  · intro e
    obtain ⟨hx, hl⟩ := List.append_inj' e (by simp)
    have hr := ofLe_le ha
    rw [hl, ofLe_le hb] at hr
    exact ⟨hx, hr.symm⟩
  · intro h
    rw [h.1, h.2]

end Bytes

/-! ## The counts of a header -/

namespace Header

@[simp] theorem length_encode (h : Header) : h.encode.length = countBytes := by
  simp [encode, countBytes]

theorem encode_inj {g h : Header} (e : g.encode = h.encode) : g = h := by
  have signed : ∀ v w : Int32, v.toUInt32 = w.toUInt32 ↔ v = w := by
    intro v w
    refine ⟨fun h => ?_, congrArg _⟩
    rw [← Int32.toInt32_toUInt32 v, h, Int32.toInt32_toUInt32]
  have word : ∀ w : UInt16, w.toNat < 256 ^ 2 := UInt16.toNat_lt
  have long : ∀ w : UInt32, w.toNat < 256 ^ 4 := UInt32.toNat_lt
  -- The counts come off one by one, from the last on.
  unfold encode at e
  rw [← List.nil_append (Bytes.le 4 g.codeLength.toNat), ← List.nil_append (Bytes.le 4 h.codeLength.toNat)] at e
  simp only [Bytes.append_le_iff, word, long, UInt16.toNat_inj, UInt32.toNat_inj, signed, and_assoc, true_and] at e
  cases g
  cases h
  rw [Header.mk.injEq]
  exact e

variable {buffer : Bytes} {offset : Nat}

theorem word_fieldAt (h : offset + 2 ≤ buffer.length) :
    Bytes.le 2 (UInt16.ofNat (fieldAt buffer offset 2)).toNat = (buffer.drop offset).take 2 :=
  Bytes.le_word (by simp; omega)

theorem long_fieldAt (h : offset + 4 ≤ buffer.length) :
    Bytes.le 4 (UInt32.ofNat (fieldAt buffer offset 4)).toNat = (buffer.drop offset).take 4 :=
  Bytes.le_long (by simp; omega)

/-- A header is read exactly where its counts stand in front. -/
theorem read?_eq_some_iff {h : Header} :
    read? buffer = some h ↔ totalBytes ≤ buffer.length ∧ buffer.take countBytes = h.encode := by
  have read_encode : ∀ g, read? buffer = some g → totalBytes ≤ buffer.length ∧ buffer.take countBytes = g.encode := by
    intro g hg
    unfold read? at hg
    split at hg
    · cases hg
    · rename_i hlen
      have hlen : 64 ≤ buffer.length := Nat.not_lt.mp hlen
      cases hg
      refine ⟨hlen, ?_⟩
      simp (disch := omega) only [encode, UInt32.toUInt32_toInt32, long_fieldAt, word_fieldAt]
      simp only [List.drop_zero, ← List.take_add, Nat.reduceAdd]
      rfl
  refine ⟨read_encode h, ?_⟩
  intro hb
  obtain ⟨hlen, e⟩ := hb
  obtain ⟨g, hg⟩ : ∃ g, read? buffer = some g := by
    unfold read?
    rw [if_neg (Nat.not_lt.mpr hlen)]
    exact ⟨_, rfl⟩
  rw [hg, encode_inj ((read_encode g hg).2.symm.trans e)]

end Header

/-! ## Sizes and places -/

namespace Section

/-- `size` without the bound of a word. -/
def length (h : Header) : Section → Nat
  | .code => h.codeLength.toNat
  | .constants => 2 * h.constants.toNat
  | .inputs => 2 * h.inputs.toNat
  | .inputOffsets => 2 * h.offsetEntries
  | .outputDatasets => 2 * h.outputs.toNat
  | .outputTypes => h.outputs.toNat
  | .outputFields => 2 * h.outputs.toNat
  | .functions => 16 * h.functions.toNat

theorem length_lt (h : Header) (s : Section) : s.length h < 68719476736 := by
  have hoffsets : h.offsetEntries ≤ 131071 := by
    have := h.inputDatasets.toNat_lt
    unfold Header.offsetEntries
    split <;> omega
  cases s with
  | code => have := h.codeLength.toNat_lt; simp only [length]; omega
  | functions => have := h.functions.toNat_lt; simp only [length]; omega
  | constants => have := h.constants.toNat_lt; simp only [length]; omega
  | inputs => have := h.inputs.toNat_lt; simp only [length]; omega
  | inputOffsets => simp only [length]; omega
  | outputDatasets | outputTypes | outputFields => have := h.outputs.toNat_lt; simp only [length]; omega

theorem toNat_size (h : Header) (s : Section) : (s.size h).toNat = s.length h := by
  have hlt := length_lt h s
  cases s <;> simp [size, length] at hlt ⊢ <;> omega

end Section

def gap (n : Nat) : Nat := (16 - n % 16) % 16

theorem add_gap (n : Nat) : (n + gap n) % 16 = 0 := by
  unfold gap
  omega

theorem gap_le (n : Nat) : gap n ≤ 15 := by
  unfold gap
  omega

theorem gap_add {m : Nat} (h : m % 16 = 0) (n : Nat) : gap (m + n) = gap n := by
  unfold gap
  omega

theorem toNat_align16 {n : UInt64} (h : n.toNat + 15 < UInt64.size) : (align16 n).toNat = n.toNat + gap n.toNat := by
  have hsize : UInt64.size = 18446744073709551616 := rfl
  unfold align16 gap
  by_cases hn : n % 16 = 0
  · have hz : n.toNat % 16 = 0 := congrArg UInt64.toNat hn
    rw [if_pos hn]
    simp
    omega
  · have hz : n.toNat % 16 ≠ 0 := fun e => hn (UInt64.toNat_inj.mp e)
    rw [if_neg hn]
    simp
    omega

theorem total_le_of_forall_le {ns : List Nat} {bound : Nat} (h : ∀ n ∈ ns, n ≤ bound) : total ns ≤ ns.length * bound := by
  induction ns with
  | nil => exact Nat.zero_le _
  | cons n ns ih =>
    have hn := h n List.mem_cons_self
    have hns := ih fun m hm => h m (List.mem_cons_of_mem _ hm)
    rw [total_cons, List.length_cons, Nat.succ_mul]
    omega

namespace Layout

/-- A layout of the sizes behind `stop` ends before a position wraps. -/
def Room (stop : UInt64) (sizes : List UInt64) : Prop :=
  stop.toNat + LaneScript.total (sizes.map fun size => size.toNat + 15) + 15 < UInt64.size

theorem Room.align {stop : UInt64} {sizes : List UInt64} (h : Room stop sizes) :
    (align16 stop).toNat = stop.toNat + gap stop.toNat := by
  unfold Room at h
  exact toNat_align16 (by omega)

/-- The first section leaves room for the others. -/
theorem Room.tail {stop size : UInt64} {sizes : List UInt64} (h : Room stop (size :: sizes)) :
    Room (Span.stop ⟨align16 stop, size⟩) sizes ∧
      (Span.stop ⟨align16 stop, size⟩).toNat = stop.toNat + gap stop.toNat + size.toNat := by
  have ha := h.align
  have hg := gap_le stop.toNat
  unfold Room at h ⊢
  rw [List.map_cons, total_cons] at h
  have hstop : (Span.stop ⟨align16 stop, size⟩).toNat = stop.toNat + gap stop.toNat + size.toNat := by
    show (align16 stop + size).toNat = _
    rw [UInt64.toNat_add, ha]
    exact Nat.mod_eq_of_lt (show _ < UInt64.size by omega)
  rw [hstop]
  exact ⟨by omega, rfl⟩

theorem room_ofHeader (h : Header) : Room (UInt64.ofNat Header.totalBytes) (Section.all.map (Section.size h)) := by
  have hlt : ∀ n ∈ (Section.all.map (Section.size h)).map (fun size => size.toNat + 15), n ≤ 68719476750 := by
    intro n hn
    rw [List.map_map] at hn
    obtain ⟨s, -, rfl⟩ := List.mem_map.mp hn
    have := s.length_lt h
    show (s.size h).toNat + 15 ≤ 68719476750
    rw [Section.toNat_size]
    omega
  have hsum := total_le_of_forall_le hlt
  have hstart : (UInt64.ofNat Header.totalBytes).toNat = 64 := rfl
  have hsize : UInt64.size = 18446744073709551616 := rfl
  rw [List.length_map, List.length_map, show Section.all.length = 8 from rfl] at hsum
  unfold Room
  omega

theorem le_total {stop : UInt64} {sizes : List UInt64} (h : Room stop sizes) :
    stop.toNat ≤ (place stop sizes).total.toNat := by
  induction sizes generalizing stop with
  | nil =>
    rw [place, h.align]
    omega
  | cons size sizes ih =>
    obtain ⟨hr, hs⟩ := h.tail
    have hle := ih hr
    show stop.toNat ≤ (place (Span.stop ⟨align16 stop, size⟩) sizes).total.toNat
    omega

/-- A layout ends on a multiple of 16. -/
theorem total_mod {stop : UInt64} {sizes : List UInt64} (h : Room stop sizes) :
    (place stop sizes).total.toNat % 16 = 0 := by
  induction sizes generalizing stop with
  | nil =>
    rw [place, h.align]
    exact add_gap _
  | cons size sizes ih => exact ih h.tail.1

end Layout

/-! ## Packable images -/

structure Image.Packable (m : Image) : Prop where
  code : m.code.length < 4294967296
  functions : m.functions.length < 4294967296
  constants : m.constants.length < 65536
  inputs : m.inputs.length < 65536
  outputs : m.outputDatasets.length < 65536
  offsets : m.inputOffsets.length = 0 ∨ m.inputOffsets.length % 2 = 1 ∧ m.inputOffsets.length / 2 < 65536
  types : m.outputTypes.length = m.outputDatasets.length
  fields : m.outputFields.length = m.outputDatasets.length

theorem Image.isPackable_iff {m : Image} : m.isPackable = true ↔ m.Packable := by
  simp only [isPackable, Bool.and_eq_true, Bool.or_eq_true, decide_eq_true_eq, beq_iff_eq]
  constructor
  · rintro ⟨⟨⟨⟨⟨⟨⟨h1, h2⟩, h3⟩, h4⟩, h5⟩, h6⟩, h7⟩, h8⟩
    exact ⟨h1, h2, h3, h4, h5, h6, h7, h8⟩
  · rintro ⟨h1, h2, h3, h4, h5, h6, h7, h8⟩
    exact ⟨⟨⟨⟨⟨⟨⟨h1, h2⟩, h3⟩, h4⟩, h5⟩, h6⟩, h7⟩, h8⟩

end LaneScript
