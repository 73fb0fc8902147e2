/-
  LaneScript.Proofs.Fitted — what packing stores of an image of any shape.

  An image whose arrays do not agree with one another, or are too long to be counted, is
  packed all the same: `Image.fitted` is the image that its buffer holds. The counts are
  cut to their fields, and then every array is cut, or filled with zeros, to the room
  that the counts give it. Proved: the buffer of any image is that of its fitted image, which
  is packable; so it always passes the checks of length, hash and padding, and whether
  it loads is a matter of what the fitted image says of itself. Nothing was written
  outside the buffer on the way.
-/
import LaneScript.Proofs.Indexing
import LaneScript.Proofs.InPlace
import LaneScript.Proofs.Lossless

namespace LaneScript

/-! ## Arrays of a given length -/

def resized {α : Type} (n : Nat) (zero : α) (xs : List α) : List α :=
  xs.take n ++ List.replicate (n - xs.length) zero

@[simp] theorem length_resized {α : Type} (n : Nat) (zero : α) (xs : List α) : (resized n zero xs).length = n := by
  rw [resized, List.length_append, List.length_take, List.length_replicate]
  omega

theorem mem_resized {α : Type} {n : Nat} {zero a : α} {xs : List α} (h : a ∈ resized n zero xs) : a ∈ xs ∨ a = zero := by
  rcases List.mem_append.mp h with h | h
  · exact .inl (List.mem_of_mem_take h)
  · exact .inr (List.eq_of_mem_replicate h)

theorem flatMap_replicate_zero {α : Type} {encode : α → Bytes} {width : Nat} {zero : α}
    (hzero : encode zero = List.replicate width 0) (n : Nat) :
    (List.replicate n zero).flatMap encode = List.replicate (width * n) 0 := by
  induction n with
  | zero => rfl
  | succ n ih =>
    rw [List.replicate_succ, List.flatMap_cons, ih, hzero, List.replicate_append_replicate, Nat.mul_succ, Nat.add_comm]

/-- Resizing an array is fitting its bytes. -/
theorem flatMap_resized {α : Type} {encode : α → Bytes} {width : Nat} {zero : α} (hlen : ∀ a, (encode a).length = width)
    (hzero : encode zero = List.replicate width 0) (n : Nat) (xs : List α) :
    (resized n zero xs).flatMap encode = Bytes.fit (width * n) (xs.flatMap encode) := by
  induction xs generalizing n with
  | nil =>
    rw [List.flatMap_nil, Bytes.fit_nil, resized, List.take_nil, List.nil_append]
    exact flatMap_replicate_zero hzero n
  | cons x xs ih =>
    cases n with
    | zero => simp [resized, Bytes.fit]
    | succ n =>
      have hle : (encode x).length ≤ width * (n + 1) := by
        rw [hlen, Nat.mul_succ]
        exact Nat.le_add_left _ _
      have hcons : resized (n + 1) zero (x :: xs) = x :: resized n zero xs := by
        simp [resized]
      rw [hcons, List.flatMap_cons, ih, List.flatMap_cons, Bytes.fit_append hle, hlen, Nat.mul_succ, Nat.add_sub_cancel]

namespace Image

/-! ## The image that is stored -/

/-- The image with its counts, every array as long as they say, and nothing bound. -/
def fitted (m : Image) : Image where
  header := m.synced
  code := resized m.synced.codeLength.toNat 0 m.code
  constants := resized m.synced.constants.toNat 0 m.constants
  inputs := resized m.synced.inputs.toNat 0 m.inputs
  inputOffsets := resized m.synced.offsetEntries 0 m.inputOffsets
  outputDatasets := resized m.synced.outputs.toNat 0 m.outputDatasets
  outputTypes := resized m.synced.outputs.toNat 0 m.outputTypes
  outputFields := resized m.synced.outputs.toNat 0 m.outputFields
  functions := resized m.synced.functions.toNat {} (m.functions.map ExternalFn.unbound)

variable (m : Image)

theorem slots_fitted : ∀ f ∈ m.fitted.functions, f.slot = 0 := by
  intro f hf
  rcases mem_resized hf with hf | rfl
  · obtain ⟨g, -, rfl⟩ := List.mem_map.mp hf
    rfl
  · rfl

theorem synced_fitted : m.fitted.synced = m.synced := by
  unfold fitted
  rw [synced]
  simp only [length_resized, UInt32.ofNat_toNat, UInt16.ofNat_toNat, Header.ofNat_offsetEntries]

theorem packable_fitted : m.fitted.Packable where
  code := length_resized .. ▸ m.synced.codeLength.toNat_lt
  functions := length_resized .. ▸ m.synced.functions.toNat_lt
  constants := length_resized .. ▸ m.synced.constants.toNat_lt
  inputs := length_resized .. ▸ m.synced.inputs.toNat_lt
  outputs := length_resized .. ▸ m.synced.outputs.toNat_lt
  offsets := by
    have hlt := m.synced.inputDatasets.toNat_lt
    rw [show m.fitted.inputOffsets.length = m.synced.offsetEntries from length_resized .., Header.offsetEntries]
    split <;> omega
  types := (length_resized ..).trans (length_resized ..).symm
  fields := (length_resized ..).trans (length_resized ..).symm

-- One output: of its two types the first is stored, and a field that is missing is zero.
example : (fitted { outputDatasets := [3], outputTypes := [1, 2] }).outputTypes = [1] ∧
    (fitted { outputDatasets := [3], outputTypes := [1, 2] }).outputFields = [0] := by decide

theorem wholeOffsets_fitted : m.fitted.WholeOffsets := by
  have hlen : m.fitted.inputOffsets.length = m.synced.offsetEntries := length_resized ..
  have hdatasets := m.synced.ofNat_offsetEntries
  unfold WholeOffsets
  intro hone
  rw [← hlen, hone] at hdatasets
  have hzero : m.synced.offsetEntries = 0 := if_pos hdatasets.symm
  omega

/-- Every array of the fitted image is stored as the original's is cut or filled. -/
theorem contents_fitted (s : Section) : m.fitted.contents s = Bytes.fit (s.length m.synced) (m.contents s) := by
  have words (n : Nat) (ws : List UInt16) : wordBytes (resized n 0 ws) = Bytes.fit (2 * n) (wordBytes ws) :=
    flatMap_resized (fun _ => Bytes.length_le 2 _) rfl n ws
  have bytes (n : Nat) (bs : Bytes) : resized n 0 bs = Bytes.fit n bs := by
    have hsingle := @flatMap_resized UInt8 (fun b => [b]) 1 0 (fun _ => rfl) rfl n bs
    rw [List.flatMap_singleton', List.flatMap_singleton', Nat.one_mul] at hsingle
    exact hsingle
  cases s with
  | code => exact bytes _ _
  | outputTypes => exact bytes _ _
  | constants | inputs | inputOffsets | outputDatasets | outputFields => exact words _ _
  | functions =>
    have hwidth : ∀ f : ExternalFn, f.encode.length = 16 := by simp [ExternalFn.encode]
    refine (flatMap_resized hwidth (by decide) _ _).trans ?_
    rw [ExternalFn.flatMap_encode_unbound]
    rfl

/-- An image packs as its fitted image does. -/
theorem pack_fitted : m.fitted.pack = m.pack := by
  refine pack_congr m.synced_fitted ?_
  intro s
  have hlen : (Bytes.fit (s.length m.synced) (m.contents s)).length = s.length m.synced := Bytes.length_fit ..
  rw [Section.toNat_size, contents_fitted, Bytes.fit, List.take_of_length_le (Nat.le_of_eq hlen), hlen, Nat.sub_self]
  exact List.append_nil _

/-- The buffer of an image passes the outer checks, and holds the fitted image. -/
theorem outer_pack : Load.Outer Digest.short m.pack m.synced ∧ (Load.view m.pack m.synced).toImage = m.fitted := by
  have hview := toImage_view m.packable_fitted m.wholeOffsets_fitted m.slots_fitted
  rw [pack_fitted, synced_fitted] at hview
  exact hview

theorem sectionBytes_pack (s : Section) :
    Load.sectionBytes m.pack (Layout.ofHeader m.synced) s = Bytes.fit (s.length m.synced) (m.contents s) := by
  have hsections := (@Load.outer_framed Digest.short _ _ (sized_contents m.packable_fitted m.wholeOffsets_fitted)).2
  rw [← pack_eq m.packable_fitted m.wholeOffsets_fitted, pack_fitted, synced_fitted] at hsections
  rw [hsections, contents_fitted]

end Image

/-! ## Bytes outside the sections -/

namespace Load

variable {buffer : Bytes}

def Covered (spans : List Span) (i : Nat) : Prop := ∃ s ∈ spans, s.offset.toNat ≤ i ∧ i < s.stop.toNat

theorem getElem?_of_isZero {start stop i : Nat} (hz : isZero ((buffer.drop start).take (stop - start)) = true)
    (hstart : start ≤ i) (hstop : i < stop) (hlt : i < buffer.length) : buffer[i]? = some 0 := by
  have hget : ((buffer.drop start).take (stop - start))[i - start]? = buffer[i]? := by
    rw [List.getElem?_take_of_lt (by omega), List.getElem?_drop, Nat.add_sub_cancel' hstart]
  have hlen : i - start < ((buffer.drop start).take (stop - start)).length := by
    rw [List.length_take, List.length_drop]
    omega
  rw [← hget, isZero_iff.mp hz, List.getElem?_replicate_of_lt hlen]

/-- Where the gaps are zero, so is every byte that no span covers. -/
theorem getElem?_of_gapsZero {stop i : Nat} {spans : List Span} (hz : gapsZero buffer stop spans = true)
    (hi : stop ≤ i) (hlt : i < buffer.length) (hout : ¬ Covered spans i) : buffer[i]? = some 0 := by
  induction spans generalizing stop with
  | nil =>
    have hz : isZero ((buffer.drop stop).take (buffer.length - stop)) = true := by
      rw [← List.length_drop, List.take_length]
      exact hz
    exact getElem?_of_isZero hz hi hlt hlt
  | cons s spans ih =>
    rw [gapsZero, Bool.and_eq_true] at hz
    by_cases hfront : i < s.offset.toNat
    · exact getElem?_of_isZero hz.1 hi hfront hlt
    · -- The position is behind the first section, or that would cover it.
      have hbehind : s.stop.toNat ≤ i := by
        apply Nat.not_lt.mp
        intro hin
        exact hout ⟨s, List.mem_cons_self, Nat.not_lt.mp hfront, hin⟩
      refine ih hz.2 hbehind ?_
      intro h
      obtain ⟨t, ht, hcovers⟩ := h
      exact hout ⟨t, List.mem_cons_of_mem _ ht, hcovers⟩

theorem getElem?_of_paddingOk {layout : Layout} {i : Nat} (hp : paddingOk buffer layout = true)
    (hi : Header.fieldBytes ≤ i) (hlt : i < buffer.length) (hout : ¬ Covered layout.spans i) : buffer[i]? = some 0 := by
  obtain ⟨hheader, hgaps⟩ := Bool.and_eq_true_iff.mp hp
  by_cases hfront : i < Header.totalBytes
  · exact getElem?_of_isZero hheader hi hfront hlt
  · exact getElem?_of_gapsZero hgaps (Nat.not_lt.mp hfront) hlt hout

end Load

/-! ## What the sections are asked -/

theorem Element.isSome_ofByte?_iff {t : UInt8} : (ofByte? t).isSome = true ↔ ∃ e : Element, e.byte = t := by
  constructor
  · intro h
    unfold ofByte? at h
    split at h
    · exact ⟨.float, rfl⟩
    · exact ⟨.int, rfl⟩
    · exact ⟨.half, rfl⟩
    · cases h
  · intro h
    obtain ⟨e, rfl⟩ := h
    cases e <;> rfl

namespace Load

theorem isSorted_iff {ns : List UInt16} : isSorted ns = true ↔ ns.Pairwise fun a b => a.toNat ≤ b.toNat := by
  induction ns with
  | nil => simp [isSorted]
  | cons a ns ih =>
    cases ns with
    | nil => simp [isSorted]
    | cons b ns =>
      rw [isSorted, Bool.and_eq_true, decide_eq_true_eq, ih, List.pairwise_cons (a := a)]
      constructor
      · intro h
        obtain ⟨hab, hsorted⟩ := h
        have hab : a.toNat ≤ b.toNat := hab
        refine ⟨?_, hsorted⟩
        intro c hc
        rcases List.mem_cons.mp hc with rfl | hc
        · exact hab
        · exact Nat.le_trans hab (List.rel_of_pairwise_cons hsorted hc)
      · intro h
        exact ⟨h.1 b List.mem_cons_self, h.2⟩

end Load

namespace Image

/-- The largest called function is neither in the table nor the mark for none. -/
def CallsStray (m : Image) : Prop :=
  m.header.lastFunction.toInt < -1 ∨ (m.header.functions.toNat : Int) ≤ m.header.lastFunction.toInt

/-- The offsets cut the inputs that the header counts into stretches, of which the second one of each data set holds as
    many fields that stay as the header says; without offsets there are no inputs. -/
def OffsetsAgree (m : Image) : Prop :=
  m.inputOffsets = [] ∧ m.header.inputs = 0 ∧ m.header.stillInputs = 0 ∨
    m.inputOffsets.head? = some 0 ∧ (m.inputOffsets.Pairwise fun a b => a.toNat ≤ b.toNat) ∧
      m.inputOffsets.getLast? = some m.header.inputs ∧
        total ((Load.cuts m.inputOffsets).map fun r => r.2.2 - r.2.1) = m.header.stillInputs.toNat

def OutputsAgree (m : Image) : Prop :=
  (∀ t ∈ m.outputTypes, ∃ e : Element, e.byte = t) ∧ ∀ d ∈ m.outputDatasets, d.toNat < m.header.outputDatasets.toNat

end Image

namespace Load

variable {buffer : Bytes} {h : Header} {l : Loaded}

theorem functionsOk_eq (hslots : ∀ f ∈ l.toImage.functions, f.slot = 0) :
    (l.toImage.CallsStray → functionsOk l = .error .functionRange) ∧
      (¬ l.toImage.CallsStray → functionsOk l = .ok ()) := by
  have hslots : ∀ f ∈ l.functions.toList, f.slot = 0 := hslots
  have hany : ¬ l.functions.toList.any (·.slot != 0) = true := by simpa using hslots
  unfold functionsOk
  rw [if_neg hany]
  exact ⟨fun hs => if_pos hs, fun hs => if_neg hs⟩

theorem inputsOk_iff : inputsOk l = true ↔ l.toImage.OffsetsAgree := by
  have hcut : l.toImage.Cut ↔ l.toImage.inputOffsets.head? = some 0 ∧
      (l.toImage.inputOffsets.Pairwise fun a b => a.toNat ≤ b.toNat) ∧
        l.toImage.inputOffsets.getLast? = some l.toImage.header.inputs ∧
          total ((cuts l.toImage.inputOffsets).map fun r => r.2.2 - r.2.1) = l.toImage.header.stillInputs.toNat := by
    have hstill := stillTotal_eq 0 l.toImage.inputOffsets
    rw [Nat.zero_add] at hstill
    rw [← isSorted_iff, ← hstill]
    exact ⟨fun c => ⟨c.first, c.sorted, c.last, c.still⟩, fun c => ⟨c.1, c.2.1, c.2.2.1, c.2.2.2⟩⟩
  unfold Image.OffsetsAgree
  rw [← hcut]
  exact ⟨offsets_of_inputsOk, inputsOk_of⟩

theorem outputsOk_iff : outputsOk l = true ↔ l.toImage.OutputsAgree := by
  unfold outputsOk Image.OutputsAgree
  rw [Bool.and_eq_true, List.all_eq_true, List.all_eq_true]
  simp only [Element.isSome_ofByte?_iff, decide_eq_true_eq]
  rfl

/-- Past the outer checks it is for the sections to say whether a buffer loads. -/
theorem load_of_outer (ho : Outer Digest.short buffer h) : load buffer = (functionsOk (view buffer h)).bind fun _ =>
    if inputsOk (view buffer h) = true then
      if outputsOk (view buffer h) = true then .ok (view buffer h) else .error .outputs
    else .error .inputs := by
  have hhash : contentHash? buffer = some (Header.storedHash buffer) := ho.hash
  unfold load
  rw [ho.header]
  dsimp only
  rw [if_neg (Decidable.not_not.mpr ho.length), if_neg (Decidable.not_not.mpr hhash), ho.padding]
  cases functionsOk (view buffer h) with
  | error e => rfl
  | ok _ => cases inputsOk (view buffer h) <;> cases outputsOk (view buffer h) <;> rfl

end Load

/-! ## Every image -/

namespace Image

variable (m : Image)

/-- Whether a packed image loads, and why not, by what the fitted image says of itself. -/
theorem load_pack_cases :
    m.fitted.CallsStray ∧ load m.pack = .error .functionRange ∨
      ¬ m.fitted.CallsStray ∧ ¬ m.fitted.OffsetsAgree ∧ load m.pack = .error .inputs ∨
        ¬ m.fitted.CallsStray ∧ m.fitted.OffsetsAgree ∧ ¬ m.fitted.OutputsAgree ∧ load m.pack = .error .outputs ∨
          ¬ m.fitted.CallsStray ∧ m.fitted.OffsetsAgree ∧ m.fitted.OutputsAgree ∧
            load m.pack = .ok (Load.view m.pack m.synced) := by
  obtain ⟨houter, himage⟩ := m.outer_pack
  have hslots := m.slots_fitted
  rw [← himage] at hslots ⊢
  obtain ⟨hstray, hcalls⟩ := Load.functionsOk_eq hslots
  rw [Load.load_of_outer houter]
  by_cases hs : (Load.view m.pack m.synced).toImage.CallsStray
  · rw [hstray hs]
    exact .inl ⟨hs, rfl⟩
  rw [hcalls hs, ← Load.inputsOk_iff, ← Load.outputsOk_iff]
  by_cases hi : Load.inputsOk (Load.view m.pack m.synced) = true
  · by_cases ho : Load.outputsOk (Load.view m.pack m.synced) = true
    · exact .inr (.inr (.inr ⟨hs, hi, ho, by rw [Except.bind, if_pos hi, if_pos ho]⟩))
    · exact .inr (.inr (.inl ⟨hs, hi, ho, by rw [Except.bind, if_pos hi, if_neg ho]⟩))
  · exact .inr (.inl ⟨hs, hi, by rw [Except.bind, if_neg hi]⟩)

structure StoredIn (buffer : Bytes) : Prop where
  length : buffer.length = (Layout.ofHeader m.synced).total.toNat
  aligned : buffer.length % 16 = 0
  header : Header.read? buffer = some m.synced
  /-- A section holds its array's bytes, cut or filled with zeros to the size that the counts give. -/
  sections : ∀ s, Load.sectionBytes buffer (Layout.ofHeader m.synced) s = Bytes.fit (s.size m.synced).toNat (m.contents s)
  values : (Load.view buffer m.synced).toImage = m.fitted
  slots : ∀ f ∈ (Load.view buffer m.synced).functions.toList, f.slot = 0
  padding : ∀ i, Header.fieldBytes ≤ i → i < buffer.length → ¬ Load.Covered (Layout.ofHeader m.synced).spans i →
    buffer[i]? = some 0
  hash : contentHash? buffer = some (Header.storedHash buffer)

theorem storedIn_pack : m.StoredIn m.pack := by
  obtain ⟨houter, himage⟩ := m.outer_pack
  have hslots : ∀ f ∈ (Load.view m.pack m.synced).toImage.functions, f.slot = 0 := himage.symm ▸ m.slots_fitted
  refine {
    length := houter.length.symm
    aligned := houter.length ▸ Layout.total_mod (Layout.room_ofHeader _)
    header := houter.header
    sections := ?_
    values := himage
    slots := hslots
    padding := fun i hi hlt hout => Load.getElem?_of_paddingOk houter.padding hi hlt hout
    hash := houter.hash }
  intro s
  rw [Section.toNat_size]
  exact m.sectionBytes_pack s

/-- Packing is sound for every image: no write leaves the buffer, which has the length, the sections, the zeros and the hash
    that the counts ask for. So it is never turned away for these: it has a stray function, or offsets or outputs
    that do not agree with the counts, or it loads as the fitted image. -/
theorem pack_storedIn_load_iff :
    Guarded.pack? m = some m.pack ∧ m.StoredIn m.pack ∧
      ((∃ r, load m.pack = .error r ∧ r.fault = .fatal .externalFunction) ↔ m.fitted.CallsStray) ∧
      ((∃ r, load m.pack = .error r ∧ r.fault = .fatal .instructions) ↔
        ¬ m.fitted.CallsStray ∧ ¬ (m.fitted.OffsetsAgree ∧ m.fitted.OutputsAgree)) ∧
      ((∃ l, load m.pack = .ok l ∧ l.toImage = m.fitted) ↔
        ¬ m.fitted.CallsStray ∧ m.fitted.OffsetsAgree ∧ m.fitted.OutputsAgree) := by
  have hrange : Rejection.functionRange.fault = .fatal .externalFunction := rfl
  have hinputs : Rejection.inputs.fault = .fatal .instructions := rfl
  have houtputs : Rejection.outputs.fault = .fatal .instructions := rfl
  have hne : Fault.fatal .externalFunction ≠ .fatal .instructions := by decide
  refine ⟨Guarded.pack?_eq m, m.storedIn_pack, ?_⟩
  rcases m.load_pack_cases with ⟨hs, hl⟩ | ⟨hs, hi, hl⟩ | ⟨hs, hi, ho, hl⟩ | ⟨hs, hi, ho, hl⟩
  · simp [hl, hs, hrange, hne]
  · simp [hl, hs, hi, hinputs, hne.symm]
  · simp [hl, hs, hi, ho, houtputs, hne.symm]
  · simp [hl, hs, hi, ho, m.outer_pack.2]

end Image

end LaneScript
