/-
  LaneScript.Proofs.Repack — packing what was loaded.

  Proved: a packable image packs to the frame of its synced header and its contents;
  what a buffer was loaded to is packable, says its own counts, and packs to that very
  buffer (`load_canonical`). So a buffer that loads has no byte that its header and its
  sections leave open. The digest of the hash may be any function, if both sides use it.
-/
import LaneScript.Proofs.Framed

namespace LaneScript

/-! ## Packing -/

/-- The data sets counted again from the number of offsets. -/
theorem Header.ofNat_offsetEntries (h : Header) : UInt16.ofNat (h.offsetEntries / 2) = h.inputDatasets := by
  unfold offsetEntries
  by_cases hz : h.inputDatasets = 0
  · rw [if_pos hz, hz]
    rfl
  · rw [if_neg hz, show (2 * h.inputDatasets.toNat + 1) / 2 = h.inputDatasets.toNat by omega, UInt16.ofNat_toNat]

variable {digest : Bytes → UInt64}

namespace Image

variable {m : Image}

/-- A table of offsets is empty or has at least one data set. -/
def WholeOffsets (m : Image) : Prop := m.inputOffsets.length ≠ 1

theorem length_wordBytes (ws : List UInt16) : (wordBytes ws).length = 2 * ws.length :=
  (View.length_flatMap_encode inverse_word ws).trans (Nat.mul_comm _ _)

theorem offsetEntries_synced
    (hoffsets : m.inputOffsets.length = 0 ∨ m.inputOffsets.length % 2 = 1 ∧ m.inputOffsets.length / 2 < 65536)
    (ho : m.WholeOffsets) : m.synced.offsetEntries = m.inputOffsets.length := by
  unfold WholeOffsets at ho
  have hn : (UInt16.ofNat (m.inputOffsets.length / 2)).toNat = m.inputOffsets.length / 2 :=
    UInt16.toNat_ofNat_of_lt' (show _ < 65536 by omega)
  show (if UInt16.ofNat (m.inputOffsets.length / 2) = 0 then 0 else
    2 * (UInt16.ofNat (m.inputOffsets.length / 2)).toNat + 1) = _
  by_cases hz : UInt16.ofNat (m.inputOffsets.length / 2) = 0
  · rw [if_pos hz]
    rw [hz] at hn
    have hn : 0 = m.inputOffsets.length / 2 := hn
    omega
  · rw [if_neg hz, hn]
    have hpos : m.inputOffsets.length / 2 ≠ 0 := fun e => hz (by rw [e]; rfl)
    omega

/-- The contents have the sizes that the synced header gives. -/
theorem sized_contents (hp : m.Packable) (ho : m.WholeOffsets) : Sized m.synced m.contents := by
  have word : ∀ n, n < 65536 → (UInt16.ofNat n).toNat = n := fun n h => UInt16.toNat_ofNat_of_lt' h
  have long : ∀ n, n < 4294967296 → (UInt32.ofNat n).toNat = n := fun n h => UInt32.toNat_ofNat_of_lt' h
  intro s
  cases s with
  | code => exact (long _ hp.code).symm
  | constants => exact (length_wordBytes _).trans (congrArg _ (word _ hp.constants).symm)
  | inputs => exact (length_wordBytes _).trans (congrArg _ (word _ hp.inputs).symm)
  | inputOffsets => exact (length_wordBytes _).trans (congrArg _ (offsetEntries_synced hp.offsets ho).symm)
  | outputDatasets => exact (length_wordBytes _).trans (congrArg _ (word _ hp.outputs).symm)
  | outputTypes => exact hp.types.trans (word _ hp.outputs).symm
  | outputFields => exact (length_wordBytes _).trans (congrArg _ (hp.fields.trans (word _ hp.outputs).symm))
  | functions =>
    refine (View.length_flatMap_encode inverse_function _).trans ?_
    rw [Nat.mul_comm]
    exact congrArg _ (long _ hp.functions).symm

theorem packBy_eq (hp : m.Packable) (ho : m.WholeOffsets) : m.packBy digest = framed digest m.synced m.contents := by
  have hbody : m.body = Section.all.flatMap fun s => pad16 (m.contents s) := by
    unfold body
    congr 1
    funext s
    rw [Section.toNat_size, ← sized_contents hp ho s]
    simp [Bytes.fit]
  unfold packBy
  rw [hbody, show List.replicate (Header.totalBytes - Header.countBytes) (0 : UInt8) =
    List.replicate 8 0 ++ List.replicate (Header.totalBytes - Header.fieldBytes) 0 from rfl, ← List.append_assoc,
    List.append_assoc (m.synced.encode ++ _)]
  exact restampBy_eq m.synced.length_encode List.length_replicate

theorem pack_eq (hp : m.Packable) (ho : m.WholeOffsets) : m.pack = framed Digest.short m.synced m.contents := by
  rw [← packBy_short, packBy_eq hp ho]

end Image

/-! ## Packing again -/

def Loaded.stored (m : Loaded) : Section → Bytes
  | .code => m.code
  | .constants => m.constants.bytes
  | .inputs => m.inputs.bytes
  | .inputOffsets => m.inputOffsets.bytes
  | .outputDatasets => m.outputDatasets.bytes
  | .outputTypes => m.outputTypes.bytes
  | .outputFields => m.outputFields.bytes
  | .functions => m.functions.bytes

namespace Load

variable {buffer : Bytes} {m : Loaded}

theorem Accepted.stored_eq (ha : Accepted digest buffer m) : m.stored = sectionBytes buffer (Layout.ofHeader m.header) := by
  funext s
  conv => lhs; rw [ha.view]
  cases s <;> rfl

theorem Accepted.sized (ha : Accepted digest buffer m) : Sized m.header m.stored := by
  rw [ha.stored_eq]
  exact ha.outer.eq_framed.1

theorem Accepted.eq_framed (ha : Accepted digest buffer m) : buffer = framed digest m.header m.stored := by
  rw [ha.stored_eq]
  exact ha.outer.eq_framed.2

theorem functionsOk_iff : functionsOk m = .ok () ↔ (∀ f ∈ m.functions.toList, f.slot = 0) ∧
    -1 ≤ m.header.lastFunction.toInt ∧ m.header.lastFunction.toInt < m.header.functions.toNat := by
  unfold functionsOk
  by_cases hs : m.functions.toList.any (·.slot != 0) = true
  · rw [if_pos hs]
    have hbad : ¬ ∀ f ∈ m.functions.toList, f.slot = 0 := by simpa using hs
    simp [hbad]
  · rw [if_neg hs]
    have hgood : ∀ f ∈ m.functions.toList, f.slot = 0 := by simpa using hs
    dsimp only
    split
    · rename_i hl
      simp
      omega
    · rename_i hl
      simp only [true_iff]
      exact ⟨hgood, by omega, by omega⟩

end Load

namespace Loaded

variable {m : Loaded}

structure Counted (m : Loaded) : Prop where
  code : m.code.length = m.header.codeLength.toNat
  constants : m.constants.toList.length = m.header.constants.toNat
  inputs : m.inputs.toList.length = m.header.inputs.toNat
  offsets : m.inputOffsets.toList.length = m.header.offsetEntries
  datasets : m.outputDatasets.toList.length = m.header.outputs.toNat
  types : m.outputTypes.toList.length = m.header.outputs.toNat
  fields : m.outputFields.toList.length = m.header.outputs.toNat
  functions : m.functions.toList.length = m.header.functions.toNat

theorem counted (hs : Sized m.header m.stored) : m.Counted := by
  have count : ∀ {α : Type} [Stored α] (v : View α) (n : Nat), 0 < Stored.width α →
      v.bytes.length = Stored.width α * n → v.toList.length = n := by
    intro α _ v n hw hl
    rw [View.length_toList, View.size, hl, Nat.mul_div_cancel_left n hw]
  exact {
    code := hs .code
    constants := count _ _ (by decide) (hs .constants)
    inputs := count _ _ (by decide) (hs .inputs)
    offsets := count _ _ (by decide) (hs .inputOffsets)
    datasets := count _ _ (by decide) (hs .outputDatasets)
    types := count _ _ (by decide) ((hs .outputTypes).trans (Nat.one_mul _).symm)
    fields := count _ _ (by decide) (hs .outputFields)
    functions := count _ _ (by decide) (hs .functions) }

/-- A section whose values fill it is read by index as it is read at once. -/
theorem reads_section {α : Type} [Stored α] {v : View α} {s : Section} {n : Nat} (hs : Sized m.header m.stored)
    (hv : m.stored s = v.bytes) (hn : s.length m.header = Stored.width α * n) (hpos : 0 < Stored.width α)
    (hw : Stored.width α < UInt64.size) : v.Reads v.toList := by
  have hl : v.bytes.length = s.length m.header := hv ▸ hs s
  have hlt := s.length_lt m.header
  exact View.reads_toList hpos hw (hl.trans hn) (by rw [hl]; exact Nat.lt_trans hlt (by decide))

theorem packable_toImage (hc : m.Counted) : m.toImage.Packable where
  code := hc.code ▸ m.header.codeLength.toNat_lt
  functions := hc.functions ▸ m.header.functions.toNat_lt
  constants := hc.constants ▸ m.header.constants.toNat_lt
  inputs := hc.inputs ▸ m.header.inputs.toNat_lt
  outputs := hc.datasets ▸ m.header.outputs.toNat_lt
  offsets := by
    have hlt := m.header.inputDatasets.toNat_lt
    show m.inputOffsets.toList.length = 0 ∨ m.inputOffsets.toList.length % 2 = 1 ∧ m.inputOffsets.toList.length / 2 < 65536
    rw [hc.offsets, Header.offsetEntries]
    split <;> omega
  types := hc.types.trans hc.datasets.symm
  fields := hc.fields.trans hc.datasets.symm

theorem wholeOffsets_toImage (hc : m.Counted) : m.toImage.WholeOffsets := by
  intro h
  have hl : m.header.offsetEntries = 1 := hc.offsets ▸ h
  unfold Header.offsetEntries at hl
  split at hl
  · omega
  · rename_i hne
    exact hne (UInt16.toNat_inj.mp (show m.header.inputDatasets.toNat = 0 by omega))

/-- Counting again gives the header, the number of data sets from the number of offsets. -/
theorem synced_toImage (hc : m.Counted) : m.toImage.synced = m.header := by
  show { m.header with
    codeLength := UInt32.ofNat m.code.length
    constants := UInt16.ofNat m.constants.toList.length
    inputs := UInt16.ofNat m.inputs.toList.length
    outputs := UInt16.ofNat m.outputDatasets.toList.length
    functions := UInt32.ofNat m.functions.toList.length
    inputDatasets := UInt16.ofNat (m.inputOffsets.toList.length / 2) } = m.header
  rw [hc.code, hc.constants, hc.inputs, hc.datasets, hc.functions, hc.offsets, Header.ofNat_offsetEntries]
  simp only [UInt32.ofNat_toNat, UInt16.ofNat_toNat]

/-- Writing the values of every section again gives its bytes. -/
theorem contents_toImage (hs : Sized m.header m.stored) (hslots : ∀ f ∈ m.functions.toList, f.slot = 0) :
    m.toImage.contents = m.stored := by
  have words : ∀ (v : View UInt16) (n : Nat), v.bytes.length = 2 * n → Image.wordBytes v.toList = v.bytes :=
    fun v n h => View.flatMap_toList inverse_word (show v.bytes.length % 2 = 0 by omega) fun _ _ => trivial
  funext s
  cases s with
  | code => rfl
  | constants => exact words _ _ (hs .constants)
  | inputs => exact words _ _ (hs .inputs)
  | inputOffsets => exact words _ _ (hs .inputOffsets)
  | outputDatasets => exact words _ _ (hs .outputDatasets)
  | outputFields => exact words _ _ (hs .outputFields)
  | outputTypes =>
    have hb := View.flatMap_toList (v := m.outputTypes) inverse_byte (Nat.mod_one _) fun _ _ => trivial
    rw [List.flatMap_singleton'] at hb
    exact hb
  | functions =>
    have hl : m.functions.bytes.length = 16 * m.header.functions.toNat := hs .functions
    exact View.flatMap_toList inverse_function (show m.functions.bytes.length % 16 = 0 by omega) hslots

end Loaded

/-! ## Loading what was packed -/

/-- A table of offsets that cuts the inputs into stretches, every second one of fields that stay. -/
structure Image.Cut (m : Image) : Prop where
  first : m.inputOffsets.head? = some 0
  sorted : Load.isSorted m.inputOffsets = true
  last : m.inputOffsets.getLast? = some m.header.inputs
  still : Load.stillTotal 0 m.inputOffsets = m.header.stillInputs.toNat

structure Image.Checked (m : Image) : Prop where
  header : m.synced = m.header
  slots : ∀ f ∈ m.functions, f.slot = 0
  lower : -1 ≤ m.header.lastFunction.toInt
  upper : m.header.lastFunction.toInt < m.functions.length
  inputs : m.inputOffsets = [] ∧ m.header.inputs = 0 ∧ m.header.stillInputs = 0 ∨ m.Cut
  types : ∀ t ∈ m.outputTypes, (Element.ofByte? t).isSome = true
  datasets : ∀ d ∈ m.outputDatasets, d.toNat < m.header.outputDatasets.toNat

namespace Load

variable {l : Loaded}

theorem inputsOk_of (h : l.toImage.inputOffsets = [] ∧ l.toImage.header.inputs = 0 ∧ l.toImage.header.stillInputs = 0 ∨
    l.toImage.Cut) : inputsOk l = true := by
  unfold inputsOk
  rcases h with h | h
  · obtain ⟨hoffsets, hinputs, hstill⟩ := h
    rw [show l.inputOffsets.toList = [] from hoffsets]
    show (l.header.inputs == 0 && l.header.stillInputs == 0) = true
    rw [show l.header.inputs = 0 from hinputs, show l.header.stillInputs = 0 from hstill]
    rfl
  · obtain ⟨hfirst, hsorted, hlast, hstill⟩ := h
    have hfirst : l.inputOffsets.toList.head? = some 0 := hfirst
    split
    · rename_i hnil
      rw [hnil] at hfirst
      cases hfirst
    · rw [hfirst, show isSorted l.inputOffsets.toList = true from hsorted,
        show l.inputOffsets.toList.getLast? = some l.header.inputs from hlast,
        show stillTotal 0 l.inputOffsets.toList = l.header.stillInputs.toNat from hstill]
      simp

theorem outputsOk_of (ht : ∀ t ∈ l.toImage.outputTypes, (Element.ofByte? t).isSome = true)
    (hd : ∀ d ∈ l.toImage.outputDatasets, d.toNat < l.toImage.header.outputDatasets.toNat) : outputsOk l = true := by
  unfold outputsOk
  rw [Bool.and_eq_true, List.all_eq_true, List.all_eq_true]
  exact ⟨ht, fun d h => decide_eq_true (hd d h)⟩

end Load

namespace Image

variable {m : Image}

/-- The view of a packed image holds the image with its counts. -/
theorem toImage_view (hp : m.Packable) (ho : m.WholeOffsets) (hslots : ∀ f ∈ m.functions, f.slot = 0) :
    Load.Outer Digest.short m.pack m.synced ∧ (Load.view m.pack m.synced).toImage = { m with header := m.synced } := by
  obtain ⟨houter, hsections⟩ := Load.outer_framed (sized_contents hp ho)
  rw [← pack_eq hp ho] at houter hsections
  have words : ∀ ws : List UInt16, (View.mk (wordBytes ws) : View UInt16).toList = ws :=
    fun ws => View.toList_flatMap inverse_word fun _ _ => trivial
  refine ⟨houter, ?_⟩
  have htypes : (View.mk (m.outputTypes.flatMap fun b => [b]) : View UInt8).toList = m.outputTypes :=
    View.toList_flatMap inverse_byte fun _ _ => trivial
  rw [List.flatMap_singleton'] at htypes
  unfold Load.view Loaded.toImage
  simp only [hsections, contents, words, htypes, View.toList_flatMap inverse_function hslots]

/-- A packed image loads, and holds the image. -/
theorem load_pack (hp : m.Packable) (ho : m.WholeOffsets) (hc : m.Checked) :
    ∃ l, load m.pack = .ok l ∧ l.toImage = m := by
  obtain ⟨houter, himage⟩ := toImage_view hp ho hc.slots
  rw [hc.header] at houter himage
  have hcount : m.header.functions.toNat = m.functions.length := by
    rw [← hc.header]
    exact UInt32.toNat_ofNat_of_lt' hp.functions
  refine ⟨Load.view m.pack m.header, Load.load_ok_iff.mpr ⟨houter, rfl, ?_, ?_, ?_⟩, himage⟩
  · have hfunctions : (Load.view m.pack m.header).functions.toList = m.functions := congrArg Image.functions himage
    refine Load.functionsOk_iff.mpr ⟨?_, hc.lower, ?_⟩
    · rw [hfunctions]
      exact hc.slots
    · show m.header.lastFunction.toInt < m.header.functions.toNat
      rw [hcount]
      exact hc.upper
  · exact Load.inputsOk_of (himage.symm ▸ hc.inputs)
  · exact Load.outputsOk_of (himage.symm ▸ hc.types) (himage.symm ▸ hc.datasets)

end Image

/-! ## The round trip -/

variable {buffer : Bytes} {m : Loaded}

/-- What was loaded packs to the bytes it was loaded from. -/
theorem packBy_toImage (h : loadBy digest buffer = .ok m) : m.toImage.packBy digest = buffer := by
  have ha := Load.loadBy_ok_iff.mp h
  have hc := Loaded.counted ha.sized
  calc
    m.toImage.packBy digest = framed digest m.toImage.synced m.toImage.contents :=
      Image.packBy_eq (Loaded.packable_toImage hc) (Loaded.wholeOffsets_toImage hc)
    _ = framed digest m.header m.stored := by
      rw [Loaded.synced_toImage hc, Loaded.contents_toImage ha.sized (Load.functionsOk_iff.mp ha.functions).1]
    _ = buffer := ha.eq_framed.symm

/-- Whatever loads under some digest, `load` and `pack` using one of them, is packable, counts itself as its header
    does and packs to the bytes it was loaded from. No other bytes load to the same header and values. -/
theorem load_canonical : loadBy Digest.short = load ∧ Image.packBy Digest.short = Image.pack ∧
    ∀ (digest : Bytes → UInt64) (buffer : Bytes) (m : Loaded), loadBy digest buffer = .ok m →
      m.toImage.isPackable = true ∧ m.toImage.synced = m.header ∧ m.toImage.packBy digest = buffer ∧
        ∀ other m', loadBy digest other = .ok m' → m'.toImage = m.toImage → other = buffer := by
  refine ⟨loadBy_short, packBy_short, ?_⟩
  intro digest buffer m h
  have hc := Loaded.counted (Load.loadBy_ok_iff.mp h).sized
  refine ⟨Image.isPackable_iff.mpr (Loaded.packable_toImage hc), Loaded.synced_toImage hc, packBy_toImage h, ?_⟩
  intro other m' h' himage
  rw [← packBy_toImage h', himage, packBy_toImage h]

/-- An image with something in every section: its data set has one field that advances and one that stays. -/
def smallImage : Image where
  header := {
    codeLength := 3, outputDatasets := 1, constants := 1, inputs := 2, stillInputs := 1, inputDatasets := 1,
    outputs := 1, functions := 1, lastFunction := 0 }
  code := [1, 2, 3]
  constants := [7]
  inputs := [5, 9]
  inputOffsets := [0, 1, 2]
  outputDatasets := [0]
  outputTypes := [Element.byte .half]
  outputFields := [4]
  functions := [{ sources := 2, dests := 1, registers := 3 }]

theorem load_canonical_small : ∃ m, load smallImage.pack = .ok m ∧ m.toImage = smallImage ∧
    m.toImage.isPackable = true ∧ m.toImage.synced = m.header ∧ m.toImage.pack = smallImage.pack ∧
      ∀ other m', load other = .ok m' → m'.toImage = m.toImage → other = smallImage.pack := by
  have hc : smallImage.Checked := {
    header := by decide
    slots := by decide
    lower := by decide
    upper := by decide
    inputs := .inr ⟨by decide, by decide, by decide, by decide⟩
    types := List.forall_mem_singleton.mpr (by decide)
    datasets := List.forall_mem_singleton.mpr (by decide) }
  have ho : smallImage.inputOffsets.length ≠ 1 := by decide
  obtain ⟨m, hm, himage⟩ := Image.load_pack (Image.isPackable_iff.mp (by decide)) ho hc
  obtain ⟨hload, hpack, hcanonical⟩ := load_canonical
  have hsmall := hcanonical Digest.short smallImage.pack m (by rw [hload]; exact hm)
  rw [hload, hpack] at hsmall
  exact ⟨m, hm, himage, hsmall⟩

end LaneScript
