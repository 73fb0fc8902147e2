/-
  LaneScript.Proofs.Indexing — a loaded image can be indexed without further checks.

  Proved: every view of a loaded image has as many values as the header says; the
  ranges of its input data sets follow one another without gap or overlap from the
  first input to the last; its output slots have types and data sets within bounds; its
  functions are unbound and every called one is in the table. And reading any buffer
  at all leaves no slice outside it and ends with an image or with a fatal word.
-/
import Mathlib.Data.List.Basic
import LaneScript.Proofs.Guarded
import LaneScript.Proofs.Repack

namespace LaneScript

/-! ## Ranges -/

/-- A range of input slots, from the first number to before the second. -/
abbrev Slots := Nat × Nat

structure Tiles (start stop : Nat) (rs : List Slots) : Prop where
  within : ∀ r ∈ rs, start ≤ r.1 ∧ r.1 ≤ r.2 ∧ r.2 ≤ stop
  apart : rs.Pairwise fun r s => r.2 ≤ s.1
  covers : rs.flatMap (fun r => List.range' r.1 (r.2 - r.1)) = List.range' start (stop - start)

theorem Tiles.nil (n : Nat) : Tiles n n [] where
  within := List.forall_mem_nil _
  apart := List.Pairwise.nil
  covers := by rw [Nat.sub_self]; rfl

theorem Tiles.cons {a b stop : Nat} {rs : List Slots} (hab : a ≤ b) (hstop : b ≤ stop) (h : Tiles b stop rs) :
    Tiles a stop ((a, b) :: rs) where
  within := by
    intro r hr
    rcases List.mem_cons.mp hr with rfl | hr
    · exact ⟨Nat.le_refl _, hab, hstop⟩
    · obtain ⟨hfrom, hto⟩ := h.within r hr
      exact ⟨Nat.le_trans hab hfrom, hto⟩
  apart := List.pairwise_cons.mpr ⟨fun r hr => (h.within r hr).1, h.apart⟩
  covers := by
    have hlen : stop - a = b - a + (stop - b) := by omega
    have hmid : a + (b - a) = b := by omega
    rw [List.flatMap_cons, h.covers, hlen, ← List.range'_append_1, hmid]

namespace Load

/-- The ranges that a table of offsets cuts, two for each data set. -/
def cuts : List UInt16 → List (Slots × Slots)
  | start :: split :: stop :: rest =>
    ((start.toNat, split.toNat), (split.toNat, stop.toNat)) :: cuts (stop :: rest)
  | [_, _] | [_] | [] => []

def flat (ranges : List (Slots × Slots)) : List Slots := ranges.flatMap fun r => [r.1, r.2]

theorem getElem?_cuts (offsets : List UInt16) (d : Nat) : (cuts offsets)[d]? = (do
    let start ← offsets[2 * d]?
    let split ← offsets[2 * d + 1]?
    let stop ← offsets[2 * d + 2]?
    some ((start.toNat, split.toNat), (split.toNat, stop.toNat))) := by
  fun_induction cuts offsets generalizing d with
  | case1 start split stop rest ih =>
    cases d with
    | zero => rfl
    | succ d =>
      rw [List.getElem?_cons_succ, ih]
      rfl
  | case2 | case3 | case4 => simp

theorem length_cuts (offsets : List UInt16) : (cuts offsets).length = (offsets.length - 1) / 2 := by
  fun_induction cuts offsets with
  | case1 start split stop rest ih =>
    rw [List.length_cons, ih]
    simp only [List.length_cons]
    omega
  | case2 | case3 | case4 => simp

theorem stillTotal_eq (count : Nat) (offsets : List UInt16) :
    stillTotal count offsets = count + total ((cuts offsets).map fun r => r.2.2 - r.2.1) := by
  fun_induction cuts offsets generalizing count with
  | case1 start split stop rest ih => rw [stillTotal, ih, List.map_cons, total_cons, Nat.add_assoc]
  | case2 | case3 | case4 => rfl

/-- Sorted offsets, two for each data set and an end, tile what is between the first and the last. -/
theorem tiles_cuts {first last : UInt16} {offsets : List UInt16} (hodd : offsets.length % 2 = 1)
    (hsorted : isSorted offsets = true) (hfirst : offsets.head? = some first) (hlast : offsets.getLast? = some last) :
    first.toNat ≤ last.toNat ∧ Tiles first.toNat last.toNat (flat (cuts offsets)) := by
  fun_induction cuts offsets generalizing first with
  | case1 start split stop rest ih =>
    simp only [isSorted, Bool.and_eq_true, decide_eq_true_eq] at hsorted
    obtain ⟨hsplit, hstop, hrest⟩ := hsorted
    have hodd : (stop :: rest).length % 2 = 1 := by
      simp only [List.length_cons] at hodd ⊢
      omega
    obtain ⟨hle, htiles⟩ := ih hodd hrest rfl hlast
    cases hfirst
    have hsplit : start.toNat ≤ split.toNat := hsplit
    have hstop : split.toNat ≤ stop.toNat := hstop
    exact ⟨by omega, .cons hsplit (by omega) (.cons hstop hle htiles)⟩
  | case3 only =>
    cases hfirst
    cases hlast
    exact ⟨Nat.le_refl _, .nil _⟩
  | case2 | case4 => simp at hodd

variable {m : Loaded}

/-- What `inputsOk` asks of the offsets. -/
theorem offsets_of_inputsOk (h : inputsOk m = true) :
    m.inputOffsets.toList = [] ∧ m.header.inputs = 0 ∧ m.header.stillInputs = 0 ∨ m.toImage.Cut := by
  unfold inputsOk at h
  split at h
  · rename_i hnil
    rw [Bool.and_eq_true, beq_iff_eq, beq_iff_eq] at h
    exact .inl ⟨hnil, h⟩
  · simp only [Bool.and_eq_true, beq_iff_eq] at h
    obtain ⟨⟨⟨hfirst, hsorted⟩, hlast⟩, hstill⟩ := h
    exact .inr ⟨hfirst, hsorted, hlast, hstill⟩

end Load

/-! ## Indexing -/

theorem filterMap_getElem?_range {α : Type} (xs : List α) : (List.range xs.length).filterMap (fun i => xs[i]?) = xs := by
  induction xs with
  | nil => rfl
  | cons x xs ih =>
    rw [List.length_cons, List.range_succ_eq_map, List.filterMap_cons_some (List.getElem?_cons_zero), List.filterMap_map]
    exact congrArg _ ih

def View.Has {α : Type} [Stored α] (v : View α) (n : Nat) : Prop :=
  v.size = n ∧ ∀ i : UInt64, (v.get? i).isSome = true ↔ i.toNat < n

theorem View.Reads.has {α : Type} [Stored α] {v : View α} {n : Nat} (h : v.Reads v.toList)
    (hn : v.toList.length = n) : v.Has n := by
  refine ⟨v.length_toList.symm.trans hn, ?_⟩
  intro i
  rw [h.2 i, ← hn]
  simp

theorem View.Reads.mem {α : Type} [Stored α] {v : View α} {i : UInt64} {a : α} (h : v.Reads v.toList)
    (hi : v.get? i = some a) : a ∈ v.toList :=
  List.mem_of_getElem? ((h.2 i).symm.trans hi)

namespace Loaded

def inputRanges (m : Loaded) : List (Slots × Slots) :=
  (List.range m.header.inputDatasets.toNat).filterMap fun d => m.inputRanges? (UInt16.ofNat d)

/-- What a host may rely on when it indexes a loaded image. -/
structure Indexable (m : Loaded) : Prop where
  code : m.code.length = m.header.codeLength.toNat
  constants : m.constants.Has m.header.constants.toNat
  inputs : m.inputs.Has m.header.inputs.toNat
  offsets : m.inputOffsets.Has m.header.offsetEntries
  outputDatasets : m.outputDatasets.Has m.header.outputs.toNat
  outputTypes : m.outputTypes.Has m.header.outputs.toNat
  outputFields : m.outputFields.Has m.header.outputs.toNat
  functions : m.functions.Has m.header.functions.toNat
  /-- Exactly the data sets that the header counts have ranges. -/
  ranges : ∀ dataset : UInt16, (m.inputRanges? dataset).isSome = true ↔ dataset < m.header.inputDatasets
  tiles : Tiles 0 m.inputs.size (Load.flat m.inputRanges)
  still : total (m.inputRanges.map fun r => r.2.2 - r.2.1) = m.header.stillInputs.toNat
  /-- Exactly the output slots that the header counts have a type. -/
  types : ∀ slot : UInt64, (m.outputType? slot).isSome = true ↔ slot.toNat < m.header.outputs.toNat
  datasets : ∀ slot d, m.outputDatasets.get? slot = some d → d.toNat < m.header.outputDatasets.toNat
  slots : ∀ i f, m.functions.get? i = some f → f.slot = 0
  last : -1 ≤ m.header.lastFunction.toInt ∧ m.header.lastFunction.toInt < m.header.functions.toNat

variable {m : Loaded}

theorem inputRanges?_eq (hr : m.inputOffsets.Reads m.inputOffsets.toList) (dataset : UInt16) :
    m.inputRanges? dataset = (Load.cuts m.inputOffsets.toList)[dataset.toNat]? := by
  have hlt := dataset.toNat_lt
  have hbase : (2 * dataset.toUInt64).toNat = 2 * dataset.toNat := by simp; omega
  have hsplit : (2 * dataset.toUInt64 + 1).toNat = 2 * dataset.toNat + 1 := by simp; omega
  have hstop : (2 * dataset.toUInt64 + 2).toNat = 2 * dataset.toNat + 2 := by simp; omega
  unfold inputRanges?
  simp only [hr.2, hbase, hsplit, hstop, Load.getElem?_cuts]

theorem offsetEntries_eq (h : Header) : (h.offsetEntries - 1) / 2 = h.inputDatasets.toNat := by
  unfold Header.offsetEntries
  by_cases hz : h.inputDatasets = 0
  · rw [if_pos hz, hz]
    rfl
  · rw [if_neg hz]
    omega

theorem length_cuts_offsets (hc : m.Counted) :
    (Load.cuts m.inputOffsets.toList).length = m.header.inputDatasets.toNat := by
  rw [Load.length_cuts, hc.offsets, offsetEntries_eq]

theorem isSome_inputRanges? (hc : m.Counted) (hr : m.inputOffsets.Reads m.inputOffsets.toList) (dataset : UInt16) :
    (m.inputRanges? dataset).isSome = true ↔ dataset < m.header.inputDatasets := by
  rw [inputRanges?_eq hr, UInt16.lt_iff_toNat_lt, ← length_cuts_offsets hc]
  simp

/-- The ranges of the data sets are those that the offsets cut. -/
theorem inputRanges_eq (hc : m.Counted) (hr : m.inputOffsets.Reads m.inputOffsets.toList) :
    m.inputRanges = Load.cuts m.inputOffsets.toList := by
  have hget : ∀ d ∈ List.range m.header.inputDatasets.toNat,
      m.inputRanges? (UInt16.ofNat d) = (Load.cuts m.inputOffsets.toList)[d]? := by
    intro d hd
    have hlt : d < 65536 := Nat.lt_trans (List.mem_range.mp hd) m.header.inputDatasets.toNat_lt
    rw [inputRanges?_eq hr, UInt16.toNat_ofNat_of_lt' hlt]
  unfold inputRanges
  rw [List.filterMap_congr hget, ← length_cuts_offsets hc]
  exact filterMap_getElem?_range _

theorem tiles_inputRanges (hc : m.Counted) (hr : m.inputOffsets.Reads m.inputOffsets.toList) (h : Load.inputsOk m = true) :
    Tiles 0 m.inputs.size (Load.flat m.inputRanges) ∧
      total (m.inputRanges.map fun r => r.2.2 - r.2.1) = m.header.stillInputs.toNat := by
  have hsize : m.inputs.size = m.header.inputs.toNat := m.inputs.length_toList.symm.trans hc.inputs
  rw [inputRanges_eq hc hr, hsize]
  rcases Load.offsets_of_inputsOk h with hnone | hcut
  · obtain ⟨hoffsets, hinputs, hstill⟩ := hnone
    rw [hoffsets, hinputs, hstill]
    exact ⟨.nil 0, rfl⟩
  · have hodd : m.inputOffsets.toList.length % 2 = 1 := by
      have hfirst : m.inputOffsets.toList.head? = some 0 := hcut.first
      have hne : m.header.offsetEntries ≠ 0 := by
        intro hz
        rw [List.length_eq_zero_iff.mp (hc.offsets.trans hz)] at hfirst
        cases hfirst
      rw [hc.offsets]
      unfold Header.offsetEntries at hne ⊢
      split at hne
      · exact absurd rfl hne
      · rename_i hsome
        rw [if_neg hsome]
        omega
    have hstill := Load.stillTotal_eq 0 m.inputOffsets.toList
    rw [Nat.zero_add] at hstill
    exact ⟨(Load.tiles_cuts hodd hcut.sorted hcut.first hcut.last).2, hstill.symm.trans hcut.still⟩

/-- A type is found for the slots that there are, as every stored one is known. -/
theorem isSome_outputType? (hc : m.Counted) (hr : m.outputTypes.Reads m.outputTypes.toList)
    (hknown : ∀ t ∈ m.outputTypes.toList, (Element.ofByte? t).isSome = true) (slot : UInt64) :
    (m.outputType? slot).isSome = true ↔ slot.toNat < m.header.outputs.toNat := by
  rw [← (hr.has hc.types).2 slot]
  unfold outputType?
  cases hget : m.outputTypes.get? slot with
  | none => simp
  | some t => simp [hknown t (hr.mem hget)]

theorem indexable {buffer : Bytes} (h : load buffer = .ok m) : m.Indexable := by
  have ha := Load.load_ok_iff.mp h
  have hs := ha.sized
  have hc := counted hs
  have words : ∀ (s : Section) {v : View UInt16} {n : Nat}, m.stored s = v.bytes → s.length m.header = 2 * n →
      v.Reads v.toList := fun s _ _ hv hn => reads_section hs hv hn (by decide) (by decide)
  have hoffsets : m.inputOffsets.Reads m.inputOffsets.toList := words .inputOffsets rfl rfl
  have hdatasets : m.outputDatasets.Reads m.outputDatasets.toList := words .outputDatasets rfl rfl
  have htypes : m.outputTypes.Reads m.outputTypes.toList :=
    reads_section (s := .outputTypes) hs rfl (Nat.one_mul _).symm (by decide) (by decide)
  have hfunctions : m.functions.Reads m.functions.toList :=
    reads_section (s := .functions) hs rfl rfl (by decide) (by decide)
  obtain ⟨hslots, hlast⟩ := Load.functionsOk_iff.mp ha.functions
  obtain ⟨htiles, hstill⟩ := tiles_inputRanges hc hoffsets ha.inputs
  have houtputs := ha.outputs
  unfold Load.outputsOk at houtputs
  rw [Bool.and_eq_true, List.all_eq_true, List.all_eq_true] at houtputs
  exact {
    code := hc.code
    constants := (words .constants rfl rfl).has hc.constants
    inputs := (words .inputs rfl rfl).has hc.inputs
    offsets := hoffsets.has hc.offsets
    outputDatasets := hdatasets.has hc.datasets
    outputTypes := htypes.has hc.types
    outputFields := (words .outputFields rfl rfl).has hc.fields
    functions := hfunctions.has hc.functions
    ranges := isSome_inputRanges? hc hoffsets
    tiles := htiles
    still := hstill
    types := isSome_outputType? hc htypes houtputs.1
    datasets := fun slot d hd => of_decide_eq_true (houtputs.2 d (hdatasets.mem hd))
    slots := fun i f hf => hslots f (hfunctions.mem hf)
    last := hlast }

end Loaded

theorem Rejection.isFatal_fault (r : Rejection) : r.fault.isFatal = true := by
  cases r <;> decide

/-- Reading a buffer never takes a slice outside it. What it accepts can be indexed as its header says, and what it
    rejects it rejects with a fatal word. -/
theorem load_safe (buffer : Bytes) :
    Guarded.load? buffer = some (load buffer) ∧ (∀ m, load buffer = .ok m → m.Indexable) ∧
      ∀ r, load buffer = .error r → r.fault.isFatal = true :=
  ⟨Guarded.load?_eq buffer, fun _ => Loaded.indexable, fun r _ => r.isFatal_fault⟩

def twoSets : Image where
  header := { inputs := 5, stillInputs := 2, inputDatasets := 2 }
  inputs := [4, 1, 0, 6, 7]
  inputOffsets := [0, 2, 2, 3, 5]

theorem load_safe_two_sets : ∃ m, load twoSets.pack = .ok m ∧ m.toImage = twoSets ∧
    Guarded.load? twoSets.pack = some (.ok m) ∧ m.Indexable := by
  have hc : twoSets.Checked := {
    header := by decide
    slots := by decide
    lower := by decide
    upper := by decide
    inputs := .inr ⟨by decide, by decide, by decide, by decide⟩
    types := List.forall_mem_nil _
    datasets := List.forall_mem_nil _ }
  have ho : twoSets.inputOffsets.length ≠ 1 := by decide
  obtain ⟨m, hm, himage⟩ := Image.load_pack (Image.isPackable_iff.mp (by decide)) ho hc
  obtain ⟨hguarded, hok, -⟩ := load_safe twoSets.pack
  rw [hm] at hguarded
  exact ⟨m, hm, himage, hguarded, hok m hm⟩

end LaneScript
