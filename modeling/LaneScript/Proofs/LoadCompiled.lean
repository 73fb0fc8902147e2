/-
  LaneScript.Proofs.LoadCompiled — what a compile produces can be loaded.

  Proved: the tables of a compiled image pass every check of `load`. The offsets begin
  at zero, never fall and end at the number of inputs, and their second stretches hold
  the fields that stay; every function called is in the table; every output has an
  element type and a data set below the count. So a packable image of a compile loads,
  to views that hold its arrays.
-/
import LaneScript.Proofs.Compile
import LaneScript.Proofs.Repack

namespace LaneScript

/-! ## Calls -/

namespace Stream.CallTable

theorem record_ok {table table' : CallTable} {f : UInt16} {shape : CallShape}
    (h : table.record f shape = .ok table') : f.toNat < table.size ∧ table'.size = table.size := by
  unfold record at h
  split at h
  · cases h
  · rename_i hf
    cases h
    exact ⟨(Array.getElem?_eq_some_iff.mp hf).1, by simp⟩
  · rename_i hf
    split at h
    · cases h
      exact ⟨(Array.getElem?_eq_some_iff.mp hf).1, rfl⟩
    · cases h

/-- Recording calls keeps the size of the table, and all functions called are in it. -/
theorem recordAll_ok {calls : List (UInt16 × CallShape)} {table table' : CallTable}
    (h : calls.foldlM (fun t c => t.record c.1 c.2) table = .ok table') :
    table'.size = table.size ∧ ∀ c ∈ calls, c.1.toNat < table.size := by
  induction calls generalizing table with
  | nil =>
    cases h
    exact ⟨rfl, fun c hc => absurd hc List.not_mem_nil⟩
  | cons c calls ih =>
    rw [List.foldlM_cons] at h
    obtain ⟨table1, h1, h2⟩ := Emission.bind_ok h
    obtain ⟨hlt, hsize⟩ := record_ok h1
    obtain ⟨hend, hall⟩ := ih h2
    refine ⟨hend.trans hsize, ?_⟩
    intro x hx
    rcases List.mem_cons.mp hx with rfl | hx
    · exact hlt
    · rw [← hsize]
      exact hall x hx

end Stream.CallTable

namespace Compile

open Program

section Called

variable {settings : Settings} {d : Stream.Decoded} {o : Optimized} (h : Optimum settings d o)

include h

/-- The functions that an optimised program calls are called by the program it was read from. -/
theorem mem_call?_of_mem_callsOf {order : List Nat} {call : UInt16 × Nat} (hc : call ∈ callsOf o.program o.live order) :
    ∃ c ∈ (d.items.flatMap Stream.Item.instructions).filterMap Instruction.call?, c.1 = call.1 := by
  obtain ⟨i, -, hi⟩ := List.mem_filterMap.mp hc
  split at hi
  · cases hi
  · rename_i n hn
    split at hi
    · rename_i f hf
      cases hi
      obtain ⟨m, hm⟩ := exists_node (p := d.program) (by rw [← h.handed.size]; exact lt_size_of_getElem? hn)
      obtain ⟨-, hpay, -⟩ := h.handed.same i m n hm hn
      have hinstrs : d.items.flatMap Stream.Item.instructions = d.program.instrs := (map_instr_ofItems d.items).symm
      refine ⟨(f, ⟨m.instr.sources.length, m.instr.dests.length⟩), List.mem_filterMap.mpr ⟨m.instr, ?_, ?_⟩, rfl⟩
      · rw [hinstrs]
        refine List.mem_of_getElem? (i := i) ?_
        rw [getElem?_instrs, hm]
        rfl
      · unfold Instruction.call?
        rw [← hpay, hf]
    · cases hi

end Called

/-- The last function called is below what bounds all of them, and is -1 if there is none. -/
theorem lastFunction_bounds {calls : List (UInt16 × Nat)} {n : Nat} (h : ∀ c ∈ calls, c.1.toNat < n) :
    -1 ≤ lastFunction calls ∧ lastFunction calls < n := by
  unfold lastFunction
  refine List.foldlRecOn calls _ (motive := fun top : Int => -1 ≤ top ∧ top < n) ⟨by omega, by omega⟩ ?_
  intro top htop c hc
  have hlt := h c hc
  show -1 ≤ max top (c.1.toNat : Int) ∧ max top (c.1.toNat : Int) < n
  omega

theorem slot_functionRow (shape : Option Stream.CallShape) : (functionRow shape).slot = 0 := by
  cases shape <;> rfl

end Compile

/-! ## Offsets -/

namespace Renumbering

theorem bounds_from_zero (ls : List Nat) : (bounds ls).map (0 + ·) = bounds ls := by simp

/-- The bounds of a list and of those behind it. -/
theorem bounds_cons (start n : Nat) (ls : List Nat) :
    (bounds (n :: ls)).map (start + ·) = start :: (bounds ls).map (start + n + ·) := by
  rw [bounds_eq, bounds_eq, List.length_cons, List.range_succ_eq_map]
  simp [Function.comp_def, Nat.add_assoc]

theorem length_bounds (ls : List Nat) : (bounds ls).length = ls.length + 1 := by
  rw [bounds_eq, List.length_map, List.length_range]

theorem head?_bounds (start : Nat) (ls : List Nat) : ((bounds ls).map (start + ·)).head? = some start := by
  cases ls with
  | nil => rfl
  | cons n ls => rw [bounds_cons, List.head?_cons]

theorem getLast?_bounds (ls : List Nat) : (bounds ls).getLast? = some (total ls) := by
  rw [bounds_eq, List.range_succ]
  simp

/-- Bounds that a word holds never fall. -/
theorem isSorted_bounds {start : Nat} {ls : List Nat} (h : start + total ls ≤ 65535) :
    Load.isSorted (((bounds ls).map (start + ·)).map UInt16.ofNat) = true := by
  induction ls generalizing start with
  | nil => rfl
  | cons n ls ih =>
    rw [total_cons] at h
    have htail : Load.isSorted (((bounds ls).map (start + n + ·)).map UInt16.ofNat) = true := ih (by omega)
    have hhead := head?_bounds (start + n) ls
    rw [bounds_cons]
    cases hb : (bounds ls).map (start + n + ·) with
    | nil =>
      rw [hb] at hhead
      cases hhead
    | cons next rest =>
      rw [hb] at hhead htail
      cases hhead
      simp only [List.map_cons, Load.isSorted, Bool.and_eq_true, decide_eq_true_eq] at htail ⊢
      refine ⟨?_, htail⟩
      rw [UInt16.le_iff_toNat_le, UInt16.toNat_ofNat_of_lt' (by unfold UInt16.size; omega),
        UInt16.toNat_ofNat_of_lt' (by unfold UInt16.size; omega)]
      omega

def fieldCounts (inputs : List InputFields) : List Nat :=
  inputs.flatMap fun fields => [fields.advancing.size, fields.still.size]

theorem fieldCounts_cons (fields : InputFields) (inputs : List InputFields) :
    fieldCounts (fields :: inputs) = fields.advancing.size :: fields.still.size :: fieldCounts inputs := rfl

/-- The second stretches of the data sets hold the fields that stay. -/
theorem stillTotal_bounds {inputs : List InputFields} {start : Nat} (h : start + total (fieldCounts inputs) ≤ 65535)
    (count : Nat) : Load.stillTotal count (((bounds (fieldCounts inputs)).map (start + ·)).map UInt16.ofNat) =
      count + total (inputs.map fun fields => fields.still.size) := by
  -- A data set takes two bounds; the third one read with them is the first of the next data set.
  induction inputs generalizing start count with
  | nil => rfl
  | cons fields inputs ih =>
    rw [fieldCounts_cons, total_cons, total_cons] at h
    have hrest : start + fields.advancing.size + fields.still.size + total (fieldCounts inputs) ≤ 65535 := by omega
    have htail := fun count => ih hrest count
    have hhead := head?_bounds (start + fields.advancing.size + fields.still.size) (fieldCounts inputs)
    rw [fieldCounts_cons, bounds_cons, bounds_cons]
    cases hb : (bounds (fieldCounts inputs)).map (start + fields.advancing.size + fields.still.size + ·) with
    | nil =>
      rw [hb] at hhead
      cases hhead
    | cons next rest =>
      rw [hb] at hhead htail
      cases hhead
      simp only [List.map_cons] at htail ⊢
      rw [Load.stillTotal, htail, UInt16.toNat_ofNat_of_lt' (by unfold UInt16.size; omega),
        UInt16.toNat_ofNat_of_lt' (by unfold UInt16.size; omega), total_cons]
      omega

theorem map_length_fieldLists (inputs : Array InputFields) :
    (fieldLists inputs).map List.length = fieldCounts inputs.toList := by
  simp [fieldLists, fieldCounts, List.map_flatMap]

theorem total_still_le (inputs : List InputFields) :
    total (inputs.map fun fields => fields.still.size) ≤ total (fieldCounts inputs) := by
  induction inputs with
  | nil => exact Nat.le_refl _
  | cons fields inputs ih =>
    rw [fieldCounts_cons, List.map_cons, total_cons, total_cons, total_cons]
    omega

/-! ## Outputs -/

theorem size_addOutput (outputs : Array Numbering) (s : OutputSlot) :
    (addOutput outputs s).size = max outputs.size (s.dataset.toNat + 1) := by
  rw [addOutput, Array.size_modify, size_grow]

theorem size_addOutputs_le (ss : List OutputSlot) : (ss.foldl addOutput #[]).size ≤ 65536 := by
  refine List.foldlRecOn ss _ (motive := fun outputs : Array Numbering => outputs.size ≤ 65536) (Nat.zero_le _) ?_
  intro outputs hle s _
  have hlt := s.dataset.toNat_lt
  rw [size_addOutput]
  omega

/-- Every data set written is below the number of data sets. -/
theorem dataset_lt_size {ss : List OutputSlot} {s : OutputSlot} (hs : s ∈ ss) (outputs : Array Numbering) :
    s.dataset.toNat < (ss.foldl addOutput outputs).size := by
  have grows : ∀ (ss : List OutputSlot) (outputs : Array Numbering), outputs.size ≤ (ss.foldl addOutput outputs).size := by
    intro ss
    induction ss with
    | nil => exact fun outputs => Nat.le_refl _
    | cons t ss ih =>
      intro outputs
      have hle := ih (addOutput outputs t)
      rw [size_addOutput] at hle
      rw [List.foldl_cons]
      omega
  induction ss generalizing outputs with
  | nil => cases hs
  | cons t ss ih =>
    rw [List.foldl_cons]
    rcases List.mem_cons.mp hs with rfl | hs
    · have hle := grows ss (addOutput outputs s)
      rw [size_addOutput] at hle
      omega
    · exact ih hs _

/-- The element of a slot is one of those there are. -/
theorem element_of_slotAt {p : Program} {i : Nat} {s : OutputSlot} (h : slotAt p i = some s) :
    (Element.ofByte? s.element).isSome = true := by
  obtain ⟨n, -, hn⟩ := Option.bind_eq_some_iff.mp h
  unfold slotIn? at hn
  split at hn
  · rename_i element _
    cases hn
    show (Element.ofByte? element.byte).isSome = true
    cases element <;> rfl
  · cases hn

end Renumbering

namespace Compile

section Compiled

variable {settings : Settings} {o : Optimized} {c : Compiled} {e : Emission} (hw : Written settings o c e)

include hw

/-- The offsets are those of the fields of each data set, and cut them as the header counts them. -/
theorem cut_image : c.image.inputOffsets = [] ∧ c.image.header.inputs = 0 ∧ c.image.header.stillInputs = 0 ∨
    c.image.Cut ∧ c.image.inputOffsets.length ≠ 1 := by
  have hn := Renumbering.numbered_ofOrder hw.numbered
  have hc := Renumbering.ofOrder_isOk_iff.mp ⟨_, hw.numbered⟩
  have hoffsets : c.image.inputOffsets = c.renumbering.inputOffsets := by rw [hw.image]; rfl
  have hinputs : c.image.header.inputs = UInt16.ofNat c.renumbering.inputFields.length := by rw [hw.image]; rfl
  have hstill : c.image.header.stillInputs = UInt16.ofNat c.renumbering.stillCount := by rw [hw.image]; rfl
  have hfields := hc.fields
  rw [hn.inputOffsets] at hoffsets
  rw [hn.inputFields, length_flatten] at hinputs
  rw [hn.stillCount] at hstill
  generalize (o.order.filterMap (Renumbering.inputAt o.program)).foldl Renumbering.addInput #[] = inputs at *
  rw [Renumbering.map_length_fieldLists] at hoffsets hinputs hfields
  by_cases hempty : inputs.isEmpty = true
  · refine .inl ?_
    rw [if_pos hempty] at hoffsets
    rw [Array.isEmpty_iff.mp hempty] at hinputs hstill
    exact ⟨hoffsets, hinputs, hstill⟩
  · rw [if_neg hempty, ← Renumbering.bounds_from_zero] at hoffsets
    have hstillLe := Renumbering.total_still_le inputs.toList
    refine .inr ⟨⟨?_, ?_, ?_, ?_⟩, ?_⟩
    · rw [hoffsets, List.head?_map, Renumbering.head?_bounds]
      rfl
    · rw [hoffsets]
      exact Renumbering.isSorted_bounds (by omega)
    · rw [hoffsets, hinputs, Renumbering.bounds_from_zero, List.getLast?_map, Renumbering.getLast?_bounds]
      rfl
    · rw [hoffsets, hstill, Renumbering.stillTotal_bounds (by omega), Nat.zero_add,
        UInt16.toNat_ofNat_of_lt' (by unfold UInt16.size; omega)]
    · rw [hoffsets, List.length_map, List.length_map, Renumbering.length_bounds]
      intro hone
      have hnil : Renumbering.fieldCounts inputs.toList = [] := List.length_eq_zero_iff.mp (by omega)
      cases hl : inputs.toList with
      | nil => exact hempty (Array.isEmpty_iff.mpr (Array.toList_eq_nil_iff.mp hl))
      | cons fields rest =>
        rw [hl, Renumbering.fieldCounts_cons] at hnil
        cases hnil

theorem wholeOffsets_image : c.image.WholeOffsets := by
  rcases cut_image hw with h | h
  · unfold Image.WholeOffsets
    rw [h.1]
    decide
  · exact h.2

/-- A compiled image passes the checks of `load`. -/
theorem checked_image {d : Stream.Decoded} {functions : Nat} (h : Optimum settings d o)
    (hd : functions ≤ Stream.maxFunctions)
    (hcalls : Stream.CallTable.visitAll (Array.replicate functions none) d.items = .ok d.calls) : c.image.Checked := by
  have hn := Renumbering.numbered_ofOrder hw.numbered
  rw [Stream.visitAll_eq_recordAll _ h.items] at hcalls
  obtain ⟨hsize, hcalled⟩ := Stream.CallTable.recordAll_ok hcalls
  rw [Array.size_replicate] at hsize hcalled
  have hcount : c.image.functions.length = functions := by
    rw [hw.image]
    show (o.calls.toList.map functionRow).length = functions
    rw [List.length_map, Array.length_toList, h.calls, hsize]
  have hbelow : ∀ call ∈ callsOf o.program o.live o.order, call.1.toNat < functions := by
    intro call hmem
    obtain ⟨c', hc', e⟩ := mem_call?_of_mem_callsOf h hmem
    rw [← e]
    exact hcalled c' hc'
  obtain ⟨hlower, hupper⟩ := lastFunction_bounds hbelow
  have hlast : c.image.header.lastFunction.toInt = lastFunction (callsOf o.program o.live o.order) := by
    rw [hw.image]
    show (Int32.ofInt (lastFunction (callsOf o.program o.live o.order))).toInt = _
    unfold Stream.maxFunctions at hd
    exact Int32.toInt_ofInt_of_le (by omega) (by omega)
  refine ⟨?_, ?_, ?_, ?_, ?_, ?_, ?_⟩
  · rw [hw.image]
    rfl
  · rw [hw.image]
    intro f hf
    obtain ⟨shape, -, rfl⟩ := List.mem_map.mp hf
    exact slot_functionRow shape
  · rw [hlast]
    exact hlower
  · rw [hlast, hcount]
    exact hupper
  · rcases cut_image hw with hcut | hcut
    · exact .inl hcut
    · exact .inr hcut.1
  · rw [hw.image]
    intro t ht
    obtain ⟨s, hs, rfl⟩ := List.mem_map.mp ht
    rw [hn.slots] at hs
    obtain ⟨i, -, hi⟩ := List.mem_filterMap.mp hs
    exact Renumbering.element_of_slotAt hi
  · rw [hw.image]
    intro dataset hdataset
    obtain ⟨s, hs, rfl⟩ := List.mem_map.mp hdataset
    show s.dataset.toNat < (UInt32.ofNat c.renumbering.outputs.size).toNat
    rw [hn.slots] at hs
    have hle := Renumbering.size_addOutputs_le (o.order.filterMap (Renumbering.slotAt o.program))
    rw [hn.outputs, UInt32.toNat_ofNat_of_lt' (by unfold UInt32.size; omega)]
    exact Renumbering.dataset_lt_size hs #[]

end Compiled

/-- The packable image of a compile loads. Its header counts its arrays, and the loaded header, stream and views are
    the image's, value by value. -/
theorem load_compiled {code : Bytes} {functions : UInt32} {settings : Settings} {c : Compiled}
    (h : compile code functions settings = .ok c) (hp : c.image.isPackable = true) :
    ∃ m, load c.image.pack = .ok m ∧ m.header = c.image.header ∧ c.image.header = c.image.synced ∧
      m.code = c.image.code ∧ m.constants.Reads c.image.constants ∧ m.inputs.Reads c.image.inputs ∧
      m.inputOffsets.Reads c.image.inputOffsets ∧ m.outputDatasets.Reads c.image.outputDatasets ∧
      m.outputTypes.Reads c.image.outputTypes ∧ m.outputFields.Reads c.image.outputFields ∧
      m.functions.Reads c.image.functions := by
  obtain ⟨d, o, e, hd, ho, hw⟩ := compile_ok h
  obtain ⟨hn, -, hcalls⟩ := Stream.decode_ok hd
  have hc := checked_image hw ho hn hcalls
  obtain ⟨m, hm, himage⟩ := Image.load_pack (Image.isPackable_iff.mp hp) (wholeOffsets_image hw) hc
  have hs := (Load.load_ok_iff.mp hm).sized
  rw [← himage] at hm ⊢
  exact ⟨m, hm, rfl, (Loaded.synced_toImage (Loaded.counted hs)).symm, rfl,
    Loaded.reads_section (s := .constants) hs rfl rfl (by decide) (by decide),
    Loaded.reads_section (s := .inputs) hs rfl rfl (by decide) (by decide),
    Loaded.reads_section (s := .inputOffsets) hs rfl rfl (by decide) (by decide),
    Loaded.reads_section (s := .outputDatasets) hs rfl rfl (by decide) (by decide),
    Loaded.reads_section (s := .outputTypes) hs rfl (Nat.one_mul _).symm (by decide) (by decide),
    Loaded.reads_section (s := .outputFields) hs rfl rfl (by decide) (by decide),
    Loaded.reads_section (s := .functions) hs rfl rfl (by decide) (by decide)⟩

/-- Two fields, one of which stays, go to the second of two external functions with a constant; one result is written. -/
def callStream : Bytes :=
  [0x70, 0, 0, 0, 2, 0, 8, 0x73, 0, 0, 0, 3, 0, 9, 0xb0, 0, 1, 3, 2, 0, 0, 8, 1, 0, 4, 0, 0, 9, 0, 7, 0, 6,
   0x82, 0, 0, 2, 0, 7, 0, 8, 0, 5, 0]

theorem load_compiled_call : ∃ c, compile callStream 2 {} = .ok c ∧ c.image.isPackable = true ∧
    ∃ m, load c.image.pack = .ok m ∧ m.header = c.image.header ∧ c.image.header = c.image.synced ∧
      m.code = c.image.code ∧ m.constants.Reads c.image.constants ∧ m.inputs.Reads c.image.inputs ∧
      m.inputOffsets.Reads c.image.inputOffsets ∧ m.outputDatasets.Reads c.image.outputDatasets ∧
      m.outputTypes.Reads c.image.outputTypes ∧ m.outputFields.Reads c.image.outputFields ∧
      m.functions.Reads c.image.functions := by
  obtain ⟨c, hc, hp⟩ := exists_of_any_ok (p := fun c => c.image.isPackable)
    (by decide +kernel : (compile callStream 2 {}).toOption.any (fun c => c.image.isPackable) = true)
  exact ⟨c, hc, hp, load_compiled hc hp⟩

end Compile

end LaneScript
