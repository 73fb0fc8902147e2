/-
  LaneScript.Proofs.Packable — which compiled images can be packed.

  Renumbering refuses programs with more than 65536 outputs, so that every output has a
  slot, but the header counts the outputs in a word and holds 65535 of them at most.
  Proved, for every compile that succeeds (`compile_packable_iff`): all counts of the
  header but that of the outputs are the lengths of their arrays, and the image is
  packable unless the program has 65536 outputs. There are such programs
  (`compile_unpackable`): the header of their image says that nothing is written.
-/
import LaneScript.Proofs.Faults
import LaneScript.Proofs.FirstUse
import LaneScript.Proofs.Recompile

namespace LaneScript

namespace Image

/-- Every count but that of the outputs fits its field, and the arrays agree with one another. -/
structure Bounded (m : Image) : Prop where
  code : m.code.length < 4294967296
  functions : m.functions.length < 4294967296
  constants : m.constants.length < 65536
  inputs : m.inputs.length < 65536
  offsets : m.inputOffsets.length = 0 ∨ m.inputOffsets.length % 2 = 1 ∧ m.inputOffsets.length / 2 < 65536
  types : m.outputTypes.length = m.outputDatasets.length
  fields : m.outputFields.length = m.outputDatasets.length

structure Counts (m : Image) : Prop where
  code : m.header.codeLength.toNat = m.code.length
  functions : m.header.functions.toNat = m.functions.length
  constants : m.header.constants.toNat = m.constants.length
  inputs : m.header.inputs.toNat = m.inputs.length
  offsets : m.header.offsetEntries = m.inputOffsets.length
  types : m.outputTypes.length = m.outputDatasets.length
  fields : m.outputFields.length = m.outputDatasets.length

theorem Bounded.packable_iff {m : Image} (h : m.Bounded) : m.Packable ↔ m.outputDatasets.length < 65536 :=
  ⟨Packable.outputs, fun ho => ⟨h.code, h.functions, h.constants, h.inputs, ho, h.offsets, h.types, h.fields⟩⟩

theorem Bounded.counts {m : Image} (h : m.Bounded) (hs : m.synced = m.header) (ho : m.WholeOffsets) : m.Counts := by
  refine ⟨?_, ?_, ?_, ?_, ?_, h.types, h.fields⟩
  all_goals rw [← hs]
  · exact UInt32.toNat_ofNat_of_lt' h.code
  · exact UInt32.toNat_ofNat_of_lt' h.functions
  · exact UInt16.toNat_ofNat_of_lt' h.constants
  · exact UInt16.toNat_ofNat_of_lt' h.inputs
  · exact offsetEntries_synced h.offsets ho

end Image

def outputCount (is : List Instruction) : Nat := is.countP fun i => i.category == .output

theorem length_filterMap_slotIn? (is : List Instruction) :
    (is.filterMap Renumbering.slotIn?).length = outputCount is := by
  rw [List.length_filterMap_eq_countP]
  refine List.countP_congr fun i _ => ?_
  unfold Renumbering.slotIn? Instruction.category
  cases i.opcode <;> simp [Opcode.category]

namespace Compile

open Program Renumbering

section Compiled

variable {settings : Settings} {d : Stream.Decoded} {o : Optimized} {c : Compiled} {e : Emission}
  (h : Optimum settings d o) (hw : Written settings o c e)

include h in
/-- Every output of the program is emitted, in the program's order. -/
theorem slots_order : o.order.filterMap (slotAt o.program) = d.program.instrs.filterMap slotIn? := by
  have hsame (i : Nat) : slotAt o.program i = slotAt d.program i := by
    unfold slotAt
    by_cases hi : i < d.program.size
    · obtain ⟨m, hm⟩ := exists_node hi
      obtain ⟨n, hn⟩ := exists_node (p := o.program) (by rw [h.handed.size]; exact hi)
      obtain ⟨hop, hpay, -⟩ := h.handed.same i m n hm hn
      simp only [hm, hn, Option.bind_some, slotIn?, Instruction.address, Instruction.datasetField?, hop, hpay]
    · rw [Array.getElem?_eq_none (Nat.le_of_not_lt hi), Array.getElem?_eq_none (by rw [h.handed.size]; omega)]
  have hnone (i : Nat) (hi : d.program.noticed i = false) : slotAt d.program i = none := by
    unfold slotAt
    cases hm : d.program[i]? with
    | none => rfl
    | some m =>
      have hpure : m.instr.isPure = true := by simpa [noticed, hm] using hi
      unfold Instruction.isPure Instruction.category at hpure
      simp only [Option.bind_some, slotIn?]
      cases hop : m.instr.opcode <;> simp_all [Opcode.category]
  calc o.order.filterMap (slotAt o.program)
      = (o.order.filter d.program.noticed).filterMap (slotAt d.program) := by
        rw [funext hsame, filterMap_filter_of_none hnone]
    _ = (List.range d.program.size).filterMap (slotAt d.program) := by
        rw [Optimized.order, filter_order h.handed h.sound, filterMap_filter_of_none hnone]
    _ = d.program.instrs.filterMap slotIn? := (filterMap_instrs d.program slotIn?).symm

include h hw

theorem length_outputDatasets :
    c.image.outputDatasets.length = outputCount (d.items.flatMap Stream.Item.instructions) := by
  have hinstrs : d.items.flatMap Stream.Item.instructions = d.program.instrs := (map_instr_ofItems d.items).symm
  rw [hw.image, hinstrs, ← length_filterMap_slotIn?, ← slots_order h, ← (numbered_ofOrder hw.numbered).slots]
  exact List.length_map _

theorem bounded_image {code : Bytes} {functions : UInt32} (hd : Stream.decode code functions.toNat = .ok d) :
    c.image.Bounded := by
  have hn := numbered_ofOrder hw.numbered
  have hc := ofOrder_isOk_iff.mp ⟨_, hw.numbered⟩
  refine ⟨?_, ?_, ?_, ?_, ?_, ?_, ?_⟩
  · have hlen := (Emission.ofChains_ok_iff.mp hw.emitted).2.2
    have hcode : c.image.code = Emission.codeOf e.items := by rw [hw.image]; exact congrArg Emission.code hlen.2
    rw [hcode]
    omega
  · obtain ⟨hle, -, hcalls⟩ := Stream.decode_ok hd
    rw [Stream.visitAll_eq_recordAll _ h.items] at hcalls
    have hsize := (Stream.CallTable.recordAll_ok hcalls).1
    have hfunctions : c.image.functions.length = o.calls.size := by rw [hw.image]; simp [imageOf]
    unfold Stream.maxFunctions at hle
    rw [hfunctions, h.calls, hsize, Array.size_replicate]
    omega
  · have hsize := size_le_allocatedConstants (valid_constants hw)
    have hle := hc.constants
    have hconstants : c.image.constants = words c.renumbering.constants := by rw [hw.image]; rfl
    rw [← hn.constants] at hle
    rw [hconstants, length_words]
    omega
  · have hle := hc.fields
    have hinputs : c.image.inputs = c.renumbering.inputFields := by rw [hw.image]; rfl
    rw [hinputs, hn.inputFields, length_flatten]
    omega
  · have hle := hc.datasets
    have hoffsets : c.image.inputOffsets = c.renumbering.inputOffsets := by rw [hw.image]; rfl
    rw [hoffsets, hn.inputOffsets]
    split
    · exact .inl rfl
    · rw [List.length_map, length_bounds, List.length_map, length_fieldLists]
      omega
  · rw [hw.image]
    simp [imageOf]
  · rw [hw.image]
    simp [imageOf]

omit h in
theorem synced_image : c.image.synced = c.image.header := by
  rw [hw.image]
  rfl

theorem isPackable_image {code : Bytes} {functions : UInt32} (hd : Stream.decode code functions.toNat = .ok d) :
    c.image.isPackable = true ↔ outputCount (d.items.flatMap Stream.Item.instructions) < 65536 := by
  rw [Image.isPackable_iff, (bounded_image h hw hd).packable_iff, length_outputDatasets h hw]

end Compiled

end Compile

/-! ## Programs that only write -/

namespace Program

/-- The running sum and the largest so far, after one more entry. -/
def climb (s : Int × Int) (d : Int) : Int × Int := (s.1 + d, max s.2 (s.1 + d))

theorem peak_le (ds : List Int) : peak ds ≤ total (ds.map Int.toNat) := by
  have climbs : (ds.foldl climb (0, 0)).1 ≤ total (ds.map Int.toNat) ∧
      (ds.foldl climb (0, 0)).2 ≤ total (ds.map Int.toNat) := by
    induction ds using List.reverseRecOn with
    | nil => exact ⟨Int.le_refl _, Int.le_refl _⟩
    | append_singleton ds d ih =>
      have hd := Int.self_le_toNat d
      rw [List.foldl_append, List.map_append, total_append]
      simp only [List.foldl_cons, List.foldl_nil, climb, List.map_cons, List.map_nil, total_cons, total_nil]
      omega
  exact climbs.2

def markStretch (d : Array Int) (s : Nat × Nat) : Array Int := (d.modify s.1 (· + 1)).modify (s.2 + 1) (· - 1)

theorem total_markStretch_le (d : Array Int) (s : Nat × Nat) :
    total ((markStretch d s).toList.map Int.toNat) ≤ total (d.toList.map Int.toNat) + 1 := by
  have hup := Renumbering.total_modify_le (f := fun x : Int => x + 1) (g := Int.toNat) (c := 1) (fun x => by omega)
    d.toList s.1
  have hdown := Renumbering.total_modify_le (f := fun x : Int => x - 1) (g := Int.toNat) (c := 0) (fun x => by omega)
    (d.toList.modify s.1 fun x => x + 1) (s.2 + 1)
  rw [markStretch, Array.toList_modify, Array.toList_modify]
  omega

/-- No more values are in flight at once than are stored. -/
theorem inFlight_le (p : Program) (l : Liveness) (order : List Nat) :
    p.inFlight l order ≤ (order.flatMap (p.flights l (positions p.size order))).length := by
  have marks (ss : List (Nat × Nat)) (d : Array Int) :
      total ((ss.foldl markStretch d).toList.map Int.toNat) ≤ total (d.toList.map Int.toNat) + ss.length := by
    induction ss generalizing d with
    | nil => exact Nat.le_refl _
    | cons s ss ih =>
      have hs := total_markStretch_le d s
      have hss := ih (markStretch d s)
      rw [List.foldl_cons, List.length_cons]
      omega
  have hpeak := peak_le (deltas order.length (order.flatMap (p.flights l (positions p.size order)))).toList
  have hmarks := marks (order.flatMap (p.flights l (positions p.size order))) (Array.replicate (order.length + 1) 0)
  have hzero : total ((Array.replicate (order.length + 1) (0 : Int)).toList.map Int.toNat) = 0 := by
    simp
  rw [hzero, Nat.zero_add] at hmarks
  refine Nat.le_trans (Int.toNat_le.mpr hpeak) hmarks

end Program

theorem exists_forall₂ {α β : Type} {R : α → β → Prop} {as : List α} (h : ∀ a ∈ as, ∃ b, R a b) :
    ∃ bs, List.Forall₂ R as bs := by
  induction as with
  | nil => exact ⟨[], .nil⟩
  | cons a as ih =>
    obtain ⟨b, hb⟩ := h a List.mem_cons_self
    obtain ⟨bs, hbs⟩ := ih fun a' ha' => h a' (List.mem_cons_of_mem a ha')
    exact ⟨b :: bs, .cons hb hbs⟩

namespace Compile

open Program Renumbering

/-- Folding leaves a program without computations alone. -/
theorem program_of_no_compute {settings : Settings} {d : Stream.Decoded} {f : Flow}
    (h : ∀ (i : Nat) (m : Node), d.program[i]? = some m → m.instr.category ≠ .compute) :
    (optimize settings d f).program = d.program := by
  have settled (l : Liveness) (limit : Nat) : d.program.Settled l limit := by
    intro i j pos hv
    obtain ⟨n, m, r, hn, hc, -⟩ := verdict_eq_fold_iff.mp hv
    exact h i n hn hc.compute
  unfold optimize
  by_cases hfold : settings.fold = true
  · simp only [hfold, if_true]
    exact (fold_settled (settled _ _) _).1
  · simp only [hfold]
    rfl

def takeIndex : Instruction := ⟨.execIndex, .none, [], [.reg 0]⟩

def putConstant : Instruction := ⟨.output .int, .field 0 1, [.reg 0, .const 0], []⟩

def outputItems (n : Nat) : List Stream.Item := .plain takeIndex :: List.replicate n (.plain putConstant)

def outputStream (n : Nat) : Bytes := Stream.encode (outputItems n)

theorem instructions_outputItems (n : Nat) :
    (outputItems n).flatMap Stream.Item.instructions = takeIndex :: List.replicate n putConstant := by
  rw [outputItems, List.flatMap_cons, List.flatMap_replicate]
  simp [Stream.Item.instructions]

theorem wellFormed_outputItems (n : Nat) : ∀ item ∈ outputItems n, item.WellFormed := by
  intro item hitem
  rcases List.mem_cons.mp hitem with rfl | hitem
  · exact ⟨⟨⟨rfl, rfl, 0, rfl⟩, by simp [takeIndex]⟩, by decide⟩
  · rw [List.eq_of_mem_replicate hitem]
    exact ⟨⟨⟨⟨0, 1, rfl⟩, ⟨0, .const 0, rfl⟩, rfl⟩, by simp [putConstant]⟩, by decide⟩

def outputDecoded (n : Nat) : Stream.Decoded := ⟨outputItems n, #[], none⟩

theorem decode_outputStream (n : Nat) : Stream.decode (outputStream n) 0 = .ok (outputDecoded n) := by
  have hw := wellFormed_outputItems n
  have hcode : outputStream n = Stream.Script.encode ⟨outputItems n, false⟩ := by
    simp [Stream.Script.encode, outputStream]
  refine Stream.decode_eq_ok_iff.mpr ⟨Nat.zero_le _, hw, ?_, false, rfl, ?_⟩
  · show Stream.CallTable.visitAll (Array.replicate 0 none) (outputItems n) = .ok #[]
    rw [Stream.visitAll_eq_recordAll _ hw, instructions_outputItems, List.filterMap_cons_none rfl,
      List.filterMap_replicate_of_none rfl]
    rfl
  · rw [hcode]
    exact Bytes.agree_refl (Stream.Script.length_loose _)

theorem outputCount_outputs (n : Nat) : outputCount ((outputItems n).flatMap Stream.Item.instructions) = n := by
  rw [instructions_outputItems, outputCount, List.countP_cons_of_neg (by decide), List.countP_replicate]
  rfl

section Outputs

variable {n : Nat}

theorem instrs_outputs : (outputDecoded n).program.instrs = takeIndex :: List.replicate n putConstant :=
  (map_instr_ofItems _).trans (instructions_outputItems n)

theorem size_outputs : (outputDecoded n).program.size = n + 1 := by
  rw [← length_instrs, instrs_outputs, List.length_cons, List.length_replicate]

theorem instr_outputs {i : Nat} {m : Node} (hm : (outputDecoded n).program[i]? = some m) :
    i = 0 ∧ m.instr = takeIndex ∨ 0 < i ∧ m.instr = putConstant := by
  have hi := getElem?_instrs (p := (outputDecoded n).program) i
  rw [hm, instrs_outputs] at hi
  cases i with
  | zero => exact .inl ⟨rfl, (Option.some.inj hi).symm⟩
  | succ i => exact .inr ⟨Nat.succ_pos i, List.eq_of_mem_replicate (List.mem_of_getElem? hi)⟩

theorem first_outputs (n : Nat) : ∃ m, (outputDecoded n).program[0]? = some m ∧ m.instr = takeIndex := by
  obtain ⟨m, hm⟩ := exists_node (p := (outputDecoded n).program) (i := 0) (by rw [size_outputs]; omega)
  rcases instr_outputs hm with ⟨-, he⟩ | ⟨h0, -⟩
  · exact ⟨m, hm, he⟩
  · omega

theorem later_outputs {i : Nat} (hi : i < n) :
    ∃ m, (outputDecoded n).program[i + 1]? = some m ∧ m.instr = putConstant := by
  obtain ⟨m, hm⟩ := exists_node (p := (outputDecoded n).program) (i := i + 1) (by rw [size_outputs]; omega)
  rcases instr_outputs hm with ⟨h0, -⟩ | ⟨-, he⟩
  · omega
  · exact ⟨m, hm, he⟩

/-- Every index is read from the first node. -/
theorem lastStore_outputs {i : Nat} (hi : 0 < i) : lastStore (outputDecoded n).program.instrs (.reg 0) i = some 0 := by
  refine lastStore_eq_some_iff.mpr ⟨hi, ?_, fun u hu _ => ?_⟩
  · obtain ⟨m, hm, he⟩ := first_outputs n
    exact storesAt_iff.mpr ⟨m.instr, by rw [getElem?_instrs, hm]; rfl, by rw [he]; decide⟩
  · rw [← Bool.not_eq_true, storesAt_iff]
    rintro ⟨x, hx, hd⟩
    rw [getElem?_instrs] at hx
    obtain ⟨m, hm, rfl⟩ := Option.map_eq_some_iff.mp hx
    rcases instr_outputs hm with ⟨h0, -⟩ | ⟨-, he⟩
    · omega
    · rw [he] at hd
      cases hd

theorem exists_flow_outputs (n : Nat) : ∃ f, Flow.ofProgram (outputDecoded n).program = .ok f := by
  refine Flow.ofProgram_isOk fun i r hr => ?_
  obtain ⟨m, hm, hr⟩ := mem_sourcesOf.mp hr
  rcases instr_outputs hm with ⟨-, he⟩ | ⟨hi, he⟩
  · rw [he] at hr
    cases hr
  · rw [he] at hr
    have hr : r = 0 := by simpa [putConstant] using hr
    rw [hr]
    exact ⟨0, lastStore_outputs hi⟩

/-- Nothing is dropped, nothing is unread and nothing is linked. -/
theorem live_outputs {l : Liveness} (hl : l.Sound (outputDecoded n).program) (hn : 0 < n) {i : Nat} (hi : i < n + 1) :
    l.isLive i = true := by
  have behind (k : Nat) (hk : k < n) : l.isLive (k + 1) = true := by
    obtain ⟨m, hm, he⟩ := later_outputs hk
    rw [← Bool.not_eq_false]
    intro hdead
    have hpure := hl.pure (k + 1) m hm hdead
    rw [he] at hpure
    exact absurd hpure (by decide)
  cases i with
  | succ k => exact behind k (by omega)
  | zero =>
    -- The first output reads the index.
    obtain ⟨m, hm, he⟩ := later_outputs hn
    refine hl.reads 1 (.reg 0) 0 ?_ (lastStore_outputs Nat.one_pos) (behind 0 hn)
    rw [sourcesOf_eq hm, he]
    decide

theorem isUnread_outputs {l : Liveness} (hl : l.Sound (outputDecoded n).program) (i pos : Nat) :
    l.isUnread i pos = false := by
  rw [← Bool.not_eq_true]
  intro hu
  have hmem : pos ∈ l.unread.getD i [] := List.contains_iff_mem.mp hu
  rcases hl.unread i with he | he <;> rw [he] at hmem
  · cases hmem
  · obtain ⟨m, -, hm, hcall, -⟩ := Liveness.mem_unreadAt.mp hmem
    rcases instr_outputs hm with ⟨-, e⟩ | ⟨-, e⟩ <;> rw [e] at hcall <;> cases hcall

theorem chains_outputs {l : Liveness} (hl : l.Sound (outputDecoded n).program) (hn : 0 < n) :
    (outputDecoded n).program.chains l = (List.range (n + 1)).map fun i => [i] := by
  have hg : (outputDecoded n).program.Grouped := grouped_ofItems (wellFormed_outputItems n)
  have hroots : (outputDecoded n).program.liveRoots l = List.range (n + 1) := by
    rw [liveRoots, size_outputs]
    refine List.filter_eq_self.mpr fun i hi => ?_
    obtain ⟨m, hm⟩ := exists_node (p := (outputDecoded n).program) (i := i)
      (by rw [size_outputs]; exact List.mem_range.mp hi)
    have hnext : (outputDecoded n).program.next? i = none := by
      rw [hg.next?_eq hm]
      rcases instr_outputs hm with ⟨-, e⟩ | ⟨-, e⟩ <;> rw [e] <;> rfl
    have hfold : m.isFolded = false := (hg.linked.isFolded_eq_false_iff hm).mpr hnext
    simp [live_outputs hl hn (List.mem_range.mp hi), hm, hfold]
  rw [chains, hroots]
  refine List.map_congr_left fun i hi => chain_of_first ?_
  obtain ⟨m, hm⟩ := exists_node (p := (outputDecoded n).program) (i := i)
    (by rw [size_outputs]; exact List.mem_range.mp hi)
  rw [hg.prev?_eq hm]
  rcases instr_outputs hm with ⟨-, e⟩ | ⟨-, e⟩ <;> rw [e] <;> rfl

theorem order_outputs {l : Liveness} (hl : l.Sound (outputDecoded n).program) (hn : 0 < n) :
    (outputDecoded n).program.emissionOrder l = List.range (n + 1) := by
  rw [emissionOrder, chains_outputs hl hn, ← List.flatMap_def, List.flatMap_singleton']

/-- Only the index is ever in flight. -/
theorem inFlight_outputs (l : Liveness) : (outputDecoded n).program.inFlight l (List.range (n + 1)) ≤ 1 := by
  refine Nat.le_trans (inFlight_le _ _ _) ?_
  generalize positions (outputDecoded n).program.size (List.range (n + 1)) = place
  have hfirst : ((outputDecoded n).program.flights l place 0).length ≤ 1 := by
    obtain ⟨m, hm, he⟩ := first_outputs n
    simp only [flights, hm, he]
    exact Nat.le_trans (List.length_filterMap_le _ _) (Nat.le_refl 1)
  have hrest : ((List.range n).map Nat.succ).flatMap ((outputDecoded n).program.flights l place) = [] := by
    refine List.flatMap_eq_nil_iff.mpr fun i hi => ?_
    obtain ⟨k, hk, rfl⟩ := List.mem_map.mp hi
    obtain ⟨m, hm, he⟩ := later_outputs (List.mem_range.mp hk)
    simp only [flights, hm, he]
    rfl
  rw [List.range_succ_eq_map, List.flatMap_cons, hrest, List.append_nil]
  exact hfirst

theorem mentions_outputs {l : Liveness} {i k : Nat}
    (hk : k ∈ registersAt (outputDecoded n).program l i ∨ k ∈ constantsAt (outputDecoded n).program i) : k < 1 := by
  unfold registersAt constantsAt at hk
  cases hm : (outputDecoded n).program[i]? with
  | none => simp [hm] at hk
  | some m =>
    rcases instr_outputs hm with ⟨-, e⟩ | ⟨-, e⟩
    · simp [hm, e, takeIndex, registersIn, constantsIn, Dest.reg?] at hk
      omega
    · simp [hm, e, putConstant, registersIn, constantsIn, Source.reg?, Source.const?] at hk
      omega

theorem slots_outputs :
    (List.range (n + 1)).filterMap (slotAt (outputDecoded n).program) = List.replicate n ⟨0, Element.byte .int, 1⟩ := by
  have h := filterMap_instrs (outputDecoded n).program slotIn?
  rw [size_outputs] at h
  refine h.symm.trans ?_
  rw [instrs_outputs, List.filterMap_cons_none rfl, List.filterMap_replicate_of_some
    (show slotIn? putConstant = some ⟨0, Element.byte .int, 1⟩ from rfl)]

theorem inputs_outputs : (List.range (n + 1)).filterMap (inputAt (outputDecoded n).program) = [] := by
  have h := filterMap_instrs (outputDecoded n).program inputIn?
  rw [size_outputs] at h
  refine h.symm.trans ?_
  rw [instrs_outputs, List.filterMap_cons_none rfl, List.filterMap_replicate_of_none rfl]

/-- Writing one field again and again is writing one field. -/
theorem outputFieldCount_outputs (n : Nat) :
    outputFieldCount ((List.replicate n (⟨0, Element.byte .int, 1⟩ : OutputSlot)).foldl addOutput #[]) ≤ 1 := by
  have hvalid := Numbering.valid_add Numbering.valid_empty 1
  have hkeys : (({} : Numbering).add 1).keys.toList = [1] := by
    rw [Numbering.keys_add Numbering.valid_empty]
    rfl
  have hsame : (({} : Numbering).add 1).add 1 = ({} : Numbering).add 1 := by
    rw [Numbering.add_eq hvalid, if_pos (.inl (by rw [hkeys]; exact List.mem_singleton.mpr rfl))]
  have hagain (n : Nat) : (List.replicate n (⟨0, Element.byte .int, 1⟩ : OutputSlot)).foldl addOutput
      #[({} : Numbering).add 1] = #[({} : Numbering).add 1] := by
    induction n with
    | zero => rfl
    | succ n ih =>
      rw [List.replicate_succ, List.foldl_cons]
      have hstep : addOutput #[({} : Numbering).add 1] ⟨0, Element.byte .int, 1⟩ =
          #[(({} : Numbering).add 1).add 1] := rfl
      rw [hstep, hsame]
      exact ih
  cases n with
  | zero => exact Nat.zero_le 1
  | succ n =>
    rw [List.replicate_succ, List.foldl_cons]
    have hstep : addOutput #[] ⟨0, Element.byte .int, 1⟩ = #[({} : Numbering).add 1] := rfl
    rw [hstep, hagain]
    have hsize := size_add_le {} 1
    simp only [outputFieldCount, List.map_cons, List.map_nil, total_cons, total_nil]
    exact hsize

theorem allocated_le_one {ks : List Nat} (h : ∀ k ∈ ks, k < 1) :
    allocatedConstants (({} : Numbering).addAll ks) ≤ 1 := by
  refine allocatedConstants_le fun k hk => ?_
  rcases Numbering.mem_keys_addAll Numbering.valid_empty hk with hk | hk
  · cases hk
  · exact h k hk

theorem countable_outputs (hn : n ≤ 65536) : Countable (outputDecoded n).program (List.range (n + 1)) := by
  refine ⟨?_, ?_, ?_, ?_, ?_⟩
  · rw [slots_outputs, List.length_replicate]
    exact hn
  · refine Nat.le_trans (allocated_le_one fun k hk => ?_) (by decide)
    obtain ⟨i, -, hk⟩ := List.mem_flatMap.mp hk
    exact mentions_outputs (l := default) (.inr hk)
  · rw [inputs_outputs]
    decide
  · rw [inputs_outputs]
    decide
  · rw [slots_outputs]
    exact Nat.le_trans (outputFieldCount_outputs n) (by decide)

theorem size_registers_outputs {l : Liveness} {r : Renumbering}
    (hr : ofOrder (outputDecoded n).program l (List.range (n + 1)) = .ok r) : r.registers.size ≤ 1 := by
  rw [(numbered_ofOrder hr).registers]
  refine Nat.le_trans (size_le_allocatedConstants (Numbering.valid_addAll Numbering.valid_empty _))
    (allocated_le_one fun k hk => ?_)
  obtain ⟨i, -, hk⟩ := List.mem_flatMap.mp hk
  exact mentions_outputs (.inl hk)

/-- Each node becomes one instruction of at most ten bytes. -/
theorem item_outputs {l : Liveness} {r : Renumbering} (hl : l.Sound (outputDecoded n).program)
    (hr : ofOrder (outputDecoded n).program l (List.range (n + 1)) = .ok r) {i : Nat} (hi : i < n + 1) :
    ∃ it : Stream.Item, it.width ≤ 10 ∧ Emission.item r l (outputDecoded n).program [i] = .ok it := by
  obtain ⟨m, hm⟩ := exists_node (p := (outputDecoded n).program) (i := i) (by rw [size_outputs]; exact hi)
  have hc := Emission.covered_ofOrder hr List.nodup_range (Nat.le_trans (size_registers_outputs hr) (by decide))
    (List.mem_range.mpr hi) hm
  have hunread := isUnread_outputs hl i 0
  have plain (b : Instruction) (hb : Emission.Renumbered r l i m.instr b) :
      Emission.item r l (outputDecoded n).program [i] = .ok (.plain b) :=
    Emission.item_ok_iff.mpr ⟨show 1 ≤ 255 by decide, [b], .cons ⟨m, hm, hb⟩ .nil, rfl⟩
  rcases instr_outputs hm with ⟨-, e⟩ | ⟨-, e⟩
  · rw [e] at hc plain
    obtain ⟨x, hx⟩ := hc.dests 0 0 rfl hunread
    refine ⟨.plain ⟨.execIndex, .none, [], [.reg x]⟩, show 3 ≤ 10 by decide, plain _ ⟨rfl, .nil, ?_, ?_⟩⟩
    · exact .kept hunread hx .nil
    · exact .other (.inl (by decide))
  · rw [e] at hc plain
    obtain ⟨x, hx⟩ := hc.registers 0 (by decide)
    obtain ⟨y, hy⟩ := hc.constants 0 (by decide)
    obtain ⟨slot, hslot⟩ := hc.outputs .int 0 1 rfl rfl
    refine ⟨.plain ⟨.output .int, .field 0 slot, [.reg x, .const y], []⟩, Nat.le_refl 10, plain _ ⟨rfl, ?_, .nil, ?_⟩⟩
    · exact .cons (.reg hx) (.cons (.const hy) .nil)
    · exact .output rfl rfl hslot

theorem ofChains_outputs {l : Liveness} {r : Renumbering} (hl : l.Sound (outputDecoded n).program) (hpos : 0 < n)
    (hn : n ≤ 65536) (hr : ofOrder (outputDecoded n).program l (List.range (n + 1)) = .ok r) :
    ∃ e, Emission.ofChains (outputDecoded n).program l r ((outputDecoded n).program.chains l) = .ok e := by
  have hchain : ∀ c ∈ (outputDecoded n).program.chains l, ∃ it : Stream.Item, it.width ≤ 10 ∧
      Emission.item r l (outputDecoded n).program c = .ok it := by
    intro c hc
    rw [chains_outputs hl hpos] at hc
    obtain ⟨i, hi, rfl⟩ := List.mem_map.mp hc
    exact item_outputs hl hr (List.mem_range.mp hi)
  obtain ⟨items, hitems⟩ := exists_forall₂ hchain
  obtain ⟨hten, hitems⟩ := (List.forall₂_and_left _ _).mp hitems.flip
  have hlength : items.length = n + 1 := by
    rw [hitems.length_eq, chains_outputs hl hpos, List.length_map, List.length_range]
  have hwidth : total (items.map Stream.Item.width) ≤ (items.map Stream.Item.width).length * 10 := by
    refine total_le_of_forall_le fun w hw => ?_
    obtain ⟨it, hit, rfl⟩ := List.mem_map.mp hw
    exact hten it hit
  rw [List.length_map, hlength] at hwidth
  have hcode : (Emission.codeOf items).length ≤ 4294967295 := by
    unfold Emission.codeOf
    split
    · exact Nat.zero_le _
    · rw [List.length_append, Stream.length_encode, List.length_singleton]
      omega
  refine ⟨⟨Emission.codeOf items, items, Emission.placements (outputDecoded n).program.size
    ((outputDecoded n).program.chains l) items⟩, Emission.ofChains_ok_iff.mpr ⟨?_, hitems.flip, hcode, rfl⟩⟩
  exact Nat.le_trans (size_registers_outputs hr) (by decide)

/-- A program that writes up to 65536 times is compiled. -/
theorem compile_outputs (hpos : 0 < n) (hn : n ≤ 65536) {settings : Settings} (hs : 0 < settings.registerLimit.toNat) :
    ∃ c, compile (outputStream n) 0 settings = .ok c := by
  have hd : Stream.decode (outputStream n) (0 : UInt32).toNat = .ok (outputDecoded n) := decode_outputStream n
  obtain ⟨f, hf⟩ := exists_flow_outputs n
  have ho : Optimum settings (outputDecoded n) (optimize settings (outputDecoded n) f) :=
    optimum_optimize (wellFormed_outputItems n) hf
  have hprogram : (optimize settings (outputDecoded n) f).program = (outputDecoded n).program := by
    refine program_of_no_compute fun i m hm => ?_
    rcases instr_outputs hm with ⟨-, e⟩ | ⟨-, e⟩ <;> rw [e] <;> decide
  have hchains := short_chains (intact_optimize hd hf (reach_optimize settings (outputDecoded n) f))
  have hlinks := ho.handed.checkLinks ho.sound.flow hchains
  have hsound : (optimize settings (outputDecoded n) f).live.Sound (outputDecoded n).program := ho.sound
  have horder : (optimize settings (outputDecoded n) f).order = List.range (n + 1) := by
    rw [Optimized.order, hprogram]
    exact order_outputs hsound hpos
  obtain ⟨r, hr⟩ := (ofOrder_isOk_iff (l := (optimize settings (outputDecoded n) f).live)).mpr (countable_outputs hn)
  obtain ⟨e, he⟩ := ofChains_outputs hsound hpos hn hr
  obtain ⟨c, hc, -⟩ := compile_of_stages hd hf rfl hlinks
    (by rw [horder, hprogram]; exact Nat.le_trans (inFlight_outputs _) hs)
    (by rw [horder, hprogram]; exact hr) (by rw [hprogram]; exact he)
  exact ⟨c, hc⟩

end Outputs

/-! ## Packing -/

/-- The header of a compiled image counts its arrays, and the image is packable, unless the program has 65536 outputs.
    These are counted as none. -/
theorem compile_packable_iff {code : Bytes} {functions : UInt32} {settings : Settings} {c : Compiled}
    (h : compile code functions settings = .ok c) :
    ∃ d, Stream.decode code functions.toNat = .ok d ∧ c.image.Counts ∧
      c.image.outputDatasets.length = outputCount (d.items.flatMap Stream.Item.instructions) ∧
      outputCount (d.items.flatMap Stream.Item.instructions) ≤ 65536 ∧
      (c.image.header.outputs.toNat = c.image.outputDatasets.length ↔
        outputCount (d.items.flatMap Stream.Item.instructions) ≠ 65536) ∧
      (c.image.isPackable = true ↔ outputCount (d.items.flatMap Stream.Item.instructions) ≠ 65536) := by
  obtain ⟨d, o, e, hd, ho, hw⟩ := compile_ok h
  have hlen := length_outputDatasets ho hw
  have hcounts := (bounded_image ho hw hd).counts (synced_image hw) (wholeOffsets_image hw)
  have hle : outputCount (d.items.flatMap Stream.Item.instructions) ≤ 65536 := by
    have hslots := (ofOrder_isOk_iff.mp ⟨_, hw.numbered⟩).slots
    rw [← (numbered_ofOrder hw.numbered).slots] at hslots
    rw [← hlen, hw.image]
    simpa [imageOf] using hslots
  have houtputs : c.image.header.outputs.toNat = c.image.outputDatasets.length % 65536 := by
    rw [← synced_image hw]
    rfl
  refine ⟨d, hd, hcounts, hlen, hle, ?_, ?_⟩
  · rw [houtputs, hlen]
    omega
  · rw [isPackable_image ho hw hd]
    omega

theorem compile_packable_iff_call : ∃ c d, compile callStream 2 {} = .ok c ∧ Stream.decode callStream 2 = .ok d ∧
    c.image.Counts ∧ outputCount (d.items.flatMap Stream.Item.instructions) = 1 ∧ c.image.isPackable = true := by
  obtain ⟨c, hc, hone⟩ := exists_of_any_ok (by decide +kernel :
    (compile callStream 2 {}).toOption.any (fun c => c.image.outputDatasets.length == 1) = true)
  obtain ⟨d, hd, hcounts, hlen, -, -, hp⟩ := compile_packable_iff hc
  rw [beq_iff_eq.mp hone] at hlen
  exact ⟨c, d, hc, hd, hcounts, hlen.symm, hp.mpr (by omega)⟩

/-- With 65536 outputs the image is not packable: its header counts none of them. -/
theorem compile_unpackable : ∃ c, compile (outputStream 65536) 0 {} = .ok c ∧ c.image.isPackable = false ∧
    c.image.outputDatasets.length = 65536 ∧ c.image.header.outputs = 0 := by
  have hlimit : 0 < ({} : Settings).registerLimit.toNat := by decide
  obtain ⟨c, hc⟩ := compile_outputs (n := 65536) (by decide) (Nat.le_refl _) hlimit
  obtain ⟨d, o, e, hd, ho, hw⟩ := compile_ok hc
  rw [show (0 : UInt32).toNat = 0 from rfl, decode_outputStream] at hd
  cases hd
  have hlength : c.image.outputDatasets.length = 65536 := by
    rw [length_outputDatasets ho hw]
    exact outputCount_outputs 65536
  refine ⟨c, hc, ?_, hlength, ?_⟩
  · rw [← Bool.not_eq_true, Image.isPackable_iff]
    intro hp
    have hlt := hp.outputs
    omega
  · rw [← synced_image hw]
    show UInt16.ofNat c.image.outputDatasets.length = 0
    rw [hlength]
    rfl

end Compile

end LaneScript
