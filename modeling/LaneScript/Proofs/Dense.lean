/-
  LaneScript.Proofs.Dense — the numbers of a compiled stream are dense already.

  What an emitted instruction mentions are the numbers of what its node mentions, so
  numbering them anew gives each its own: registers and constants count up from 0, the
  fields of an input data set too, advancing ones first, and an output's slot is the
  number of outputs before it. The tables have the sizes they had, so every count that
  fitted fits again (`countable_reread`), if the outputs fit a count at all.
-/
import LaneScript.Proofs.Irreducible
import LaneScript.Proofs.Layout

namespace LaneScript

/-! ## Mentions -/

theorem filterMap_of_forall₂ {α β γ δ : Type} {R : α → β → Prop} {f : α → Option γ} {f' : β → Option δ} {g : γ → δ}
    (hf : ∀ a b, R a b → f' b = (f a).map g) {as : List α} {bs : List β} (h : List.Forall₂ R as bs) :
    bs.filterMap f' = (as.filterMap f).map g := by
  induction h with
  | nil => rfl
  | cons hab _ ih =>
    rw [List.filterMap_cons, List.filterMap_cons, hf _ _ hab, ih]
    cases f _ <;> rfl

namespace Emission

open Renumbering

variable {r : Renumbering} {l : Liveness} {node : Nat} {i j : Instruction}

theorem Renumbered.registersIn (h : Renumbered r l node i j) {l' : Liveness} {x : Nat}
    (hu : ∀ k, l'.isUnread x k = l.isUnread node k) :
    Renumbering.registersIn l' x j = (Renumbering.registersIn l node i).map r.registers.numberOf := by
  rw [Renumbering.registersIn, Renumbering.registersIn, List.map_append]
  congr 1
  · refine filterMap_of_forall₂ (fun s t hst => ?_) h.sources
    cases hst with
    | reg hnum => simp [Source.reg?, Numbering.numberOf_eq hnum]
    | const _ | acc => rfl
  · refine filterMap_zipIdx_map h.dests.length_eq fun k a b ha hb => ?_
    obtain ⟨b', hb', hat⟩ := h.dests.dest_at ha
    rw [hb] at hb'
    cases hb'
    rw [Nat.zero_add] at hat
    cases hat with
    | acc => simp [Dest.reg?]
    | unread hun => simp [hu, hun]
    | kept hun hnum => simp [hu, hun, Dest.reg?, Numbering.numberOf_eq hnum]

theorem Renumbered.constantsIn (h : Renumbered r l node i j) :
    Renumbering.constantsIn j = (Renumbering.constantsIn i).map r.constants.numberOf := by
  refine filterMap_of_forall₂ (fun s t hst => ?_) h.sources
  cases hst with
  | const hnum => simp [Source.const?, Numbering.numberOf_eq hnum]
  | reg _ | acc => rfl

theorem Renumbered.inputIn? (h : Renumbered r l node i j) (hs : i.WellShaped) :
    Renumbering.inputIn? j = (Renumbering.inputIn? i).map fun m =>
      { m with field := (r.inputSlot? m.dataset m.field m.advance).getD 0 } := by
  have hp := h.payload
  rw [Renumbering.inputIn?, Renumbering.inputIn?, h.opcode]
  cases hop : i.opcode with
  | input el adv =>
    simp only [Instruction.WellShaped, hop] at hs
    obtain ⟨⟨d, f, hpay⟩, -⟩ := hs
    generalize hq : j.payload = q at hp
    cases hp with
    | input hop' hpay' hslot =>
      rw [hop] at hop'
      rw [hpay] at hpay'
      cases hop'
      cases hpay'
      simp [Instruction.address, Instruction.datasetField?, hpay, hq, hslot]
    | output hop' =>
      rw [hop] at hop'
      cases hop'
    | other hno => simp [Instruction.category, hop, Opcode.category, Instruction.datasetField?, hpay] at hno
  | _ => rfl

theorem Renumbered.slotIn? (h : Renumbered r l node i j) (hs : i.WellShaped) :
    Renumbering.slotIn? j =
      (Renumbering.slotIn? i).map fun s => { s with field := (r.slotOf.getD node none).getD 0 } := by
  have hp := h.payload
  rw [Renumbering.slotIn?, Renumbering.slotIn?, h.opcode]
  cases hop : i.opcode with
  | output el =>
    simp only [Instruction.WellShaped, hop] at hs
    obtain ⟨⟨d, f, hpay⟩, -⟩ := hs
    generalize hq : j.payload = q at hp
    cases hp with
    | output hop' hpay' hslot =>
      rw [hop] at hop'
      rw [hpay] at hpay'
      cases hop'
      cases hpay'
      simp [Instruction.address, Instruction.datasetField?, hpay, hq, hslot]
    | input hop' =>
      rw [hop] at hop'
      cases hop'
    | other hno => simp [Instruction.category, hop, Opcode.category, Instruction.datasetField?, hpay] at hno
  | _ => rfl

end Emission

/-! ## Input fields -/

namespace Renumbering

def fieldsAt (ms : List InputRef) (d : Nat) : InputFields := (ms.foldl addInput #[]).getD d {}

def fieldKey (advance : Bool) (field : Nat) : Nat := if advance then field else stillKey field

def bySlot (ms : List InputRef) (m : InputRef) : InputRef :=
  ⟨m.dataset, ((inputTable (fieldsAt ms m.dataset.toNat)).get? (fieldKey m.advance m.field.toNat)).getD 0, m.advance⟩

theorem fieldKey_inj {advance : Bool} {a b : Nat} (h : fieldKey advance a = fieldKey advance b) : a = b := by
  cases advance
  · simp only [fieldKey, stillKey, Bool.false_eq_true, if_false] at h
    omega
  · exact h

theorem fieldsAt_eq (ms : List InputRef) (d : Nat) :
    fieldsAt ms d = ⟨({} : Numbering).addAll (fieldsOf ms d true), ({} : Numbering).addAll (fieldsOf ms d false)⟩ :=
  getD_addInputs ms #[] d

theorem size_bySlot (ms : List InputRef) :
    ((ms.map (bySlot ms)).foldl addInput #[]).size = (ms.foldl addInput #[]).size := by
  rw [size_addInputs, size_addInputs, List.foldl_map]
  rfl

theorem fieldsOf_bySlot (ms : List InputRef) (d : Nat) (advance : Bool) :
    fieldsOf (ms.map (bySlot ms)) d advance =
      (fieldsOf ms d advance).map fun k => (inputTable (fieldsAt ms d)).numberOf (fieldKey advance k) := by
  rw [fieldsOf, fieldsOf, List.filterMap_map, List.map_filterMap]
  refine List.filterMap_congr fun m _ => ?_
  by_cases hm : m.dataset.toNat = d ∧ m.advance = advance
  · simp only [Function.comp, bySlot, hm, and_self, if_true, Option.map_some, Numbering.numberOf]
    cases Numbering.get? _ _ <;> rfl
  · simp only [Function.comp, bySlot, hm, if_false, Option.map_none]

section Fields

variable {ms : List InputRef} (hc : total ((fieldLists (ms.foldl addInput #[])).map List.length) ≤ 65535)

include hc

theorem size_fields_le (d : Nat) : (fieldsAt ms d).advancing.size + (fieldsAt ms d).still.size ≤ 65535 := by
  rw [fieldsAt]
  generalize ms.foldl addInput #[] = inputs at hc ⊢
  cases hf : inputs[d]? with
  | none => simp [Array.getD_eq_getD_getElem?, hf, Numbering.size]
  | some f =>
    obtain ⟨front, back, hsplit, -⟩ := fieldLists_split hf
    rw [hsplit] at hc
    simp only [List.map_append, List.map_cons, List.map_nil, length_words, total_append, total_cons,
      total_nil] at hc
    simp only [Array.getD_eq_getD_getElem?, hf, Option.getD_some]
    omega

/-- The slots of a data set's fields count up from 0, those of advancing fields first. -/
theorem keys_bySlot (d : Nat) :
    (fieldsAt (ms.map (bySlot ms)) d).advancing.keys.toList = List.range (fieldsAt ms d).advancing.size ∧
      (fieldsAt (ms.map (bySlot ms)) d).still.keys.toList =
        (List.range (fieldsAt ms d).still.size).map ((fieldsAt ms d).advancing.size + ·) := by
  have hsize := size_fields_le hc d
  have hfields := fieldsAt_eq ms d
  obtain ⟨hv, hkeys⟩ := keys_inputTable (fieldTables ms d) (by rw [← fieldsAt]; omega)
  rw [← fieldsAt] at hv hkeys
  rw [fieldsAt_eq (ms.map (bySlot ms)), fieldsOf_bySlot, fieldsOf_bySlot]
  generalize fieldsAt ms d = f at hsize hfields hv hkeys ⊢
  -- The numbers of all keys of the table, cut behind the advancing fields.
  have hnum := Numbering.map_numberOf hv
  have htotal : (inputTable f).size = f.advancing.size + f.still.size := by
    have := congrArg List.length hkeys
    simpa [Numbering.size] using this
  rw [hkeys, htotal, List.map_append, List.range_add] at hnum
  obtain ⟨hadv, hstill⟩ := List.append_inj hnum (by simp [Numbering.size])
  rw [List.map_map] at hstill
  have ha : f.advancing = ({} : Numbering).addAll (fieldsOf ms d true) := by rw [hfields]
  have hs : f.still = ({} : Numbering).addAll (fieldsOf ms d false) := by rw [hfields]
  constructor
  · rw [Numbering.keys_addAll_tagged hv (fun _ _ => fieldKey_inj), ← ha]
    · exact hadv
    · rw [← ha, Numbering.capacity]
      omega
    · rw [← ha, hkeys]
      exact fun k hk => List.mem_append_left _ hk
  · rw [Numbering.keys_addAll_tagged hv (fun _ _ => fieldKey_inj), ← hs]
    · exact hstill
    · rw [← hs, Numbering.capacity]
      omega
    · rw [← hs, hkeys]
      exact fun k hk => List.mem_append_right _ (List.mem_map_of_mem hk)

theorem sizes_bySlot (d : Nat) :
    (fieldsAt (ms.map (bySlot ms)) d).advancing.size = (fieldsAt ms d).advancing.size ∧
      (fieldsAt (ms.map (bySlot ms)) d).still.size = (fieldsAt ms d).still.size := by
  obtain ⟨ha, hs⟩ := keys_bySlot hc d
  constructor
  · rw [Numbering.size, ← Array.length_toList, ha, List.length_range]
  · rw [Numbering.size, ← Array.length_toList, hs, List.length_map, List.length_range]

theorem lengths_bySlot :
    (fieldLists ((ms.map (bySlot ms)).foldl addInput #[])).map List.length =
      (fieldLists (ms.foldl addInput #[])).map List.length := by
  have hsize := size_bySlot ms
  have hsizes := sizes_bySlot hc
  simp only [fieldsAt] at hsizes
  generalize (ms.map (bySlot ms)).foldl addInput #[] = again at hsize hsizes ⊢
  generalize ms.foldl addInput #[] = inputs at hsize hsizes ⊢
  rw [fieldLists, fieldLists, List.map_flatMap, List.map_flatMap, List.flatMap_def, List.flatMap_def]
  congr 1
  refine List.ext_getElem (by simpa using hsize) fun d hd hd' => ?_
  simp only [List.length_map, Array.length_toList] at hd hd'
  obtain ⟨ha, hs⟩ := hsizes d
  simp only [Array.getD_eq_getD_getElem?, Array.getElem?_eq_getElem hd, Array.getElem?_eq_getElem hd',
    Option.getD_some] at ha hs
  simp [ha, hs]

/-- A slot is its own slot when the fields are numbered again. -/
theorem get?_bySlot {m : InputRef} (hm : m ∈ ms.map (bySlot ms)) :
    (inputTable (fieldsAt (ms.map (bySlot ms)) m.dataset.toNat)).get? (fieldKey m.advance m.field.toNat) =
      some m.field := by
  have hmem : m.field.toNat ∈ fieldsOf (ms.map (bySlot ms)) m.dataset.toNat m.advance :=
    List.mem_filterMap.mpr ⟨m, hm, by simp⟩
  have hsize := size_fields_le hc m.dataset.toNat
  obtain ⟨hna, hns⟩ := sizes_bySlot hc m.dataset.toNat
  obtain ⟨ha, hs⟩ := keys_bySlot hc m.dataset.toNat
  have hfields := fieldsAt_eq (ms.map (bySlot ms)) m.dataset.toNat
  obtain ⟨hv, hkeys⟩ := keys_inputTable (fieldTables (ms.map (bySlot ms)) m.dataset.toNat) (by rw [← fieldsAt]; omega)
  rw [← fieldsAt] at hv hkeys
  refine (hv.number _ _).mpr ?_
  have hadv : (fieldsAt (ms.map (bySlot ms)) m.dataset.toNat).advancing =
      ({} : Numbering).addAll (fieldsOf (ms.map (bySlot ms)) m.dataset.toNat true) := by rw [hfields]
  have hstill : (fieldsAt (ms.map (bySlot ms)) m.dataset.toNat).still =
      ({} : Numbering).addAll (fieldsOf (ms.map (bySlot ms)) m.dataset.toNat false) := by rw [hfields]
  rw [hkeys, ha, hs]
  cases hm : m.advance with
  | true =>
    rw [hm] at hmem
    have hin := Numbering.mem_addAll_of_lt Numbering.valid_empty (by rw [← hadv, hna, Numbering.capacity]; omega) hmem
    rw [← hadv, ha, List.mem_range] at hin
    rw [List.getElem?_append_left (by rw [List.length_range]; exact hin), List.getElem?_range hin]
    rfl
  | false =>
    rw [hm] at hmem
    have hin := Numbering.mem_addAll_of_lt Numbering.valid_empty (by rw [← hstill, hns, Numbering.capacity]; omega) hmem
    rw [← hstill, hs] at hin
    obtain ⟨k, hk, e⟩ := List.mem_map.mp hin
    rw [List.getElem?_append_right (by rw [List.length_range]; omega), List.length_range, ← e, Nat.add_sub_cancel_left,
      List.getElem?_map, List.getElem?_map, List.getElem?_range (List.mem_range.mp hk)]
    rfl

end Fields

theorem inputSlot?_eq {p : Program} {l : Liveness} {order : List Nat} {r : Renumbering} (hn : Numbered p l order r)
    (d f : UInt16) (advance : Bool) :
    r.inputSlot? d f advance =
      (inputTable (fieldsAt (order.filterMap (inputAt p)) d.toNat)).get? (fieldKey advance f.toNat) := by
  rw [inputSlot?, hn.inputs, Array.getElem?_map, fieldsAt, Array.getD_eq_getD_getElem?]
  cases ((order.filterMap (inputAt p)).foldl addInput #[])[d.toNat]? with
  | none => simp [inputTable, Numbering.get?]
  | some f => rfl

/-! ## Counts -/

theorem foldl_max_le {B : Nat} {ks : List Nat} (h : ∀ k ∈ ks, k < B) {top : Nat} (ht : top ≤ B) :
    ks.foldl (fun top c => max top (c + 1)) top ≤ B := by
  induction ks generalizing top with
  | nil => exact ht
  | cons k ks ih =>
    have := h k List.mem_cons_self
    exact ih (fun k hk => h k (List.mem_cons_of_mem _ hk)) (Nat.max_le.mpr ⟨ht, this⟩)

theorem allocatedConstants_le {n : Numbering} {B : Nat} (h : ∀ k ∈ n.keys.toList, k < B) : allocatedConstants n ≤ B := by
  rw [allocatedConstants, ← Array.foldl_toList]
  exact foldl_max_le h (Nat.zero_le B)

theorem total_modify_le {α : Type} {f : α → α} {g : α → Nat} {c : Nat} (hf : ∀ a, g (f a) ≤ g a + c) (xs : List α)
    (i : Nat) : total ((xs.modify i f).map g) ≤ total (xs.map g) + c := by
  induction xs generalizing i with
  | nil => simp
  | cons x xs ih =>
    cases i with
    | zero =>
      have := hf x
      simp only [List.modify_zero_cons, List.map_cons, total_cons]
      omega
    | succ i =>
      have := ih i
      simp only [List.modify_succ_cons, List.map_cons, total_cons]
      omega

theorem size_add_le (n : Numbering) (k : Nat) : (n.add k).size ≤ n.size + 1 := by
  obtain ⟨keys, numbers⟩ := n
  dsimp only [Numbering.add]
  split
  · exact Nat.le_succ _
  · simp [Numbering.size]

theorem outputFieldCount_le (ss : List OutputSlot) (outputs : Array Numbering) :
    outputFieldCount (ss.foldl addOutput outputs) ≤ outputFieldCount outputs + ss.length := by
  induction ss generalizing outputs with
  | nil => exact Nat.le_refl _
  | cons s ss ih =>
    have hgrow : outputFieldCount (grow outputs (s.dataset.toNat + 1) {}) = outputFieldCount outputs := by
      simp [outputFieldCount, grow, Numbering.size]
    have hadd : outputFieldCount (addOutput outputs s) ≤ outputFieldCount outputs + 1 := by
      rw [← hgrow, outputFieldCount, addOutput, Array.toList_modify]
      exact total_modify_le (fun n => size_add_le n _) _ _
    have := ih (addOutput outputs s)
    rw [List.foldl_cons, List.length_cons]
    omega

end Renumbering

/-! ## The program read back -/

namespace Compile

open Program Renumbering

section Emitted

variable {settings : Settings} {d : Stream.Decoded} {o : Optimized} {c : Compiled} {e : Emission}
  (h : Optimum settings d o) (hw : Written settings o c e)

include h hw

theorem registersAt_reread {l : Liveness} (hr : Reread o e l) {x i : Nat} (hx : o.order[x]? = some i) :
    registersAt e.program l x = (registersAt o.program o.live i).map c.renumbering.registers.numberOf := by
  obtain ⟨n, b, hn, hb, hren⟩ := exists_reread h hw hx
  simp only [registersAt, hn, hb, Option.map_some, Option.getD_some]
  exact hren.registersIn (hr.isUnread hx)

theorem constantsAt_reread {x i : Nat} (hx : o.order[x]? = some i) :
    constantsAt e.program x = (constantsAt o.program i).map c.renumbering.constants.numberOf := by
  obtain ⟨n, b, hn, hb, hren⟩ := exists_reread h hw hx
  simp only [constantsAt, hn, hb, Option.map_some, Option.getD_some]
  exact hren.constantsIn

theorem inputAt_reread {x i : Nat} (hx : o.order[x]? = some i) :
    inputAt e.program x = (inputAt o.program i).map (bySlot (o.order.filterMap (inputAt o.program))) := by
  obtain ⟨n, b, hn, hb, hren⟩ := exists_reread h hw hx
  simp only [inputAt, hn, hb, Option.bind_some, hren.inputIn? (h.handed.formed.fits i n hn).shaped,
    inputSlot?_eq (numbered_ofOrder hw.numbered)]
  rfl

theorem slotAt_reread {x i : Nat} (hx : o.order[x]? = some i) :
    slotAt e.program x =
      (slotAt o.program i).map fun s => { s with field := (c.renumbering.slotOf.getD i none).getD 0 } := by
  obtain ⟨n, b, hn, hb, hren⟩ := exists_reread h hw hx
  simp only [slotAt, hn, hb, Option.bind_some]
  exact hren.slotIn? (h.handed.formed.fits i n hn).shaped

theorem registers_reread {l : Liveness} (hr : Reread o e l) :
    (List.range e.program.size).flatMap (registersAt e.program l) =
      (o.order.flatMap (registersAt o.program o.live)).map c.renumbering.registers.numberOf := by
  rw [order_eq_map hw, List.flatMap_map, List.map_flatMap]
  exact List.flatMap_congr fun x hx => registersAt_reread h hw hr (order_of_lt hw (List.mem_range.mp hx))

theorem constants_reread : (List.range e.program.size).flatMap (constantsAt e.program) =
    (o.order.flatMap (constantsAt o.program)).map c.renumbering.constants.numberOf := by
  rw [order_eq_map hw, List.flatMap_map, List.map_flatMap]
  exact List.flatMap_congr fun x hx => constantsAt_reread h hw (order_of_lt hw (List.mem_range.mp hx))

theorem inputs_reread : (List.range e.program.size).filterMap (inputAt e.program) =
    (o.order.filterMap (inputAt o.program)).map (bySlot (o.order.filterMap (inputAt o.program))) := by
  have hmap (g : InputRef → InputRef) : (o.order.filterMap (inputAt o.program)).map g =
      (List.range e.program.size).filterMap fun x => (inputAt o.program (o.nodeAt x)).map g := by
    rw [order_eq_map hw, List.filterMap_map, List.map_filterMap]
    rfl
  rw [hmap]
  exact List.filterMap_congr fun x hx => inputAt_reread h hw (order_of_lt hw (List.mem_range.mp hx))

/-- The outputs up to a position keep their data sets and elements. -/
theorem slots_reread (k : Nat) :
    (((List.range e.program.size).take k).filterMap (slotAt e.program)).map (fun s => (s.dataset, s.element)) =
      ((o.order.take k).filterMap (slotAt o.program)).map fun s => (s.dataset, s.element) := by
  rw [order_eq_map hw, ← List.map_take, List.filterMap_map, List.map_filterMap, List.map_filterMap]
  refine List.filterMap_congr fun x hx => ?_
  have hx := List.mem_range.mp (List.mem_of_mem_take hx)
  rw [Function.comp, slotAt_reread h hw (order_of_lt hw hx), Option.map_map]
  rfl

/-! ## Numbering it -/

theorem keys_constants_reread (hp : c.image.Packable) :
    (({} : Numbering).addAll ((List.range e.program.size).flatMap (constantsAt e.program))).keys.toList =
      List.range c.renumbering.constants.size := by
  have hn := numbered_ofOrder hw.numbered
  have hsize := hp.constants
  simp only [hw.image, imageOf, length_words] at hsize
  rw [constants_reread h hw]
  rw [hn.constants] at hsize ⊢
  exact Numbering.keys_addAll_numberOf hsize

/-- The counts of a packable image fit again. -/
theorem countable_reread (hp : c.image.Packable) : Countable e.program (List.range e.program.size) := by
  have hc := ofOrder_isOk_iff.mp ⟨_, hw.numbered⟩
  have hslots : ((List.range e.program.size).filterMap (slotAt e.program)).length < 65536 := by
    have hlen := congrArg List.length (slots_reread h hw e.program.size)
    rw [List.length_map, List.length_map, List.take_of_length_le (by simp), size_program hw,
      List.take_of_length_le (Nat.le_refl _)] at hlen
    have hout := hp.outputs
    simp only [hw.image, imageOf, List.length_map, (numbered_ofOrder hw.numbered).slots] at hout
    rw [size_program hw]
    omega
  refine ⟨by omega, ?_, ?_, ?_, ?_⟩
  · have hsize := hp.constants
    simp only [hw.image, imageOf, length_words] at hsize
    refine allocatedConstants_le fun k hk => ?_
    rw [keys_constants_reread h hw hp, List.mem_range] at hk
    omega
  · rw [inputs_reread h hw, size_bySlot]
    exact hc.datasets
  · rw [inputs_reread h hw, lengths_bySlot hc.fields]
    exact hc.fields
  · have := outputFieldCount_le ((List.range e.program.size).filterMap (slotAt e.program)) #[]
    simp only [outputFieldCount, List.map_nil, total_nil] at this ⊢
    omega

section Numbered

variable {l : Liveness} {r : Renumbering} (hn : Numbered e.program l (List.range e.program.size) r)

include hn

theorem keys_registers_reread (hr : Reread o e l) : r.registers.keys.toList = List.range c.renumbering.registers.size := by
  have hsize := (Emission.ofChains_ok_iff.mp hw.emitted).1
  rw [hn.registers, registers_reread h hw hr]
  rw [(numbered_ofOrder hw.numbered).registers] at hsize ⊢
  exact Numbering.keys_addAll_numberOf (by rw [Numbering.capacity]; omega)

theorem inputSlot?_reread {m : InputRef} (hm : m ∈ (List.range e.program.size).filterMap (inputAt e.program)) :
    r.inputSlot? m.dataset m.field m.advance = some m.field := by
  have hc := ofOrder_isOk_iff.mp ⟨_, hw.numbered⟩
  rw [inputSlot?_eq hn]
  rw [inputs_reread h hw] at hm ⊢
  exact get?_bySlot hc.fields hm

theorem inputOffsets_reread : r.inputOffsets = c.renumbering.inputOffsets := by
  have hc := ofOrder_isOk_iff.mp ⟨_, hw.numbered⟩
  have hsize := size_bySlot (o.order.filterMap (inputAt o.program))
  rw [hn.inputOffsets, (numbered_ofOrder hw.numbered).inputOffsets, inputs_reread h hw, lengths_bySlot hc.fields]
  simp only [Array.isEmpty_iff_size_eq_zero, hsize]

theorem slots_eq_reread :
    r.slots.map (fun s => (s.dataset, s.element)) = c.renumbering.slots.map fun s => (s.dataset, s.element) := by
  have := slots_reread h hw e.program.size
  rw [List.take_of_length_le (by simp), List.take_of_length_le (by rw [size_program hw])] at this
  rw [hn.slots, (numbered_ofOrder hw.numbered).slots, this]

/-- An output keeps its slot. -/
theorem slotOf_reread (hp : c.image.Packable) {x i : Nat} {slot : OutputSlot} (hx : o.order[x]? = some i)
    (hs : slotAt e.program x = some slot) : r.slotOf.getD x none = some slot.field := by
  have hlt := lt_size_reread hw hx
  obtain ⟨s, hs', rfl⟩ : ∃ s, slotAt o.program i = some s ∧
      { s with field := (c.renumbering.slotOf.getD i none).getD 0 } = slot := by
    rw [slotAt_reread h hw hx] at hs
    exact Option.map_eq_some_iff.mp hs
  obtain ⟨h1, -, -⟩ := hn.slot (countable_reread h hw hp) List.nodup_range (List.getElem?_range hlt) hs
  obtain ⟨h2, -, -⟩ := (numbered_ofOrder hw.numbered).slot (ofOrder_isOk_iff.mp ⟨_, hw.numbered⟩)
    (nodup_order h.handed) hx hs'
  have hlen := congrArg List.length (slots_reread h hw x)
  rw [List.length_map, List.length_map] at hlen
  rw [h1, h2, hlen]
  rfl

end Numbered

end Emitted

end Compile

end LaneScript
