/-
  LaneScript.Proofs.Renumbering — the tables in terms of what is mentioned.

  One node mentions registers, constants, at most one input field and at most one output
  slot. Scanning an order adds up what its nodes mention (`scan_registers` and so on):
  each table depends on one list of mentions only, and the slot of an output is the
  number of outputs before it (`scan_slotOf`).

  A finished renumbering can be undone: a constant's number finds the constant in its
  table, a slot of an output its field, and a slot of an input field, counted from where
  its data set begins, the field (`inputSlot?_field`).
-/
import LaneScript.Compile.Renumbering
import LaneScript.Proofs.Numbering

namespace LaneScript.Renumbering

/-! ## Mentions -/

/-- The registers that the instruction of a node mentions, those of unread destinations apart. -/
def registersIn (l : Liveness) (node : Nat) (i : Instruction) : List Nat :=
  i.sources.filterMap (fun s => s.reg?.map UInt16.toNat) ++
    i.dests.zipIdx.filterMap fun (d, pos) => if l.isUnread node pos then none else d.reg?.map UInt16.toNat

def constantsIn (i : Instruction) : List Nat := i.sources.filterMap fun s => s.const?.map UInt16.toNat

structure InputRef where
  dataset : UInt16
  field : UInt16
  advance : Bool
  deriving DecidableEq, Repr

def inputIn? (i : Instruction) : Option InputRef :=
  match i.opcode with
  | .input _ advance => some ⟨i.address.1, i.address.2, advance⟩
  | _ => none

def slotIn? (i : Instruction) : Option OutputSlot :=
  match i.opcode with
  | .output element => some ⟨i.address.1, element.byte, i.address.2⟩
  | _ => none

def addInput (inputs : Array InputFields) (m : InputRef) : Array InputFields :=
  (grow inputs (m.dataset.toNat + 1) {}).modify m.dataset.toNat fun ⟨advancing, still⟩ =>
    if m.advance then ⟨advancing.add m.field.toNat, still⟩ else ⟨advancing, still.add m.field.toNat⟩

def addOutput (outputs : Array Numbering) (s : OutputSlot) : Array Numbering :=
  (grow outputs (s.dataset.toNat + 1) {}).modify s.dataset.toNat (·.add s.field.toNat)

section Mentions

variable (p : Program) (l : Liveness)

def registersAt (i : Nat) : List Nat := (p[i]?.map fun n => registersIn l i n.instr).getD []

def constantsAt (i : Nat) : List Nat := (p[i]?.map fun n => constantsIn n.instr).getD []

def inputAt (i : Nat) : Option InputRef := p[i]?.bind fun n => inputIn? n.instr

def slotAt (i : Nat) : Option OutputSlot := p[i]?.bind fun n => slotIn? n.instr

end Mentions

/-! ## One node -/

structure Grown (s : Scan) (rs cs : List Nat) (t : Scan) : Prop where
  registers : t.registers = s.registers.addAll rs
  constants : t.constants = s.constants.addAll cs
  inputs : t.inputs = s.inputs
  outputs : t.outputs = s.outputs
  slots : t.slots = s.slots
  slotOf : t.slotOf = s.slotOf

theorem grown_sources (s : Scan) (ss : List Source) :
    Grown s (ss.filterMap fun x => x.reg?.map UInt16.toNat) (ss.filterMap fun x => x.const?.map UInt16.toNat)
      (ss.foldl Scan.source s) := by
  induction ss generalizing s with
  | nil => exact ⟨rfl, rfl, rfl, rfl, rfl, rfl⟩
  | cons x ss ih =>
    obtain ⟨h1, h2, h3, h4, h5, h6⟩ := ih (Scan.source s x)
    rw [List.foldl_cons]
    cases x <;> exact ⟨h1, h2, h3, h4, h5, h6⟩

theorem grown_dests (l : Liveness) (node : Nat) (s : Scan) (ds : List (Dest × Nat)) :
    Grown s (ds.filterMap fun (d, pos) => if l.isUnread node pos then none else d.reg?.map UInt16.toNat) []
      (ds.foldl (Scan.dest l node) s) := by
  induction ds generalizing s with
  | nil => exact ⟨rfl, rfl, rfl, rfl, rfl, rfl⟩
  | cons x ds ih =>
    obtain ⟨d, pos⟩ := x
    obtain ⟨h1, h2, h3, h4, h5, h6⟩ := ih (Scan.dest l node s (d, pos))
    rw [List.foldl_cons]
    cases d with
    | acc => simpa [Scan.dest, Dest.reg?] using ⟨h1, h2, h3, h4, h5, h6⟩
    | reg r =>
      by_cases hu : l.isUnread node pos = true
      · simp only [Scan.dest, hu, if_true] at h1 h2 h3 h4 h5 h6 ⊢
        simpa [hu] using ⟨h1, h2, h3, h4, h5, h6⟩
      · simp only [Scan.dest, hu] at h1 h2 h3 h4 h5 h6 ⊢
        refine ⟨?_, h2, h3, h4, h5, h6⟩
        rw [List.filterMap_cons_some (b := r.toNat) (by simp [hu, Dest.reg?])]
        exact h1

structure Visited (p : Program) (l : Liveness) (nodes : List Nat) (s t : Scan) : Prop where
  registers : t.registers = s.registers.addAll (nodes.flatMap (registersAt p l))
  constants : t.constants = s.constants.addAll (nodes.flatMap (constantsAt p))
  inputs : t.inputs = (nodes.filterMap (inputAt p)).foldl addInput s.inputs
  outputs : t.outputs = (nodes.filterMap (slotAt p)).foldl addOutput s.outputs
  slots : t.slots.toList = s.slots.toList ++ nodes.filterMap (slotAt p)

theorem visit_grown {p : Program} {l : Liveness} {node : Nat} {n : Node} (hn : p[node]? = some n) (s : Scan) :
    ∃ t, Grown s (registersAt p l node) (constantsAt p node) t ∧
      Scan.visit p l s node =
        match n.instr.opcode with
        | .input _ advance => t.input n.instr.address.1 n.instr.address.2 advance
        | .output element => t.output node n.instr.address.1 n.instr.address.2 element
        | _ => t := by
  refine ⟨n.instr.dests.zipIdx.foldl (Scan.dest l node) (n.instr.sources.foldl Scan.source s), ?_, ?_⟩
  · have h1 := grown_sources s n.instr.sources
    have h2 := grown_dests l node (n.instr.sources.foldl Scan.source s) n.instr.dests.zipIdx
    refine ⟨?_, ?_, h2.inputs.trans h1.inputs, h2.outputs.trans h1.outputs, h2.slots.trans h1.slots,
      h2.slotOf.trans h1.slotOf⟩
    · rw [h2.registers, h1.registers]
      simp only [registersAt, hn, Option.map_some, Option.getD_some, registersIn, Numbering.addAll, List.foldl_append]
    · rw [h2.constants, h1.constants]
      simp only [constantsAt, hn, Option.map_some, Option.getD_some, constantsIn]
      rfl
  · unfold Scan.visit
    cases e : p[node]? with
    | none =>
      rw [hn] at e
      cases e
    | some m =>
      rw [hn] at e
      cases e
      rfl

theorem visited_one (p : Program) (l : Liveness) (s : Scan) (node : Nat) :
    Visited p l [node] s (Scan.visit p l s node) ∧ (Scan.visit p l s node).slotOf =
      if (slotAt p node).isSome then s.slotOf.setIfInBounds node (some (UInt16.ofNat s.slots.size)) else s.slotOf := by
  cases hn : p[node]? with
  | none =>
    have e : Scan.visit p l s node = s := by simp only [Scan.visit, hn]
    rw [e]
    refine ⟨⟨?_, ?_, ?_, ?_, ?_⟩, ?_⟩ <;>
      simp [registersAt, constantsAt, inputAt, slotAt, hn, Numbering.addAll]
  | some n =>
    obtain ⟨t, hg, ht⟩ := visit_grown (l := l) hn s
    have hi : inputAt p node = inputIn? n.instr := by simp [inputAt, hn]
    have ho : slotAt p node = slotIn? n.instr := by simp [slotAt, hn]
    rw [ht]
    unfold inputIn? at hi
    unfold slotIn? at ho
    cases hop : n.instr.opcode <;> simp only [hop] at hi ho ⊢
    case input element advance =>
      refine ⟨⟨by simpa [Scan.input] using hg.registers, by simpa [Scan.input] using hg.constants, ?_, ?_, ?_⟩, ?_⟩
      · simp [hi, addInput, Scan.input, hg.inputs]
      · simp [ho, Scan.input, hg.outputs]
      · simp [ho, Scan.input, hg.slots]
      · simp [ho, Scan.input, hg.slotOf]
    case output element =>
      refine ⟨⟨by simpa [Scan.output] using hg.registers, by simpa [Scan.output] using hg.constants, ?_, ?_, ?_⟩, ?_⟩
      · simp [hi, Scan.output, hg.inputs]
      · simp [ho, addOutput, Scan.output, hg.outputs]
      · simp [ho, Scan.output, hg.slots]
      · simp [ho, Scan.output, hg.slotOf, hg.slots]
    all_goals
      refine ⟨⟨by simpa using hg.registers, by simpa using hg.constants, ?_, ?_, ?_⟩, ?_⟩
      · simp [hi, hg.inputs]
      · simp [ho, hg.outputs]
      · simp [ho, hg.slots]
      · simp [ho, hg.slotOf]

theorem Visited.trans {p : Program} {l : Liveness} {as bs : List Nat} {s t u : Scan} (h : Visited p l as s t)
    (h' : Visited p l bs t u) : Visited p l (as ++ bs) s u where
  registers := by simp only [h'.registers, h.registers, Numbering.addAll, List.flatMap_append, List.foldl_append]
  constants := by simp only [h'.constants, h.constants, Numbering.addAll, List.flatMap_append, List.foldl_append]
  inputs := by simp only [h'.inputs, h.inputs, List.filterMap_append, List.foldl_append]
  outputs := by simp only [h'.outputs, h.outputs, List.filterMap_append, List.foldl_append]
  slots := by simp only [h'.slots, h.slots, List.filterMap_append, List.append_assoc]

theorem visited_all (p : Program) (l : Liveness) (nodes : List Nat) (s : Scan) :
    Visited p l nodes s (nodes.foldl (Scan.visit p l) s) := by
  induction nodes generalizing s with
  | nil => exact ⟨rfl, rfl, rfl, rfl, by simp⟩
  | cons i nodes ih => exact (visited_one p l s i).1.trans (ih _)

/-! ## Slots of outputs -/

theorem slotOf_of_not_mem {p : Program} {l : Liveness} {nodes : List Nat} {i : Nat} (hi : i ∉ nodes) (s : Scan) :
    (nodes.foldl (Scan.visit p l) s).slotOf.getD i none = s.slotOf.getD i none := by
  induction nodes generalizing s with
  | nil => rfl
  | cons j nodes ih =>
    obtain ⟨hij, hi⟩ := not_or.mp (mt List.mem_cons.mpr hi)
    rw [List.foldl_cons, ih hi, (visited_one p l s j).2]
    split
    · simp [Array.getD_eq_getD_getElem?, Ne.symm hij]
    · rfl

theorem size_slotOf (p : Program) (l : Liveness) (nodes : List Nat) (s : Scan) :
    (nodes.foldl (Scan.visit p l) s).slotOf.size = s.slotOf.size := by
  induction nodes generalizing s with
  | nil => rfl
  | cons j nodes ih =>
    rw [List.foldl_cons, ih, (visited_one p l s j).2]
    split <;> simp

/-- The slot of an output is the number of outputs before it. -/
theorem scan_slotOf {p : Program} {l : Liveness} {order : List Nat} (hd : order.Nodup) {x i : Nat} {slot : OutputSlot}
    (hx : order[x]? = some i) (hs : slotAt p i = some slot) :
    (order.foldl (Scan.visit p l) { slotOf := Array.replicate p.size none }).slotOf.getD i none =
      some (UInt16.ofNat ((order.take x).filterMap (slotAt p)).length) := by
  obtain ⟨hlt, rfl⟩ := List.getElem?_eq_some_iff.mp hx
  have hsplit : order = order.take x ++ order[x] :: order.drop (x + 1) := by
    rw [List.getElem_cons_drop, List.take_append_drop]
  have hnot : order[x] ∉ order.drop (x + 1) := by
    rw [hsplit] at hd
    exact (List.nodup_cons.mp (List.nodup_append.mp hd).2.1).1
  have hsize : order[x] < p.size := by
    by_contra hge
    simp [slotAt, Array.getElem?_eq_none (Nat.le_of_not_lt hge)] at hs
  have hfold : ∀ s : Scan, order.foldl (Scan.visit p l) s =
      (order.drop (x + 1)).foldl (Scan.visit p l) (Scan.visit p l ((order.take x).foldl (Scan.visit p l) s) order[x]) := by
    intro s
    conv_lhs => rw [hsplit, List.foldl_append, List.foldl_cons]
  rw [hfold, slotOf_of_not_mem hnot, (visited_one ..).2, hs, Option.isSome_some, if_pos rfl]
  have hv := (visited_all p l (order.take x) { slotOf := Array.replicate p.size none }).slots
  have hlen := congrArg List.length hv
  simp only [Array.length_toList, List.length_append, List.length_nil, Nat.zero_add] at hlen
  simp [Array.getD_eq_getD_getElem?, size_slotOf, hsize, hlen]

/-! ## Input fields of one data set -/

def fieldsOf (ms : List InputRef) (dataset : Nat) (advance : Bool) : List Nat :=
  ms.filterMap fun m => if m.dataset.toNat = dataset ∧ m.advance = advance then some m.field.toNat else none

theorem getD_grow {α : Type} (xs : Array α) (size : Nat) (fill : α) (d : Nat) :
    (grow xs size fill).getD d fill = xs.getD d fill := by
  simp only [grow, Array.getD_eq_getD_getElem?, Array.getElem?_append]
  split
  · rfl
  · rename_i h
    rw [Array.getElem?_eq_none (Nat.le_of_not_lt h), Array.getElem?_replicate]
    split <;> rfl

theorem size_grow {α : Type} (xs : Array α) (size : Nat) (fill : α) : (grow xs size fill).size = max xs.size size := by
  simp [grow]
  omega

theorem getD_modify {α : Type} (xs : Array α) (f : α → α) (fill : α) {i d : Nat} (hi : i < xs.size) :
    (xs.modify i f).getD d fill = if i = d then f (xs.getD d fill) else xs.getD d fill := by
  simp only [Array.getD_eq_getD_getElem?, Array.getElem?_modify]
  split
  · subst i
    simp [Array.getElem?_eq_getElem hi]
  · rfl

theorem getD_addInputs (ms : List InputRef) (inputs : Array InputFields) (d : Nat) :
    (ms.foldl addInput inputs).getD d {} =
      ⟨(inputs.getD d {}).advancing.addAll (fieldsOf ms d true), (inputs.getD d {}).still.addAll (fieldsOf ms d false)⟩ := by
  induction ms generalizing inputs with
  | nil => rfl
  | cons m ms ih =>
    have hm : (addInput inputs m).getD d {} =
        if m.dataset.toNat = d then
          if m.advance then ⟨(inputs.getD d {}).advancing.add m.field.toNat, (inputs.getD d {}).still⟩
          else ⟨(inputs.getD d {}).advancing, (inputs.getD d {}).still.add m.field.toNat⟩
        else inputs.getD d {} := by
      rw [addInput, getD_modify _ _ _ (by rw [size_grow]; omega), getD_grow]
    rw [List.foldl_cons, ih, hm]
    by_cases hd : m.dataset.toNat = d
    · cases ha : m.advance <;> simp [hd, ha, fieldsOf, Numbering.addAll]
    · simp [hd, fieldsOf]

theorem size_addInputs (ms : List InputRef) (inputs : Array InputFields) :
    (ms.foldl addInput inputs).size = ms.foldl (fun top m => max top (m.dataset.toNat + 1)) inputs.size := by
  induction ms generalizing inputs with
  | nil => rfl
  | cons m ms ih => simp only [List.foldl_cons, ih, addInput, Array.size_modify, size_grow]

/-! ## The finished tables -/

/-- The advancing and the other fields of every data set, one list after the other. -/
def fieldLists (inputs : Array InputFields) : List (List UInt16) :=
  inputs.toList.flatMap fun fields => [words fields.advancing, words fields.still]

structure Numbered (p : Program) (l : Liveness) (order : List Nat) (r : Renumbering) : Prop where
  registers : r.registers = ({} : Numbering).addAll (order.flatMap (registersAt p l))
  constants : r.constants = ({} : Numbering).addAll (order.flatMap (constantsAt p))
  inputs : r.inputs = ((order.filterMap (inputAt p)).foldl addInput #[]).map inputTable
  outputs : r.outputs = (order.filterMap (slotAt p)).foldl addOutput #[]
  slots : r.slots = order.filterMap (slotAt p)
  slotOf : r.slotOf = (order.foldl (Scan.visit p l) { slotOf := Array.replicate p.size none }).slotOf
  inputOffsets : r.inputOffsets = if ((order.filterMap (inputAt p)).foldl addInput #[]).isEmpty then []
    else (bounds ((fieldLists ((order.filterMap (inputAt p)).foldl addInput #[])).map List.length)).map UInt16.ofNat
  inputFields : r.inputFields = (fieldLists ((order.filterMap (inputAt p)).foldl addInput #[])).flatten
  stillCount : r.stillCount =
    total (((order.filterMap (inputAt p)).foldl addInput #[]).toList.map fun fields => fields.still.size)

structure Countable (p : Program) (order : List Nat) : Prop where
  slots : (order.filterMap (slotAt p)).length ≤ 65536
  constants : allocatedConstants (({} : Numbering).addAll (order.flatMap (constantsAt p))) ≤ 65535
  datasets : ((order.filterMap (inputAt p)).foldl addInput #[]).size ≤ 65535
  fields : total ((fieldLists ((order.filterMap (inputAt p)).foldl addInput #[])).map List.length) ≤ 65535
  outputs : outputFieldCount ((order.filterMap (slotAt p)).foldl addOutput #[]) ≤ 65535

theorem ofOrder_isOk_iff {p : Program} {l : Liveness} {order : List Nat} :
    (∃ r, ofOrder p l order = .ok r) ↔ Countable p order := by
  have hv := visited_all p l order { slotOf := Array.replicate p.size none }
  unfold ofOrder
  generalize order.foldl (Scan.visit p l) { slotOf := Array.replicate p.size none } = s at hv
  have hslots : s.slots.size = (order.filterMap (slotAt p)).length := by
    have := congrArg List.length hv.slots
    simpa using this
  have hconst : s.constants = ({} : Numbering).addAll (order.flatMap (constantsAt p)) := hv.constants
  have hinputs : s.inputs = (order.filterMap (inputAt p)).foldl addInput #[] := hv.inputs
  have houtputs : s.outputs = (order.filterMap (slotAt p)).foldl addOutput #[] := hv.outputs
  unfold Scan.finish
  simp only [hslots, hconst, hinputs, houtputs]
  constructor
  · rintro ⟨r, h⟩
    split at h
    · cases h
    rename_i h1
    split at h
    · cases h
    rename_i h2
    split at h
    · cases h
    rename_i h3
    split at h
    · cases h
    rename_i h4
    rw [not_or] at h3
    exact ⟨by omega, by omega, by omega, Nat.le_of_not_lt h3.2, by omega⟩
  · rintro ⟨h1, h2, h3, h4, h5⟩
    unfold fieldLists at h4
    rw [if_neg (by omega), if_neg (by omega), if_neg (not_or.mpr ⟨by omega, Nat.not_lt.mpr h4⟩), if_neg (by omega)]
    exact ⟨_, rfl⟩

theorem numbered_ofOrder {p : Program} {l : Liveness} {order : List Nat} {r : Renumbering}
    (h : ofOrder p l order = .ok r) : Numbered p l order r := by
  have hv := visited_all p l order { slotOf := Array.replicate p.size none }
  unfold ofOrder at h
  generalize hs : order.foldl (Scan.visit p l) { slotOf := Array.replicate p.size none } = s at h hv
  unfold Scan.finish at h
  simp only at h
  split at h
  · cases h
  split at h
  · cases h
  split at h
  · cases h
  split at h
  · cases h
  cases h
  exact ⟨hv.registers, hv.constants, by rw [hv.inputs], hv.outputs, by simpa using hv.slots, by rw [hs],
    by rw [hv.inputs]; rfl, by rw [hv.inputs]; rfl, by rw [hv.inputs]⟩

/-- An output's slot is the number of outputs before it, and leads to its data set, element and field. -/
theorem Numbered.slot {p : Program} {l : Liveness} {order : List Nat} {r : Renumbering} (hn : Numbered p l order r)
    (hc : Countable p order) (hd : order.Nodup) {x i : Nat} {s : OutputSlot} (hx : order[x]? = some i)
    (hs : slotAt p i = some s) :
    r.slotOf.getD i none = some (UInt16.ofNat ((order.take x).filterMap (slotAt p)).length) ∧
      (UInt16.ofNat ((order.take x).filterMap (slotAt p)).length).toNat = ((order.take x).filterMap (slotAt p)).length ∧
      r.slots[((order.take x).filterMap (slotAt p)).length]? = some s := by
  have hsplit : order.filterMap (slotAt p) =
      (order.take x).filterMap (slotAt p) ++ s :: (order.drop (x + 1)).filterMap (slotAt p) := by
    obtain ⟨hlt, rfl⟩ := List.getElem?_eq_some_iff.mp hx
    conv_lhs => rw [← List.take_append_drop x order, ← List.getElem_cons_drop hlt, List.filterMap_append,
      List.filterMap_cons, hs]
  refine ⟨by rw [hn.slotOf]; exact scan_slotOf hd hx hs, UInt16.toNat_ofNat_of_lt' ?_, ?_⟩
  · have := hc.slots
    rw [hsplit, List.length_append, List.length_cons] at this
    unfold UInt16.size
    omega
  · rw [hn.slots, hsplit, List.getElem?_append_right (Nat.le_refl _)]
    simp

/-! ## Lists that stand back to back -/

theorem bounds_eq (ls : List Nat) : bounds ls = (List.range (ls.length + 1)).map fun k => total (ls.take k) := by
  have run (ls : List Nat) (starts : Array Nat) (stop : Nat) :
      ls.foldl nextBound (starts, stop) =
        ((starts.toList ++ (List.range ls.length).map fun k => stop + total (ls.take k)).toArray, stop + total ls) := by
    induction ls generalizing starts stop with
    | nil => simp
    | cons n ls ih =>
      rw [List.foldl_cons, ih, List.length_cons, List.range_succ_eq_map]
      simp [nextBound, Function.comp_def, Nat.add_assoc]
  rw [bounds, run ls #[] 0, List.range_succ]
  simp

theorem getElem?_bounds {ls : List Nat} {k : Nat} (hk : k ≤ ls.length) : (bounds ls)[k]? = some (total (ls.take k)) := by
  rw [bounds_eq, List.getElem?_map, List.getElem?_range (by omega)]
  rfl

/-- Where the lists of a data set stand among all of them. -/
theorem fieldLists_split {inputs : Array InputFields} {d : Nat} {fields : InputFields} (h : inputs[d]? = some fields) :
    ∃ front back, fieldLists inputs = front ++ [words fields.advancing, words fields.still] ++ back ∧
      front.length = 2 * d := by
  rw [← Array.getElem?_toList] at h
  obtain ⟨hlt, rfl⟩ := List.getElem?_eq_some_iff.mp h
  have hsplit : inputs.toList = inputs.toList.take d ++ inputs.toList[d] :: inputs.toList.drop (d + 1) := by
    rw [List.getElem_cons_drop, List.take_append_drop]
  refine ⟨(inputs.toList.take d).flatMap fun fields => [words fields.advancing, words fields.still],
    (inputs.toList.drop (d + 1)).flatMap fun fields => [words fields.advancing, words fields.still], ?_, ?_⟩
  · conv_lhs => rw [fieldLists, hsplit]
    simp
  · rw [List.length_flatMap]
    simp only [Array.length_toList] at hlt
    simp [Nat.min_eq_left (Nat.le_of_lt hlt), Nat.mul_comm]

theorem length_fieldLists (inputs : Array InputFields) : (fieldLists inputs).length = 2 * inputs.size := by
  rw [fieldLists, List.length_flatMap]
  simp [Nat.mul_comm]

@[simp] theorem length_words (n : Numbering) : (words n).length = n.size := by simp [words, Numbering.size]

/-! ## Input fields and their slots -/

structure FieldTables (f : InputFields) : Prop where
  advancing : f.advancing.Valid
  still : f.still.Valid
  advancing_lt : ∀ k ∈ f.advancing.keys.toList, k < 65536
  still_lt : ∀ k ∈ f.still.keys.toList, k < 65536

theorem fieldTables (ms : List InputRef) (d : Nat) : FieldTables ((ms.foldl addInput #[]).getD d {}) := by
  have hlt {a : Bool} {k : Nat} (hk : k ∈ (({} : Numbering).addAll (fieldsOf ms d a)).keys.toList) : k < 65536 := by
    rcases Numbering.mem_keys_addAll Numbering.valid_empty hk with hk | hk
    · cases hk
    · obtain ⟨m, -, e⟩ := List.mem_filterMap.mp hk
      split at e
      · cases e
        exact m.field.toNat_lt
      · cases e
  rw [getD_addInputs]
  exact ⟨Numbering.valid_addAll Numbering.valid_empty _, Numbering.valid_addAll Numbering.valid_empty _,
    fun k => hlt, fun k => hlt⟩

/-- The table of a data set lists the advancing fields first. -/
theorem keys_inputTable {f : InputFields} (h : FieldTables f) (hc : f.advancing.size + f.still.size ≤ 65536) :
    (inputTable f).Valid ∧
      (inputTable f).keys.toList = f.advancing.keys.toList ++ f.still.keys.toList.map stillKey := by
  refine ⟨Numbering.valid_addAll h.advancing _, Numbering.keys_addAll_of_new h.advancing ?_ (fun k hk hm => ?_) ?_⟩
  · refine List.pairwise_map.mpr (h.still.distinct.imp fun {a b} hab e => hab ?_)
    unfold stillKey at e
    omega
  · obtain ⟨a, -, rfl⟩ := List.mem_map.mp hk
    have := h.advancing_lt _ hm
    unfold stillKey at this
    omega
  · simpa [Numbering.size, Numbering.capacity] using hc

/-- A slot of a data set leads to the field that has it. -/
theorem words_of_get? {f : InputFields} (h : FieldTables f) (hc : f.advancing.size + f.still.size ≤ 65536)
    {field slot : UInt16} {advance : Bool}
    (hs : (inputTable f).get? (if advance then field.toNat else stillKey field.toNat) = some slot) :
    (words f.advancing ++ words f.still)[slot.toNat]? = some field := by
  obtain ⟨hv, hk⟩ := keys_inputTable h hc
  have hkey := (hv.number _ slot).mp hs
  rw [hk] at hkey
  simp only [words, ← List.map_append, List.getElem?_map]
  have hofNat : UInt16.ofNat field.toNat = field := UInt16.ofNat_toNat
  have hflt := field.toNat_lt
  by_cases hlt : slot.toNat < f.advancing.keys.toList.length
  · rw [List.getElem?_append_left hlt] at hkey ⊢
    have hmem := h.advancing_lt _ (List.mem_of_getElem? hkey)
    cases advance with
    | true =>
      simp only [if_true] at hkey
      rw [hkey, Option.map_some, hofNat]
    | false =>
      simp only [Bool.false_eq_true, if_false, stillKey] at hmem
      omega
  · rw [List.getElem?_append_right (Nat.le_of_not_lt hlt)] at hkey ⊢
    rw [List.getElem?_map, Option.map_eq_some_iff] at hkey
    obtain ⟨k, hk, e⟩ := hkey
    have hmem := h.still_lt k (List.mem_of_getElem? hk)
    unfold stillKey at e
    cases advance with
    | true =>
      simp only [if_true] at e
      omega
    | false =>
      simp only [Bool.false_eq_true, if_false] at e
      obtain rfl : k = field.toNat := by omega
      rw [hk, Option.map_some, hofNat]

theorem inputSlot?_field {p : Program} {l : Liveness} {order : List Nat} {r : Renumbering} (hn : Numbered p l order r)
    (hc : Countable p order) {dataset field slot : UInt16} {advance : Bool}
    (hs : r.inputSlot? dataset field advance = some slot) :
    ∃ start, r.inputOffsets[2 * dataset.toNat]? = some start ∧
      r.inputFields[start.toNat + slot.toNat]? = some field := by
  have htab := fieldTables (order.filterMap (inputAt p)) dataset.toNat
  have hsum := hc.fields
  have hd := hc.datasets
  rw [hn.inputFields, hn.inputOffsets]
  unfold inputSlot? at hs
  rw [hn.inputs, Array.getElem?_map] at hs
  generalize (order.filterMap (inputAt p)).foldl addInput #[] = inputs at htab hsum hd hs ⊢
  cases hf : inputs[dataset.toNat]? with
  | none => rw [hf] at hs; cases hs
  | some f =>
    simp only [hf, Option.map_some] at hs
    simp only [Array.getD_eq_getD_getElem?, hf, Option.getD_some] at htab
    have hlt := (Array.getElem?_eq_some_iff.mp hf).1
    obtain ⟨front, back, hsplit, hfront⟩ := fieldLists_split hf
    have hlen := length_fieldLists inputs
    rw [if_neg (fun he => by rw [Array.isEmpty_iff_size_eq_zero] at he; omega)]
    rw [hsplit] at hsum
    simp only [List.map_append, List.map_cons, List.map_nil, length_words, total_append, total_cons,
      total_nil] at hsum
    refine ⟨UInt16.ofNat (total (front.map List.length)), ?_, ?_⟩
    · rw [List.getElem?_map, getElem?_bounds (by simp [hlen]; omega), hsplit, ← hfront]
      simp
    rw [UInt16.toNat_ofNat_of_lt' (by unfold UInt16.size; omega), hsplit]
    have hw := words_of_get? htab (by omega) hs
    have hwl := (List.getElem?_eq_some_iff.mp hw).1
    simp only [List.flatten_append, List.flatten_cons, List.flatten_nil, List.append_nil, List.append_assoc]
    rw [← length_flatten, List.getElem?_append_right (by omega), Nat.add_sub_cancel_left, ← List.append_assoc,
      List.getElem?_append_left hwl]
    exact hw

end LaneScript.Renumbering
