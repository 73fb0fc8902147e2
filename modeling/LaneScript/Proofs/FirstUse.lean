/-
  LaneScript.Proofs.FirstUse — a compiled stream counts what it mentions in order of first use.

  A table that is not full holds the distinct keys in the order in which they were first
  added (`Numbering.keys_eq_eraseDups`). What an emitted instruction mentions are numbers
  of such a table, so reading the stream, sources before destinations, meets each number
  for the first time right after the number before it. Proved, for every compile that
  succeeds (`compile_first_use`): so it is for registers, constants and, in each data set,
  for the slots of advancing fields and behind them for those of the others; an output's
  field is the number of outputs before it. The registers above the numbered ones are
  results of calls that nothing reads.
-/
import LaneScript.Proofs.LoadCompiled
import LaneScript.Proofs.Lookups
import LaneScript.Proofs.ReadBack

namespace LaneScript

/-! ## Keys in order of first use -/

namespace Numbering

theorem keys_addAll_eraseDups {n : Numbering} (h : n.Valid) {ks : List Nat} (hlt : (n.addAll ks).size < capacity) :
    (n.addAll ks).keys.toList = n.keys.toList ++ (ks.filter (· ∉ n.keys.toList)).eraseDups := by
  induction ks generalizing n with
  | nil => simp [addAll]
  | cons k ks ih =>
    have hle := (prefix_addAll h (k :: ks)).length_le
    have hroom : ¬ capacity ≤ n.size := by
      simp only [Array.length_toList] at hle
      simp only [size] at hlt ⊢
      omega
    have hkeys := keys_add h (k := k)
    rw [show n.addAll (k :: ks) = (n.add k).addAll ks from rfl, ih (valid_add h k) hlt, hkeys]
    by_cases hk : k ∈ n.keys.toList
    · rw [if_pos (.inl hk), List.filter_cons_of_neg (by simpa using hk)]
    · have hsame : ks.filter (· ∉ n.keys.toList ++ [k]) = (ks.filter (· ∉ n.keys.toList)).filter (!· == k) := by
        rw [List.filter_filter]
        exact List.filter_congr fun a _ => by simp [Bool.and_comm, beq_eq_decide]
      rw [if_neg (by rintro (hm | hm); exacts [hk hm, hroom hm]), hsame, List.filter_cons_of_pos (by simpa using hk),
        List.eraseDups_cons]
      simp

/-- A table that is not full holds the keys in the order of their first occurrences. -/
theorem keys_eq_eraseDups {ks : List Nat} (hlt : (({} : Numbering).addAll ks).size < capacity) :
    (({} : Numbering).addAll ks).keys.toList = ks.eraseDups := by
  rw [keys_addAll_eraseDups valid_empty hlt]
  simp

/-- The numbers of keys first occur in the order 0, 1, 2 and so on. -/
theorem eraseDups_numberOf {ks : List Nat} (hlt : (({} : Numbering).addAll ks).size < capacity) :
    (ks.map (({} : Numbering).addAll ks).numberOf).eraseDups = List.range (({} : Numbering).addAll ks).size := by
  have hrange := keys_addAll_numberOf hlt
  rw [← hrange, keys_eq_eraseDups]
  have hsize := congrArg List.length hrange
  rw [Array.length_toList, List.length_range] at hsize
  rw [size, hsize]
  exact hlt

end Numbering

theorem filterMap_eq_range_of_rank {f : Nat → Option Nat} {n : Nat}
    (h : ∀ x < n, ∀ v, f x = some v → v = ((List.range x).filterMap f).length) :
    (List.range n).filterMap f = List.range ((List.range n).filterMap f).length := by
  induction n with
  | zero => rfl
  | succ n ih =>
    have hn := ih fun x hx => h x (by omega)
    rw [List.range_succ, List.filterMap_append]
    cases hf : f n with
    | none => simpa [hf] using hn
    | some v =>
      have hv := h n (by omega) v hf
      simp only [List.filterMap_cons, hf, List.filterMap_nil, List.length_append, List.length_singleton, List.range_succ]
      rw [← hn, ← hv]

/-! ## What a stream mentions -/

/-- The registers that an instruction mentions, sources before destinations. -/
def Instruction.mentions (i : Instruction) : List Nat :=
  i.sources.filterMap (fun s => s.reg?.map UInt16.toNat) ++ i.dests.filterMap fun d => d.reg?.map UInt16.toNat

theorem Instruction.opcode_of_call {i : Instruction} (h : i.category = .call) : i.opcode = .call := by
  revert h
  rw [category]
  cases i.opcode <;> simp [Opcode.category]

namespace Image

open Renumbering

/-- The slots of data set `d` in a stream that refers to the fields `refs`: those of advancing fields count up from 0,
    those of the others go on from there, each field in one slot of its kind. -/
structure SlotsOf (m : Image) (refs : List InputRef) (d : Nat) (start split stop : UInt16) : Prop where
  offsets : m.inputOffsets[2 * d]? = some start ∧ m.inputOffsets[2 * d + 1]? = some split ∧
    m.inputOffsets[2 * d + 2]? = some stop
  ordered : start ≤ split ∧ split ≤ stop ∧ stop.toNat ≤ m.inputs.length
  advancing : (fieldsOf refs d true).eraseDups = List.range (split.toNat - start.toNat)
  still : (fieldsOf refs d false).eraseDups = List.range' (split.toNat - start.toNat) (stop.toNat - split.toNat)
  distinct : (m.inputs.extract start.toNat split.toNat).Nodup ∧ (m.inputs.extract split.toNat stop.toNat).Nodup

/-- Read in order, the instructions meet each number of an image for the first time right after the one before it. -/
structure FirstUse (m : Image) (is : List Instruction) : Prop where
  registers : ((is.flatMap Instruction.mentions).filter (· < m.header.registers.toNat)).eraseDups =
    List.range m.header.registers.toNat
  read : ∀ i ∈ is, ∀ r, .reg r ∈ i.sources → r.toNat < m.header.registers.toNat
  spare : ∀ i ∈ is, ∀ r, .reg r ∈ i.dests → m.header.registers.toNat ≤ r.toNat →
    i.opcode = .call ∧ r.toNat < m.header.registers.toNat + m.header.spareRegisters.toNat
  constants : (is.flatMap constantsIn).eraseDups = List.range m.constants.length
  outputs : (is.filterMap slotIn?).map (fun s => s.field.toNat) = List.range m.outputDatasets.length
  datasets : ∀ ref ∈ is.filterMap inputIn?, ref.dataset.toNat < m.header.inputDatasets.toNat
  inputs : ∀ d < m.header.inputDatasets.toNat, ∃ start split stop, m.SlotsOf (is.filterMap inputIn?) d start split stop
  distinct : m.constants.Nodup

end Image

theorem Renumbering.nodup_words {n : Numbering} (h : n.Valid) (hlt : ∀ k ∈ n.keys.toList, k < 65536) :
    (words n).Nodup := by
  refine h.distinct.map_on fun a ha b hb hab => ?_
  rw [← UInt16.toNat_ofNat_of_lt' (hlt a ha), ← UInt16.toNat_ofNat_of_lt' (hlt b hb), hab]

/-- The slots of a data set's fields first occur in increasing order, those of advancing fields from 0 on. -/
theorem Renumbering.slots_first_use {ms : List InputRef}
    (hc : total ((fieldLists (ms.foldl addInput #[])).map List.length) ≤ 65535) (d : Nat) :
    (fieldsOf (ms.map (bySlot ms)) d true).eraseDups = List.range (fieldsAt ms d).advancing.size ∧
      (fieldsOf (ms.map (bySlot ms)) d false).eraseDups =
        List.range' (fieldsAt ms d).advancing.size (fieldsAt ms d).still.size := by
  have hsize := size_fields_le hc d
  obtain ⟨hadv, hstill⟩ := keys_bySlot hc d
  obtain ⟨hna, hns⟩ := sizes_bySlot hc d
  rw [fieldsAt_eq (ms.map (bySlot ms))] at hadv hstill hna hns
  rw [← hadv, List.range'_eq_map_range, ← hstill]
  constructor
  · exact (Numbering.keys_eq_eraseDups (by rw [hna, Numbering.capacity]; omega)).symm
  · exact (Numbering.keys_eq_eraseDups (by rw [hns, Numbering.capacity]; omega)).symm

/-- Two neighbours among lists that stand back to back: the bounds around them, and what lies between these. -/
theorem Renumbering.cut_adjacent {lists front back : List (List UInt16)} {a b : List UInt16}
    (h : lists = front ++ [a, b] ++ back) :
    ((bounds (lists.map List.length))[front.length]? = some (total (front.map List.length)) ∧
      (bounds (lists.map List.length))[front.length + 1]? = some (total (front.map List.length) + a.length) ∧
      (bounds (lists.map List.length))[front.length + 2]? = some (total (front.map List.length) + a.length + b.length)) ∧
    lists.flatten.extract (total (front.map List.length)) (total (front.map List.length) + a.length) = a ∧
    lists.flatten.extract (total (front.map List.length) + a.length)
      (total (front.map List.length) + a.length + b.length) = b ∧
    total (front.map List.length) + a.length + b.length ≤ total (lists.map List.length) := by
  have hlen : (lists.map List.length).length = front.length + 2 + back.length := by
    simp only [h, List.length_map, List.length_append, List.length_cons, List.length_nil]
  have htake (k : Nat) : (front ++ [a, b] ++ back).take (front.length + k) = front ++ ([a, b] ++ back).take k := by
    rw [List.append_assoc, List.take_length_add_append]
  have hdrop : (front ++ [a, b] ++ back).flatten.drop (total (front.map List.length)) = a ++ (b ++ back.flatten) := by
    rw [← length_flatten, List.append_assoc, List.flatten_append, List.drop_left]
    simp
  refine ⟨⟨?_, ?_, ?_⟩, ?_, ?_, ?_⟩
  · rw [getElem?_bounds (by omega), h, ← List.map_take, ← Nat.add_zero front.length, htake]
    simp
  · rw [getElem?_bounds (by omega), h, ← List.map_take, htake]
    simp
  · rw [getElem?_bounds (by omega), h, ← List.map_take, htake]
    simp [Nat.add_assoc]
  · rw [List.extract_eq_take_drop, h, hdrop, Nat.add_sub_cancel_left, List.take_left]
  · rw [List.extract_eq_take_drop, h, ← List.drop_drop, hdrop, List.drop_left, Nat.add_sub_cancel_left, List.take_left]
  · simp only [h, List.map_append, List.map_cons, List.map_nil, total_append, total_cons, total_nil]
    omega

namespace Emission

variable {r : Renumbering} {l : Liveness} {node : Nat} {i j : Instruction}

/-- The numbered registers in an emitted instruction are the numbers of those that its node mentions. -/
theorem Renumbered.mentions (h : Renumbered r l node i j) (hv : r.registers.Valid) :
    j.mentions.filter (· < r.registers.size) = (Renumbering.registersIn l node i).map r.registers.numberOf := by
  rw [Instruction.mentions, Renumbering.registersIn, List.filter_append, List.map_append, List.filter_filterMap,
    List.filter_filterMap]
  congr 1
  · refine filterMap_of_forall₂ (fun s t hst => ?_) h.sources
    cases hst with
    | reg hnum => simp [Source.reg?, Numbering.numberOf_eq hnum, hv.lt_size hnum]
    | const _ | acc => rfl
  · rw [← List.zipIdx_map_fst 0 j.dests, List.filterMap_map]
    refine filterMap_zipIdx_map h.dests.length_eq fun k a b ha hb => ?_
    obtain ⟨b', hb', hat⟩ := h.dests.dest_at ha
    rw [hb] at hb'
    cases hb'
    rw [Nat.zero_add] at hat
    cases hat with
    | acc => simp [Dest.reg?]
    | unread hun hle => simp [Dest.reg?, hun, hle]
    | kept hun hnum => simp [Dest.reg?, hun, Numbering.numberOf_eq hnum, hv.lt_size hnum]

end Emission

namespace Compile

open Program Renumbering

theorem flatMap_of_forall₂ {α β γ : Type} {R : α → β → Prop} {f : α → List γ} {g : β → List γ}
    (hf : ∀ a b, R a b → g b = f a) {as : List α} {bs : List β} (h : List.Forall₂ R as bs) :
    bs.flatMap g = as.flatMap f := by
  induction h with
  | nil => rfl
  | cons hab _ ih => rw [List.flatMap_cons, List.flatMap_cons, hf _ _ hab, ih]

theorem filterMap_instrs {α : Type} (p : Program) (f : Instruction → Option α) :
    p.instrs.filterMap f = (List.range p.size).filterMap fun x => p[x]?.bind fun n => f n.instr := by
  rw [filterMap_eq_range p.instrs, length_instrs]
  refine List.filterMap_congr fun x _ => ?_
  rw [getElem?_instrs, Option.bind_map]
  rfl

section Emitted

variable {settings : Settings} {d : Stream.Decoded} {o : Optimized} {c : Compiled} {e : Emission}
  (h : Optimum settings d o) (hw : Written settings o c e)

include hw

/-! ## Registers and constants -/

theorem toNat_registers : c.image.header.registers.toNat = c.renumbering.registers.size := by
  have hsize := (Emission.ofChains_ok_iff.mp hw.emitted).1
  rw [hw.image]
  exact UInt32.toNat_ofNat_of_lt' (by unfold UInt32.size; omega)

theorem registers_first_use :
    ((e.program.instrs.flatMap Instruction.mentions).filter (· < c.renumbering.registers.size)).eraseDups =
      List.range c.renumbering.registers.size := by
  have hn := numbered_ofOrder hw.numbered
  have hsize := (Emission.ofChains_ok_iff.mp hw.emitted).1
  have hmap : (e.program.instrs.flatMap Instruction.mentions).filter (· < c.renumbering.registers.size) =
      (o.order.flatMap (registersAt o.program o.live)).map c.renumbering.registers.numberOf := by
    rw [List.filter_flatMap, List.map_flatMap, instrs_program]
    refine flatMap_of_forall₂ (fun i b hb => ?_) (forall₂_emits hw)
    obtain ⟨n, hi, hren⟩ := hb
    rw [hren.mentions (valid_registers hw), registersAt, hi]
    rfl
  rw [hmap]
  rw [hn.registers] at hsize ⊢
  exact Numbering.eraseDups_numberOf (by rw [Numbering.capacity]; omega)

theorem constants_first_use : (e.program.instrs.flatMap constantsIn).eraseDups = List.range c.renumbering.constants.size := by
  have hn := numbered_ofOrder hw.numbered
  have hc := (ofOrder_isOk_iff.mp ⟨_, hw.numbered⟩).constants
  have hmap : e.program.instrs.flatMap constantsIn =
      (o.order.flatMap (constantsAt o.program)).map c.renumbering.constants.numberOf := by
    rw [List.map_flatMap, instrs_program]
    refine flatMap_of_forall₂ (fun i b hb => ?_) (forall₂_emits hw)
    obtain ⟨n, hi, hren⟩ := hb
    rw [hren.constantsIn, constantsAt, hi]
    rfl
  have hle := size_le_allocatedConstants (valid_constants hw)
  rw [hmap]
  rw [hn.constants] at hle ⊢
  exact Numbering.eraseDups_numberOf (by rw [Numbering.capacity]; omega)

theorem nodup_constants : c.image.constants.Nodup := by
  have hc := (ofOrder_isOk_iff.mp ⟨_, hw.numbered⟩).constants
  rw [← (numbered_ofOrder hw.numbered).constants] at hc
  rw [hw.image]
  refine nodup_words (valid_constants hw) fun k hk => ?_
  have := lt_allocatedConstants hk
  omega

include h

theorem read_lt_registers {b : Instruction} (hb : b ∈ e.program.instrs) {r : UInt16} (hr : .reg r ∈ b.sources) :
    r.toNat < c.renumbering.registers.size := by
  obtain ⟨x, hx⟩ := List.getElem?_of_mem hb
  rw [getElem?_instrs] at hx
  obtain ⟨n, hn, rfl⟩ := Option.map_eq_some_iff.mp hx
  obtain ⟨k, hk⟩ := List.getElem?_of_mem hr
  by_contra hge
  have hspare := readsRegister_spare h hw (y := x) (k := k) (Nat.le_of_not_lt hge)
  rw [← Bool.not_eq_true, Liveness.readsRegister_iff, sourcesOf_eq hn] at hspare
  exact hspare hk

/-! ## Registers of unread results -/

omit h hw in
theorem spareRegisters_le {calls : List (UInt16 × Nat)} {bound : Nat} (hb : ∀ call ∈ calls, call.2 ≤ bound) :
    spareRegisters calls ≤ bound := by
  unfold spareRegisters
  refine List.foldlRecOn calls _ (motive := fun top : Nat => top ≤ bound) (Nat.zero_le _) ?_
  intro top htop call hc
  exact Nat.max_le.mpr ⟨htop, hb call hc⟩

omit h hw in
theorem le_spareRegisters {calls : List (UInt16 × Nat)} {call : UInt16 × Nat} (hc : call ∈ calls) :
    call.2 ≤ spareRegisters calls := by
  have grow (calls : List (UInt16 × Nat)) (top : Nat) :
      top ≤ calls.foldl (fun top call => max top call.2) top ∧
        ∀ call ∈ calls, call.2 ≤ calls.foldl (fun top call => max top call.2) top := by
    induction calls generalizing top with
    | nil => exact ⟨Nat.le_refl _, fun call hc => absurd hc List.not_mem_nil⟩
    | cons first calls ih =>
      obtain ⟨h1, h2⟩ := ih (max top first.2)
      rw [List.foldl_cons]
      refine ⟨by omega, fun call hc => ?_⟩
      rcases List.mem_cons.mp hc with rfl | hc
      · omega
      · exact h2 call hc
  exact (grow calls 0).2 call hc

omit hw in
/-- A call has no more unread results than results. -/
theorem length_unread_le (i : Nat) : (o.live.unread.getD i []).length ≤ 255 := by
  rcases h.sound.unread i with he | he
  · rw [he]
    exact Nat.zero_le _
  · rw [he, Liveness.unreadAt]
    cases hm : d.program[i]? with
    | none => exact Nat.zero_le _
    | some m =>
      dsimp only
      split
      · rename_i hcall
        have hs := (h.formed.fits i m hm).shaped
        simp only [Instruction.WellShaped, Instruction.opcode_of_call hcall] at hs
        refine Nat.le_trans (List.length_filterMap_le _ _) ?_
        rw [List.length_zipIdx]
        exact hs.2.2.1
      · exact Nat.zero_le _

theorem toNat_spareRegisters :
    c.image.header.spareRegisters.toNat = spareRegisters (callsOf o.program o.live o.order) := by
  have hle : spareRegisters (callsOf o.program o.live o.order) ≤ 255 := by
    refine spareRegisters_le fun call hc => ?_
    obtain ⟨i, -, hi⟩ := List.mem_filterMap.mp hc
    split at hi
    · cases hi
    · split at hi
      · cases hi
        exact length_unread_le h i
      · cases hi
  rw [hw.image]
  exact UInt32.toNat_ofNat_of_lt' (by unfold UInt32.size; omega)

omit h hw in
/-- The unread results up to an unread one are no more than all of them. -/
theorem countP_unread_lt {l : Liveness} {i k : Nat} (hu : l.isUnread i k = true) :
    (List.range k).countP (l.isUnread i) < (l.unread.getD i []).length := by
  have hsub : (List.range (k + 1)).filter (l.isUnread i) ⊆ l.unread.getD i [] := by
    intro j hj
    exact List.contains_iff_mem.mp (List.mem_filter.mp hj).2
  have hle := (List.subperm_of_subset (List.nodup_range.filter _) hsub).length_le
  rw [← List.countP_eq_length_filter, List.range_succ, List.countP_append, List.countP_singleton, if_pos hu] at hle
  omega

/-- A destination above the numbered registers is an unread result of a call. -/
theorem spare_of_dest {b : Instruction} (hb : b ∈ e.program.instrs) {r : UInt16} (hr : .reg r ∈ b.dests)
    (hge : c.renumbering.registers.size ≤ r.toNat) :
    b.opcode = .call ∧ r.toNat < c.renumbering.registers.size + spareRegisters (callsOf o.program o.live o.order) := by
  obtain ⟨x, hx⟩ := List.getElem?_of_mem hb
  rw [getElem?_instrs] at hx
  obtain ⟨a, ha, rfl⟩ := Option.map_eq_some_iff.mp hx
  have hi := order_of_lt hw (lt_size_of_getElem? ha)
  generalize o.nodeAt x = i at hi
  obtain ⟨n, a', hn, ha', hren⟩ := exists_reread h hw hi
  rw [ha] at ha'
  cases ha'
  have hnamed := hren.renamed fun k hk => isUnread_acc h hn hk
  obtain ⟨k, hk⟩ := List.getElem?_of_mem hr
  have hkl : k < n.instr.dests.length := by
    rw [← hnamed.count]
    exact (List.getElem?_eq_some_iff.mp hk).1
  have himage := hnamed.dests k _ _ (List.getElem?_eq_getElem hkl) hk
  generalize n.instr.dests[k] = old at himage
  cases himage with
  | kept _ hnum =>
    have := (valid_registers hw).lt_size hnum
    omega
  | unread hu hnew =>
    -- Only calls have unread results.
    have hmem : k ∈ o.live.unread.getD i [] := List.contains_iff_mem.mp hu
    have hcall : n.instr.opcode = .call := by
      rcases h.sound.unread i with he | he <;> rw [he] at hmem
      · cases hmem
      · obtain ⟨m, -, hm, hcat, -⟩ := Liveness.mem_unreadAt.mp hmem
        rw [(h.handed.same i m n hm hn).1]
        exact Instruction.opcode_of_call hcat
    have hs := (h.handed.formed.fits i n hn).shaped
    simp only [Instruction.WellShaped, hcall] at hs
    obtain ⟨⟨f, hf⟩, -⟩ := hs
    have hin : (f, (o.live.unread.getD i []).length) ∈ callsOf o.program o.live o.order :=
      List.mem_filterMap.mpr ⟨i, List.mem_of_getElem? hi, by simp only [hn, hf]⟩
    have hle := le_spareRegisters hin
    have hlt := countP_unread_lt hu
    exact ⟨hren.opcode.trans hcall, by omega⟩

/-! ## Outputs -/

/-- The field of an output is the number of outputs before it. -/
theorem outputs_first_use : (e.program.instrs.filterMap slotIn?).map (fun s => s.field.toNat) =
    List.range c.renumbering.slots.length := by
  have hn := numbered_ofOrder hw.numbered
  have hc := ofOrder_isOk_iff.mp ⟨_, hw.numbered⟩
  have hlength (k : Nat) (hk : k ≤ e.program.size) :
      ((List.range k).filterMap fun x => (slotAt e.program x).map fun s => s.field.toNat).length =
        ((o.order.take k).filterMap (slotAt o.program)).length := by
    have hlen := congrArg List.length (slots_reread h hw k)
    rw [List.length_map, List.length_map, List.take_range, Nat.min_eq_left hk] at hlen
    rw [← hlen, ← List.map_filterMap, List.length_map]
  have hall := hlength e.program.size (Nat.le_refl _)
  rw [size_program hw, List.take_length, ← hn.slots, ← size_program hw] at hall
  have hfields : (e.program.instrs.filterMap slotIn?).map (fun s => s.field.toNat) =
      (List.range e.program.size).filterMap fun x => (slotAt e.program x).map fun s => s.field.toNat := by
    rw [filterMap_instrs, List.map_filterMap]
    rfl
  rw [hfields, ← hall]
  refine filterMap_eq_range_of_rank fun x hx v hv => ?_
  obtain ⟨slot, hslot, rfl⟩ := Option.map_eq_some_iff.mp hv
  have hi := order_of_lt hw hx
  rw [slotAt_reread h hw hi] at hslot
  obtain ⟨s, hs, rfl⟩ := Option.map_eq_some_iff.mp hslot
  obtain ⟨hat, hnat, -⟩ := hn.slot hc (nodup_order h.handed) hi hs
  rw [hlength x (Nat.le_of_lt hx)]
  simp only [hat, Option.getD_some]
  exact hnat

/-! ## Inputs -/

theorem inputs_instrs : e.program.instrs.filterMap inputIn? =
    (o.order.filterMap (inputAt o.program)).map (bySlot (o.order.filterMap (inputAt o.program))) := by
  rw [filterMap_instrs]
  exact inputs_reread h hw

omit h in
theorem toNat_inputDatasets : c.image.header.inputDatasets.toNat =
    ((o.order.filterMap (inputAt o.program)).foldl addInput #[]).size := by
  have hc := ofOrder_isOk_iff.mp ⟨_, hw.numbered⟩
  have hcount : c.image.header.inputDatasets = UInt16.ofNat (c.renumbering.inputOffsets.length / 2) := by
    rw [hw.image]
    rfl
  have hd := hc.datasets
  rw [hcount, (numbered_ofOrder hw.numbered).inputOffsets]
  generalize (o.order.filterMap (inputAt o.program)).foldl addInput #[] = inputs at hd ⊢
  have hhalf : (if inputs.isEmpty then [] else (bounds ((fieldLists inputs).map List.length)).map UInt16.ofNat).length / 2 =
      inputs.size := by
    split
    · rename_i hempty
      rw [Array.isEmpty_iff.mp hempty]
      rfl
    · rw [List.length_map, length_bounds, List.length_map, length_fieldLists]
      omega
  rw [hhalf]
  exact UInt16.toNat_ofNat_of_lt' (by unfold UInt16.size; omega)

theorem dataset_lt_inputDatasets {ref : InputRef} (hr : ref ∈ e.program.instrs.filterMap inputIn?) :
    ref.dataset.toNat < c.image.header.inputDatasets.toNat := by
  rw [inputs_instrs h hw] at hr
  obtain ⟨m, hm, rfl⟩ := List.mem_map.mp hr
  obtain ⟨slot, hslot⟩ := exists_inputSlot? (numbered_ofOrder hw.numbered) (ofOrder_isOk_iff.mp ⟨_, hw.numbered⟩) hm
  rw [toNat_inputDatasets hw]
  -- Unfolded, not by `rfl`: that would compare the two references field by field first.
  simp only [bySlot]
  by_contra hge
  unfold inputSlot? at hslot
  rw [(numbered_ofOrder hw.numbered).inputs, Array.getElem?_map, Array.getElem?_eq_none (Nat.le_of_not_lt hge)] at hslot
  cases hslot

theorem slotsOf_image {d : Nat} (hd : d < c.image.header.inputDatasets.toNat) :
    ∃ start split stop, c.image.SlotsOf (e.program.instrs.filterMap inputIn?) d start split stop := by
  have hn := numbered_ofOrder hw.numbered
  have hfields := (ofOrder_isOk_iff.mp ⟨_, hw.numbered⟩).fields
  have hoffsets : c.image.inputOffsets = c.renumbering.inputOffsets := by rw [hw.image]; rfl
  have hinputs : c.image.inputs = c.renumbering.inputFields := by rw [hw.image]; rfl
  rw [hn.inputOffsets] at hoffsets
  rw [hn.inputFields] at hinputs
  rw [toNat_inputDatasets hw] at hd
  rw [inputs_instrs h hw]
  obtain ⟨hadv, hstill⟩ := slots_first_use hfields d
  have htab := fieldTables (o.order.filterMap (inputAt o.program)) d
  generalize o.order.filterMap (inputAt o.program) = ms at *
  rw [← fieldsAt] at htab
  have hf : (ms.foldl addInput #[])[d]? = some (fieldsAt ms d) := by
    rw [fieldsAt, Array.getD_eq_getD_getElem?, Array.getElem?_eq_getElem hd]
    rfl
  generalize fieldsAt ms d = f at *
  generalize ms.foldl addInput #[] = inputs at *
  obtain ⟨front, back, hsplit, hfront⟩ := fieldLists_split hf
  rw [if_neg (fun he => by rw [Array.isEmpty_iff_size_eq_zero] at he; omega)] at hoffsets
  obtain ⟨⟨h1, h2, h3⟩, h4, h5, h6⟩ := cut_adjacent hsplit
  simp only [length_words] at h2 h3 h4 h5 h6
  have hword {k : Nat} (hk : k ≤ total (front.map List.length) + f.advancing.size + f.still.size) :
      (UInt16.ofNat k).toNat = k := UInt16.toNat_ofNat_of_lt' (by unfold UInt16.size; omega)
  refine ⟨.ofNat (total (front.map List.length)), .ofNat (total (front.map List.length) + f.advancing.size),
    .ofNat (total (front.map List.length) + f.advancing.size + f.still.size), ?_, ?_, ?_, ?_, ?_⟩
  · rw [hfront] at h1 h2 h3
    rw [hoffsets]
    simp only [List.getElem?_map, h1, h2, h3]
    exact ⟨rfl, rfl, rfl⟩
  · rw [UInt16.le_iff_toNat_le, UInt16.le_iff_toNat_le, hinputs, hword (by omega), hword (by omega), hword (by omega),
      length_flatten]
    exact ⟨by omega, by omega, h6⟩
  · rw [hadv, hword (by omega), hword (by omega), Nat.add_sub_cancel_left]
  · rw [hstill, hword (by omega), hword (by omega), hword (by omega), Nat.add_sub_cancel_left, Nat.add_sub_cancel_left]
  · rw [hinputs, hword (by omega), hword (by omega), hword (by omega), h4, h5]
    exact ⟨nodup_words htab.advancing htab.advancing_lt, nodup_words htab.still htab.still_lt⟩

end Emitted

/-- A compiled stream can be read, and what it mentions is numbered densely and in order of first use. -/
theorem compile_first_use {code : Bytes} {functions : UInt32} {settings : Settings} {c : Compiled}
    (h : compile code functions settings = .ok c) :
    ∃ d, Stream.decode c.image.code functions.toNat = .ok d ∧
      c.image.FirstUse (d.items.flatMap Stream.Item.instructions) := by
  obtain ⟨d, o, e, hd, hopt, hw⟩ := compile_ok h
  obtain ⟨hle, -, hcalls⟩ := Stream.decode_ok hd
  obtain ⟨doneAt, hdecode⟩ := decode_emitted hopt hw hle hcalls
  have hcode : c.image.code = e.code := by rw [hw.image]; rfl
  refine ⟨_, by rw [hcode]; exact hdecode, ?_⟩
  rw [← instrs_program]
  refine ⟨?_, ?_, ?_, ?_, ?_, fun ref => dataset_lt_inputDatasets hopt hw, fun d => slotsOf_image hopt hw,
    nodup_constants hw⟩
  · rw [toNat_registers hw]
    exact registers_first_use hw
  · intro i hi r hr
    rw [toNat_registers hw]
    exact read_lt_registers hopt hw hi hr
  · intro i hi r hr hge
    rw [toNat_registers hw] at hge ⊢
    rw [toNat_spareRegisters hopt hw]
    exact spare_of_dest hopt hw hi hr hge
  · rw [constants_first_use hw, hw.image]
    simp [imageOf]
  · rw [outputs_first_use hopt hw, hw.image]
    simp [imageOf]

/-- Two fields, one of which stays; a call with an unread result. -/
theorem compile_first_use_call : ∃ c d, compile callStream 2 {} = .ok c ∧ c.image.header.spareRegisters = 1 ∧
    Stream.decode c.image.code 2 = .ok d ∧ c.image.FirstUse (d.items.flatMap Stream.Item.instructions) := by
  obtain ⟨c, hc, hs⟩ := exists_of_any_ok (by decide +kernel :
    (compile callStream 2 {}).toOption.any (fun c => c.image.header.spareRegisters == 1) = true)
  obtain ⟨d, hd⟩ := compile_first_use hc
  exact ⟨c, d, hc, beq_iff_eq.mp hs, hd⟩

end Compile

end LaneScript
