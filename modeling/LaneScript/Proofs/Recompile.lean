/-
  LaneScript.Proofs.Recompile — compiling a compiled stream changes nothing.

  Once the program read back is known to be irreducible and its numbers to be dense,
  every emitted instruction is renumbered to itself (`renumbered_reread`), so the chains
  become the items they were read from (`ofChains_reread`) and the stream is the same.
-/
import LaneScript.Proofs.Dense
import LaneScript.Proofs.Pressure

namespace LaneScript

namespace Emission

/-- Destinations that were renumbered are renumbered to themselves by a table that fixes all numbers. -/
theorem DestsTo.again {r s : Renumbering} {l k : Liveness} {node x pos spare : Nat} {ds es : List Dest}
    (hsize : s.registers.size = r.registers.size) (hu : ∀ pos, k.isUnread x pos = l.isUnread node pos)
    (hget : ∀ old new : UInt16, r.registers.get? old.toNat = some new → s.registers.get? new.toNat = some new)
    (h : DestsTo r l node pos spare ds es) : DestsTo s k x pos spare es es := by
  induction h with
  | nil => exact .nil
  | acc _ ih => exact .acc ih
  | unread hun hle _ ih =>
    rw [← hsize] at hle ⊢
    exact .unread ((hu _).trans hun) hle ih
  | kept hun hnum _ ih => exact .kept ((hu _).trans hun) (hget _ _ hnum) ih

theorem sources_again {r s : Renumbering} {as bs : List Source}
    (hreg : ∀ old new : UInt16, r.registers.get? old.toNat = some new → s.registers.get? new.toNat = some new)
    (hconst : ∀ old new : UInt16, r.constants.get? old.toNat = some new → s.constants.get? new.toNat = some new)
    (h : List.Forall₂ (SourceTo r) as bs) : List.Forall₂ (SourceTo s) bs bs := by
  induction h with
  | nil => exact .nil
  | cons hab _ ih =>
    refine .cons ?_ ih
    cases hab with
    | reg hnum => exact .reg (hreg _ _ hnum)
    | const hnum => exact .const (hconst _ _ hnum)
    | acc => exact .acc

theorem Renumbered.unique {r : Renumbering} {l : Liveness} {node : Nat} {i j k : Instruction}
    (hj : Renumbered r l node i j) (hk : Renumbered r l node i k) : j = k := by
  have ej := instruction_ok_iff.mpr hj
  rw [instruction_ok_iff.mpr hk] at ej
  exact (Except.ok.inj ej).symm

end Emission

theorem forall₂_imp_of_mem {α β : Type} {R S : α → β → Prop} {as : List α} {bs : List β} (h : List.Forall₂ R as bs)
    (hs : ∀ a ∈ as, ∀ b, R a b → S a b) : List.Forall₂ S as bs := by
  induction h with
  | nil => exact .nil
  | cons hab _ ih =>
    exact .cons (hs _ List.mem_cons_self _ hab) (ih fun a ha => hs a (List.mem_cons_of_mem _ ha))

namespace Compile

open Program Emission

section Emitted

variable {settings : Settings} {d : Stream.Decoded} {o : Optimized} {c : Compiled} {e : Emission}
  (h : Optimum settings d o) (hw : Written settings o c e) (hp : c.image.Packable)
  {l : Liveness} (hr : Reread o e l) {r : Renumbering}
  (hn : Renumbering.Numbered e.program l (List.range e.program.size) r)

include h hw hr hn

theorem registers_again {old new : UInt16} (hnum : c.renumbering.registers.get? old.toNat = some new) :
    r.registers.get? new.toNat = some new := by
  have hv : r.registers.Valid := by
    rw [hn.registers]
    exact Numbering.valid_addAll Numbering.valid_empty _
  exact hv.get?_of_range (keys_registers_reread h hw hn hr) ((valid_registers hw).lt_size hnum)

theorem size_registers_again : r.registers.size = c.renumbering.registers.size := by
  rw [Numbering.size, ← Array.length_toList, keys_registers_reread h hw hn hr, List.length_range]

include hp

omit hr in
theorem constants_again {old new : UInt16} (hnum : c.renumbering.constants.get? old.toNat = some new) :
    r.constants.get? new.toNat = some new := by
  have hv : r.constants.Valid := by
    rw [hn.constants]
    exact Numbering.valid_addAll Numbering.valid_empty _
  refine hv.get?_of_range ?_ ((valid_constants hw).lt_size hnum)
  rw [hn.constants]
  exact keys_constants_reread h hw hp

omit hr in
theorem payload_again {x i : Nat} {n b : Node} (hx : o.order[x]? = some i) (hb : e.program[x]? = some b)
    (hren : Renumbered c.renumbering o.live i n.instr b.instr) : PayloadTo r x b.instr b.instr.payload := by
  have hpay := hren.payload
  have hopc := hren.opcode
  generalize hq : b.instr.payload = q at hpay ⊢
  cases hpay with
  | @input el adv dataset field slot hop _ _ =>
    rw [hop] at hopc
    have hat : Renumbering.inputAt e.program x = some ⟨dataset, slot, adv⟩ := by
      simp [Renumbering.inputAt, hb, Renumbering.inputIn?, hopc, Instruction.address, Instruction.datasetField?, hq]
    have hmem := List.mem_filterMap.mpr ⟨x, List.mem_range.mpr (lt_size_of_getElem? hb), hat⟩
    exact .input hopc hq (inputSlot?_reread h hw hn hmem)
  | @output el dataset field slot hop _ _ =>
    rw [hop] at hopc
    have hat : Renumbering.slotAt e.program x = some ⟨dataset, el.byte, slot⟩ := by
      simp [Renumbering.slotAt, hb, Renumbering.slotIn?, hopc, Instruction.address, Instruction.datasetField?, hq]
    exact .output hopc hq (slotOf_reread h hw hn hp hx hat)
  | other hno =>
    rw [← hq]
    refine .other ?_
    rw [hren.category, Instruction.datasetField?, hq]
    exact hno

/-- An emitted instruction is renumbered to itself. -/
theorem renumbered_reread {x i : Nat} {n b : Node} (hx : o.order[x]? = some i) (hb : e.program[x]? = some b)
    (hren : Renumbered c.renumbering o.live i n.instr b.instr) : Renumbered r l x b.instr b.instr where
  opcode := rfl
  sources := sources_again (fun _ _ => registers_again h hw hr hn) (fun _ _ => constants_again h hw hp hn) hren.sources
  dests := hren.dests.again (size_registers_again h hw hr hn) (hr.isUnread hx) fun _ _ => registers_again h hw hr hn
  payload := payload_again h hw hp hn hx hb hren

theorem item_reread {chain : List Nat} (hc : chain ∈ e.program.chains l) {it : Stream.Item}
    (hit : item c.renumbering o.live o.program (chain.map o.nodeAt) = .ok it) : item r l e.program chain = .ok it := by
  have hlink := (grouped_program h hw).linked
  obtain ⟨root, hroot, rfl⟩ := List.mem_map.mp hc
  obtain ⟨hlen, is, his, rfl⟩ := item_ok_iff.mp hit
  rw [List.length_map] at hlen
  refine item_ok_iff.mpr ⟨hlen, is, forall₂_imp_of_mem (List.forall₂_map_left_iff.mp his) fun x hx j hj => ?_, rfl⟩
  have hx := order_of_lt hw
    (Nat.lt_of_le_of_lt (le_of_mem_chain hlink hx) ((mem_liveRoots hlink).mp hroot).1)
  obtain ⟨n, hn', hren⟩ := hj
  obtain ⟨m, b, hm, hb, hren'⟩ := exists_reread h hw hx
  rw [hn'] at hm
  cases hm
  rw [hren.unique hren']
  exact ⟨b, hb, renumbered_reread h hw hp hr hn hx hb hren'⟩

/-- The chains of the program read back become the items they were read from. -/
theorem ofChains_reread : ∃ again, ofChains e.program l r (e.program.chains l) = .ok again ∧ again.code = e.code ∧
    ∀ chain ∈ e.program.chains l, chain.length ≤ 255 := by
  obtain ⟨hsize, hitems, hcode, he⟩ := ofChains_ok_iff.mp hw.emitted
  rw [← chains_reread h hw hr.live] at hitems
  have hagain := forall₂_imp_of_mem (List.forall₂_map_left_iff.mp hitems) fun chain hc it hit =>
    item_reread h hw hp hr hn hc hit
  refine ⟨⟨codeOf e.items, e.items, placements e.program.size (e.program.chains l) e.items⟩,
    ofChains_ok_iff.mpr ⟨?_, hagain, hcode, rfl⟩, by rw [he], fun chain hc => ?_⟩
  · rw [size_registers_again h hw hr hn]
    exact hsize
  · obtain ⟨k, hk⟩ := List.getElem?_of_mem hc
    obtain ⟨hlt, rfl⟩ := List.getElem?_eq_some_iff.mp hk
    exact (item_ok_iff.mp (hagain.get hlt (by rw [← hagain.length_eq]; exact hlt))).1

end Emitted

/-! ## Compiling again -/

/-- A compile whose stages succeed. -/
theorem compile_of_stages {code : Bytes} {functions : UInt32} {settings : Settings} {d : Stream.Decoded} {f : Flow}
    {o : Optimized} {r : Renumbering} {e : Emission} (hd : Stream.decode code functions.toNat = .ok d)
    (hf : Flow.ofProgram d.program = .ok f) (ho : optimize settings d f = o)
    (hlinks : o.program.checkLinks o.live = .ok ())
    (hlimit : o.program.inFlight o.live o.order ≤ settings.registerLimit.toNat)
    (hr : Renumbering.ofOrder o.program o.live o.order = .ok r)
    (he : ofChains o.program o.live r (o.program.chains o.live) = .ok e) :
    ∃ c, compile code functions settings = .ok c ∧ c.image = imageOf o o.order r e ∧ c.renumbering = r ∧
      c.flags = (if o.removed.isEmpty then .clear else .redundantInstruction) ∧
      c.stats.removed = o.removed.length ∧ c.stats.folded = o.folds.length ∧
      c.stats.inFlight = o.program.inFlight o.live o.order := by
  have hread : read code functions settings = .ok o := by
    simp only [read, hd, hf, ho]
  have hnot : ¬ settings.registerLimit.toNat < o.program.inFlight o.live (o.program.chains o.live).flatten :=
    Nat.not_lt.mpr hlimit
  have hr' : Renumbering.ofOrder o.program o.live (o.program.chains o.live).flatten = .ok r := hr
  simp only [compile, hread, write, hlinks, hnot, if_false, hr', he]
  exact ⟨_, rfl, rfl, rfl, rfl, rfl, rfl, rfl⟩

/-- Compiling a compiled stream for the same host gives the same stream, and leaves every table as it is. -/
theorem compile_fixed {code : Bytes} {functions : UInt32} {settings : Settings} {first : Compiled}
    (h : compile code functions settings = .ok first) (hp : first.image.isPackable = true) :
    ∃ second, compile first.image.code functions settings = .ok second ∧
      second.image.code = first.image.code ∧ second.stats.folded = 0 ∧ second.stats.removed = 0 ∧
      second.flags = .clear ∧ second.renumbering.registers.isIdentity = true ∧
      second.renumbering.constants.isIdentity = true ∧ second.stats.inFlight = first.stats.inFlight ∧
      second.image.outputDatasets = first.image.outputDatasets ∧ second.image.outputTypes = first.image.outputTypes ∧
      second.image.inputOffsets = first.image.inputOffsets ∧ second.image.functions = first.image.functions := by
  have hp := Image.isPackable_iff.mp hp
  obtain ⟨d, o, e, hd, hopt, hw⟩ := compile_ok h
  obtain ⟨hle, -, hcalls⟩ := Stream.decode_ok hd
  obtain ⟨doneAt, hdecode⟩ := decode_emitted hopt hw hle hcalls
  obtain ⟨f, hf⟩ := exists_flow hopt hw
  obtain ⟨l, hl, hr⟩ := optimize_reread hopt hw hf d.calls doneAt
  have hopt' : Optimum settings ⟨e.items, d.calls, doneAt⟩ ⟨e.program, l, d.calls, [], []⟩ := by
    rw [← hl]
    exact optimum_optimize (wellFormed_items hopt hw) hf
  have horder := order_reread hopt hw hr.live
  obtain ⟨r, hnum⟩ := (Renumbering.ofOrder_isOk_iff (l := l)).mpr (countable_reread hopt hw hp)
  have hn := Renumbering.numbered_ofOrder hnum
  obtain ⟨again, hagain, hcode, hlen⟩ := ofChains_reread hopt hw hp hr hn
  have hflight := inFlight_reread hopt hw hr
  rw [← horder] at hnum hflight
  have hlimit := hw.limit
  rw [← hflight] at hlimit
  obtain ⟨second, hsecond, himage, hren, hflags, hremoved, hfolded, hin⟩ :=
    compile_of_stages hdecode hf hl (hopt'.handed.checkLinks hopt'.sound.flow hlen) hlimit hnum hagain
  have hslots := slots_eq_reread hopt hw hn
  refine ⟨second, ?_, ?_, hfolded, hremoved, hflags, ?_, ?_, ?_, ?_, ?_, ?_, ?_⟩
  · rw [hw.image]
    exact hsecond
  · rw [himage, hw.image]
    exact hcode
  · rw [hren]
    exact Numbering.isIdentity_of_range (keys_registers_reread hopt hw hn hr)
  · rw [hren, hn.constants]
    exact Numbering.isIdentity_of_range (keys_constants_reread hopt hw hp)
  · rw [hin, hw.inFlight]
    exact hflight
  · rw [himage, hw.image]
    have := congrArg (List.map Prod.fst) hslots
    rw [List.map_map, List.map_map] at this
    exact this
  · rw [himage, hw.image]
    have := congrArg (List.map Prod.snd) hslots
    rw [List.map_map, List.map_map] at this
    exact this
  · rw [himage, hw.image]
    exact inputOffsets_reread hopt hw hn
  · rw [himage, hw.image]
    simp only [imageOf, hopt.calls]

theorem compile_fixed_product :
    ∃ first second, compile productStream 0 {} = .ok first ∧ first.image.isPackable = true ∧ first.stats.folded = 1 ∧
      compile first.image.code 0 {} = .ok second ∧ second.image.code = first.image.code ∧ second.stats.folded = 0 ∧
      second.stats.removed = 0 ∧ second.flags = .clear ∧ second.renumbering.registers.isIdentity = true ∧
      second.renumbering.constants.isIdentity = true ∧ second.stats.inFlight = first.stats.inFlight ∧
      second.image.outputDatasets = first.image.outputDatasets ∧ second.image.outputTypes = first.image.outputTypes ∧
      second.image.inputOffsets = first.image.inputOffsets ∧ second.image.functions = first.image.functions := by
  obtain ⟨first, hfirst, hs⟩ := exists_of_any_ok (by decide +kernel :
    (compile productStream 0 {}).toOption.any (fun c => c.image.isPackable && c.stats.folded == 1) = true)
  obtain ⟨hp, hf⟩ := Bool.and_eq_true_iff.mp hs
  obtain ⟨second, hsecond⟩ := compile_fixed hfirst hp
  exact ⟨first, second, hfirst, hp, beq_iff_eq.mp hf, hsecond⟩

end Compile

end LaneScript
