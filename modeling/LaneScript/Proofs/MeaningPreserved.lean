/-
  LaneScript.Proofs.MeaningPreserved — a compiled script does what the script does.

  With its numbers read through the tables of the image, the emitted stream follows the
  stream that was compiled (`follows_emitted`): constants, input fields and output slots
  lead back to the numbers they stood for, and every source reads the result of the same
  instruction, through a register or the accumulator. So for every host both streams
  record the same events, from any registers (`compile_events`).
-/
import LaneScript.Proofs.Compile
import LaneScript.Proofs.Meaning

namespace LaneScript

universe u

namespace Compile

open Program

theorem Names.payload_own (i : Instruction) : ({} : Names).payload i = i.payload := by
  unfold Names.payload
  split <;> simp_all

/-! ## The tables of the image -/

section Tables

variable {settings : Settings} {d : Stream.Decoded} {o : Optimized} {c : Compiled} {e : Emission}
  (hw : Written settings o c e) (other : UInt16)
include hw

theorem names_constant {old new : UInt16} (h : c.renumbering.constants.get? old.toNat = some new) :
    (c.image.names other).constant new = old := by
  have hk := ((valid_constants hw).number _ _).mp h
  simp only [Image.names, hw.image, imageOf, List.getD_eq_getElem?_getD, Renumbering.words, List.getElem?_map, hk]
  simp

theorem names_input {dataset field slot : UInt16} {advance : Bool}
    (h : c.renumbering.inputSlot? dataset field advance = some slot) :
    (c.image.names other).input dataset slot = field := by
  obtain ⟨start, hs, hf⟩ := Renumbering.inputSlot?_field (Renumbering.numbered_ofOrder hw.numbered)
    (Renumbering.ofOrder_isOk_iff.mp ⟨_, hw.numbered⟩) h
  simp [Image.names, hw.image, imageOf, hs, hf]

theorem names_output (ho : o.order.Nodup) {x i : Nat} {n : Node} (hx : o.order[x]? = some i)
    (hn : o.program[i]? = some n) {element : Element} {dataset field slot : UInt16} (hop : n.instr.opcode = .output element)
    (hp : n.instr.payload = .field dataset field) (h : c.renumbering.slotOf.getD i none = some slot) :
    (c.image.names other).output slot = field := by
  have hs : Renumbering.slotAt o.program i = some ⟨dataset, element.byte, field⟩ := by
    simp [Renumbering.slotAt, hn, Renumbering.slotIn?, hop, Instruction.address, Instruction.datasetField?, hp]
  obtain ⟨h1, h2, h3⟩ := (Renumbering.numbered_ofOrder hw.numbered).slot
    (Renumbering.ofOrder_isOk_iff.mp ⟨_, hw.numbered⟩) ho hx hs
  rw [h] at h1
  cases h1
  simp [Image.names, hw.image, imageOf, h2, h3]

end Tables

/-! ## The emitted stream follows the compiled one -/

section Follow

variable {settings : Settings} {d : Stream.Decoded} {o : Optimized} {c : Compiled} {e : Emission}
  (h : Optimum settings d o) (hw : Written settings o c e) (other : UInt16)
include h hw

theorem payload_emitted {x i : Nat} {n : Node} {b : Instruction} (hx : o.order[x]? = some i)
    (hn : o.program[i]? = some n) (hb : Emission.Renumbered c.renumbering o.live i n.instr b) :
    (c.image.names other).payload b = n.instr.payload := by
  have hp := hb.payload
  have ho := hb.opcode
  obtain ⟨op, pay, ss, ds⟩ := b
  simp only at hp ho
  subst ho
  cases hp with
  | input hop hpay hs =>
    simp only [Names.payload, hop]
    rw [names_input hw other hs, hpay]
  | output hop hpay hs =>
    simp only [Names.payload, hop]
    rw [names_output hw other (nodup_order h.handed) hx hn hop hpay hs, hpay]
  | other hno =>
    unfold Names.payload
    split
    · rename_i hop hpay
      simp only at hop hpay
      simp [Instruction.category, hop, Opcode.category, Instruction.datasetField?, hpay] at hno
    · rename_i hop hpay
      simp only at hop hpay
      simp [Instruction.category, hop, Opcode.category, Instruction.datasetField?, hpay] at hno
    · rfl

/-- A value that is handed on comes from the instruction right before. -/
theorem acc_follows {x i k : Nat} (hx : o.order[x]? = some i) (hacc : (o.program.sourcesOf i)[k]? = some .acc)
    {s : Source} (hs : (d.program.sourcesOf i)[k]? = some s) :
    SourceFollows d.instructions (e.items.flatMap Stream.Item.instructions) o.order (c.image.names other) i x s .acc := by
  have hh := h.handed
  have hinstrs : d.instructions = d.program.instrs := (map_instr_ofItems d.items).symm
  obtain ⟨s', place, w, hs', hplace, hlast, hprev⟩ := hh.taken i k hacc
  rw [hs] at hs'
  cases hs'
  obtain ⟨v, rfl, hv⟩ := order_prev hh hx hprev
  obtain ⟨y, b, hy, hb, hren⟩ := exists_emitted h hw hv
  obtain ⟨m, hm⟩ := exists_node (p := d.program) (by rw [← hh.size]; exact lt_size_of_getElem? hy)
  -- The node before has the accumulator as its only destination.
  have hyd : y.instr.dests = [.acc] := (hh.step_of_next? hy ((hh.linked.agree w i).mpr hprev)).2
  have hbd : b.dests = [.acc] := by
    have hd := hren.dests
    rw [hyd] at hd
    exact hd.acc_singleton
  have hmd : m.instr.dests = [place] := by
    obtain ⟨-, hst, -⟩ := lastStore_eq_some_iff.mp hlast
    obtain ⟨z, hz, hmem⟩ := storesAt_iff.mp hst
    rw [getElem?_instrs, hm] at hz
    cases hz
    rcases hh.dests w m y hm hy with e | ⟨-, r, e⟩
    · rw [← e, hyd] at hmem ⊢
      rw [List.mem_singleton.mp hmem]
    · rw [e] at hmem ⊢
      rw [List.mem_singleton.mp hmem]
  have hpa : lastPos place m.instr.dests = some 0 := by rw [hmd, lastPos_singleton]
  have hpb : lastPos .acc b.dests = some 0 := by rw [hbd, lastPos_singleton]
  exact .place hplace rfl (by rw [hinstrs]; exact hlast) (lastStore_succ hb (by simp [hbd])) hv
    (by rw [hinstrs, getElem?_instrs, hm]; rfl) hb hpa hpb

/-- A register is read from what was emitted for the same node. -/
theorem reg_follows {x i : Nat} (hx : o.order[x]? = some i) {old new : UInt16} (hold : .reg old ∈ o.program.sourcesOf i)
    (hnum : c.renumbering.registers.get? old.toNat = some new) :
    SourceFollows d.instructions (e.items.flatMap Stream.Item.instructions) o.order (c.image.names other) i x
      (.reg old) (.reg new) := by
  have hh := h.handed
  have hinstrs : d.instructions = d.program.instrs := (map_instr_ofItems d.items).symm
  obtain ⟨-, hlive⟩ := (mem_order_iff hh).mp (List.mem_of_getElem? hx)
  obtain ⟨w, hlast⟩ := h.sound.flow.written i old (hh.mem_sourcesOf_of_reg hold)
  obtain ⟨v, hv, hlast'⟩ := lastStore_emitted h hw hx hold hnum hlast
  obtain ⟨m, y, hm, hy, hd, hmem, hread⟩ := hh.dests_producer hlive hold hlast h.sound
  obtain ⟨y', b, hy', hb, hren⟩ := exists_emitted h hw hv
  rw [hy] at hy'
  cases hy'
  -- Both instructions name the register at the same positions.
  have hpos : lastPos (.reg old) y.instr.dests = lastPos (.reg new) b.dests := by
    refine lastPos_congr hren.dests.length_eq.symm fun k _ => ⟨fun hk => ?_, fun hk => ?_⟩
    · obtain ⟨new', hget, hk'⟩ := hren.dests.kept_getElem? hk (by rw [Nat.zero_add]; exact hread k hk)
      rw [hnum] at hget
      cases hget
      exact hk'
    · obtain ⟨old', hk', -, hget⟩ := hren.dests.of_lt_size hk ((valid_registers hw).lt_size hnum)
      rw [UInt16.toNat_inj.mp ((valid_registers hw).get?_inj hnum hget)]
      exact hk'
  cases hlp : lastPos (.reg old) y.instr.dests with
  | none => exact absurd hmem (lastPos_eq_none_iff.mp hlp)
  | some pos =>
    have hpa : lastPos (.reg old) m.instr.dests = some pos := by rw [← hd, hlp]
    exact .place rfl rfl (by rw [hinstrs]; exact hlast) hlast' hv (by rw [hinstrs, getElem?_instrs, hm]; rfl) hb hpa
      (hpos ▸ hlp)

theorem follows_emitted :
    Follows d.instructions (e.items.flatMap Stream.Item.instructions) o.order (c.image.names other) := by
  have hh := h.handed
  have hinstrs : d.instructions = d.program.instrs := (map_instr_ofItems d.items).symm
  refine ⟨(forall₂_emits hw).length_eq.symm, fun x i b hb hx => ?_, ?_, nodup_order hh⟩
  · obtain ⟨m, n, hm, hn, hren, -⟩ := emitted_at h hw hb hx
    obtain ⟨hop, hpay, hlen⟩ := hh.same i m n hm hn
    refine ⟨m.instr, by rw [hinstrs, getElem?_instrs, hm]; rfl, by rw [hren.opcode, hop], ?_, ?_⟩
    · rw [payload_emitted h hw other hx hn hren, Names.payload_own, hpay]
    · -- Source by source, from the program through its folded form to the emitted instruction.
      refine List.forall₂_iff_get.mpr ⟨by rw [← hlen, hren.sources.length_eq], fun k hk hk' => ?_⟩
      have hkn : k < n.instr.sources.length := by rw [hlen]; exact hk
      have ht := hren.sources.get hkn hk'
      have hq : (d.program.sourcesOf i)[k]? = some (m.instr.sources.get ⟨k, hk⟩) := by
        rw [sourcesOf_eq hm]
        exact List.getElem?_eq_getElem hk
      have hp : (o.program.sourcesOf i)[k]? = some (n.instr.sources.get ⟨k, hkn⟩) := by
        rw [sourcesOf_eq hn]
        exact List.getElem?_eq_getElem hkn
      generalize b.sources.get ⟨k, hk'⟩ = t at ht ⊢
      generalize n.instr.sources.get ⟨k, hkn⟩ = u at ht hp
      generalize m.instr.sources.get ⟨k, hk⟩ = s at hq ⊢
      cases ht with
      | reg hnum =>
        have hs := hh.kept i k _ hp nofun
        rw [hq] at hs
        cases hs
        exact reg_follows h hw other hx (List.mem_of_getElem? hp) hnum
      | const hnum =>
        have hs := hh.kept i k _ hp nofun
        rw [hq] at hs
        cases hs
        exact .const (names_constant hw other hnum)
      | acc => exact acc_follows h hw other hx hp hq
  · -- Events are noticed, and noticed nodes keep their order.
    have hev : (fun i => d.program.instrs[i]?.any Instruction.isEvent) =
        fun i => d.program.instrs[i]?.any Instruction.isEvent && d.program.noticed i := by
      funext i
      rw [getElem?_instrs, noticed]
      cases d.program[i]? with
      | none => rfl
      | some m =>
        simp only [Option.map_some, Option.any_some, Instruction.isEvent, Instruction.isPure, Instruction.category]
        cases m.instr.opcode <;> rfl
    rw [hinstrs, length_instrs, hev, ← List.filter_filter, ← List.filter_filter, Optimized.order,
      filter_order hh h.sound]

end Follow

/-- A compiled stream is read back and records, for every host, the events of the stream it was compiled from. -/
theorem compile_events {code : Bytes} {functions : UInt32} {settings : Settings} {c : Compiled}
    (h : compile code functions settings = .ok c) :
    ∃ d d', Stream.decode code functions.toNat = .ok d ∧ Stream.decode c.image.code functions.toNat = .ok d' ∧
      ∀ (V : Type u) (host : Host V) (other : UInt16) (registers registers' : UInt16 → V) (acc acc' : V),
        host.events (c.image.names other) d'.instructions registers' acc' =
          host.events {} d.instructions registers acc := by
  obtain ⟨d, o, e, hd, hopt, hw⟩ := compile_ok h
  obtain ⟨hn, -, hc⟩ := Stream.decode_ok hd
  obtain ⟨doneAt, hd'⟩ := decode_emitted hopt hw hn hc
  refine ⟨d, ⟨e.items, d.calls, doneAt⟩, hd, ?_, fun V host other registers registers' acc acc' => ?_⟩
  · rw [hw.image]
    exact hd'
  · exact (follows_emitted hopt hw other).events_eq host registers registers' acc acc'

theorem compile_events_product :
    ∃ c d d', compile productStream 0 {} = .ok c ∧ c.stats.removed = 1 ∧ c.stats.folded = 1 ∧
      Stream.decode productStream 0 = .ok d ∧ Stream.decode c.image.code 0 = .ok d' ∧
      ∀ (V : Type) (host : Host V) (other : UInt16) (registers registers' : UInt16 → V) (acc acc' : V),
        host.events (c.image.names other) d'.instructions registers' acc' =
          host.events {} d.instructions registers acc := by
  obtain ⟨c, hc, hs⟩ := exists_of_any_ok (by decide +kernel :
    (compile productStream 0 {}).toOption.any (fun c => c.stats.removed == 1 && c.stats.folded == 1) = true)
  obtain ⟨hr, hf⟩ := Bool.and_eq_true_iff.mp hs
  obtain ⟨d, d', hd, hd', hev⟩ := compile_events hc
  exact ⟨c, d, d', hc, beq_iff_eq.mp hr, beq_iff_eq.mp hf, hd, hd', hev⟩

end Compile

end LaneScript
