/-
  LaneScript.Proofs.Compile — what is known of a compile that succeeds.

  `Optimum settings d o` collects what dropping and folding guarantee of an optimised
  program `o` that was read from `d`; `Written o c e` is what the stages behind it found.
  The emitted stream is read back item by item (`decode_emitted`), with the same table
  of call shapes, since calls are noticed and noticed nodes keep their order.
-/
import LaneScript.Compile
import LaneScript.Proofs.Emission

namespace LaneScript.Compile

open Program

/-- A field is read, its double dropped, and its product with a constant folded into the output that reads it. -/
def productStream : Bytes :=
  [0x70, 0, 1, 0, 3, 0, 9, 0x30, 0, 0, 9, 0, 9, 0, 8, 0x02, 0, 8, 0x32, 4, 0, 9, 0, 4, 0, 9,
   0x80, 0, 0, 0, 0, 8, 0, 9, 0, 5]

theorem exists_ok_of_any {ε α : Type} {p : α → Bool} {x : Except ε α} (h : x.toOption.any p = true) :
    ∃ a, x = .ok a ∧ p a = true := by
  cases x with
  | error e => cases h
  | ok a => exact ⟨a, rfl, h⟩

theorem eq_error_of_map {ε α β : Type} {g : α → β} {x : Except ε α} {e : ε} (h : x.map g = .error e) :
    x = .error e := by
  cases x with
  | error a => exact congrArg Except.error (Except.error.inj h)
  | ok a => cases h

theorem exists_of_any_ok {p : Compiled → Bool} {x : Except Error Compiled} (h : x.toOption.any p = true) :
    ∃ c, x = .ok c ∧ p c = true := exists_ok_of_any h

structure Optimum (settings : Settings) (d : Stream.Decoded) (o : Optimized) : Prop where
  items : ∀ item ∈ d.items, item.WellFormed
  sound : o.live.Sound d.program
  handed : d.program.Handed o.live o.program
  /-- With dropping, exactly what does not matter is dropped. -/
  pruned : settings.prune = true → o.live.Exact d.program
  unpruned : settings.prune = false → o.live = Liveness.ofFlow o.live.flow d.program
  /-- With folding, all that can be folded is. -/
  settled : settings.fold = true → o.program.Settled o.live settings.groupLimit.toNat
  unfolded : settings.fold = false → o.program = d.program
  calls : o.calls = d.calls

theorem Optimum.grouped {settings : Settings} {d : Stream.Decoded} {o : Optimized} (h : Optimum settings d o) :
    d.program.Grouped :=
  grouped_ofItems h.items

theorem Optimum.formed {settings : Settings} {d : Stream.Decoded} {o : Optimized} (h : Optimum settings d o) :
    d.program.Formed :=
  formed_ofItems h.items

theorem optimum_optimize {settings : Settings} {d : Stream.Decoded} {flow : Flow}
    (hw : ∀ item ∈ d.items, item.WellFormed) (hf : Flow.ofProgram d.program = .ok flow) :
    Optimum settings d (optimize settings d flow) := by
  have hg : d.program.Grouped := grouped_ofItems hw
  have hformed : d.program.Formed := formed_ofItems hw
  have hflow := Flow.exact_ofProgram hf
  -- Dropping, if it is asked for.
  obtain ⟨l, removed, hl, hs, hp, hn⟩ : ∃ l removed,
      drop settings d.program (Liveness.ofFlow flow d.program) = (l, removed) ∧ l.Sound d.program ∧
        (settings.prune = true → l.Exact d.program) ∧
          (settings.prune = false → l = Liveness.ofFlow l.flow d.program) := by
    unfold drop
    cases settings.prune with
    | true =>
      have he := Liveness.exact_prune hflow hg.linked
      exact ⟨_, _, rfl, he.sound hg hformed, fun _ => he, nofun⟩
    | false => exact ⟨_, _, rfl, Liveness.sound_ofFlow hflow, nofun, fun _ => rfl⟩
  have hh := handed_self hg hformed hs
  unfold optimize
  simp only [hl]
  cases hfold : settings.fold with
  | true =>
    obtain ⟨h1, h2⟩ := handed_fold hs hh settings.groupLimit.toNat {}
    exact ⟨hw, hs, h1, hp, hn, fun _ => h2, by simp [hfold], rfl⟩
  | false => exact ⟨hw, hs, hh, hp, hn, by simp [hfold], fun _ => rfl, rfl⟩

theorem read_ok {code : Bytes} {functions : UInt32} {settings : Settings} {o : Optimized}
    (h : read code functions settings = .ok o) :
    ∃ d, Stream.decode code functions.toNat = .ok d ∧ Optimum settings d o := by
  unfold read at h
  split at h
  · cases h
  · rename_i d hd
    split at h
    · cases h
    · rename_i flow hf
      cases h
      exact ⟨d, hd, optimum_optimize (Stream.decode_ok hd).2.1 hf⟩

structure Written (settings : Settings) (o : Optimized) (c : Compiled) (e : Emission) : Prop where
  links : o.program.checkLinks o.live = .ok ()
  limit : o.program.inFlight o.live o.order ≤ settings.registerLimit.toNat
  numbered : Renumbering.ofOrder o.program o.live o.order = .ok c.renumbering
  emitted : Emission.ofChains o.program o.live c.renumbering (o.program.chains o.live) = .ok e
  program : c.program = o.program
  placed : c.placed = e.placed
  image : c.image = imageOf o o.order c.renumbering e
  flags : c.flags = if o.removed.isEmpty then .clear else .redundantInstruction
  inFlight : c.stats.inFlight = o.program.inFlight o.live o.order

theorem write_ok {bytesIn : Nat} {settings : Settings} {o : Optimized} {c : Compiled}
    (h : write bytesIn settings o = .ok c) : ∃ e, Written settings o c e := by
  unfold write at h
  split at h
  · cases h
  · rename_i hlinks
    simp only at h
    split at h
    · cases h
    · rename_i hlimit
      split at h
      · cases h
      · rename_i r hr
        split at h
        · cases h
        · rename_i e he
          cases h
          exact ⟨e, hlinks, Nat.le_of_not_lt hlimit, hr, he, rfl, rfl, rfl, rfl, rfl⟩

theorem compile_eq_ok_iff {code : Bytes} {functions : UInt32} {settings : Settings} {c : Compiled} :
    compile code functions settings = .ok c ↔
      ∃ o, read code functions settings = .ok o ∧ write code.length settings o = .ok c := by
  unfold compile
  cases read code functions settings with
  | error e => simp
  | ok o => simp

theorem compile_ok {code : Bytes} {functions : UInt32} {settings : Settings} {c : Compiled}
    (h : compile code functions settings = .ok c) :
    ∃ d o e, Stream.decode code functions.toNat = .ok d ∧ Optimum settings d o ∧ Written settings o c e := by
  obtain ⟨o, ho, hc⟩ := compile_eq_ok_iff.mp h
  obtain ⟨d, hd, hopt⟩ := read_ok ho
  obtain ⟨e, he⟩ := write_ok hc
  exact ⟨d, o, e, hd, hopt, he⟩

/-! ## Reading the emitted stream -/

/-- The calls of a program are noticed. -/
theorem call?_of_not_noticed {q : Program} (hf : q.Formed) {i : Nat} (hi : q.noticed i = false) :
    q[i]?.bind (fun m => m.instr.call?) = none := by
  cases hm : q[i]? with
  | none => rfl
  | some m =>
    have hs := (hf.fits i m hm).shaped
    simp only [noticed, hm, Option.any_some, Bool.not_eq_false'] at hi
    obtain ⟨⟨o, pay, ss, ds⟩, offset, feeds, fedBy⟩ := m
    cases o <;> simp [Instruction.isPure, Instruction.category, Opcode.category] at hi <;>
      simp only [Instruction.WellShaped] at hs
    case input e a =>
      obtain ⟨⟨d, f, rfl⟩, -⟩ := hs
      rfl
    all_goals
      obtain ⟨rfl, -⟩ := hs
      rfl

/-- What is emitted for a call is a call of the same shape. -/
theorem call?_eq {q p : Program} {l : Liveness} {r : Renumbering} (hh : q.Handed l p) {i : Nat} {m n : Node}
    (hm : q[i]? = some m) (hn : p[i]? = some n) {b : Instruction} (hb : Emission.Renumbered r l i n.instr b) :
    b.call? = m.instr.call? := by
  obtain ⟨-, hpay, hsrc⟩ := hh.same i m n hm hn
  have hdst : n.instr.dests.length = m.instr.dests.length := by
    rcases hh.dests i m n hm hn with e | ⟨e, x, e'⟩
    · rw [e]
    · rw [e, e']
      rfl
  have hbs := hb.sources.length_eq
  have hbd := hb.dests.length_eq
  have hbp := hb.payload
  unfold Instruction.call?
  rw [← hpay]
  generalize b.payload = pay at hbp
  cases hbp with
  | input _ e => rw [e]
  | output _ e => rw [e]
  | other => cases n.instr.payload <;> simp [← hbs, hsrc, hbd, hdst]

section Emitted

variable {settings : Settings} {d : Stream.Decoded} {o : Optimized} {c : Compiled} {e : Emission}
  (h : Optimum settings d o) (hw : Written settings o c e)

include hw in
theorem forall₂_emits : List.Forall₂ (Emission.Emits o.program o.live c.renumbering) o.order
    (e.items.flatMap Stream.Item.instructions) :=
  Emission.forall₂_emits (Emission.ofChains_ok_iff.mp hw.emitted).2.1

include h hw

theorem wellFormed_items : ∀ item ∈ e.items, item.WellFormed := by
  have hi := (Emission.ofChains_ok_iff.mp hw.emitted).2.1
  intro item hitem
  obtain ⟨k, hk⟩ := List.getElem?_of_mem hitem
  obtain ⟨hlt, rfl⟩ := List.getElem?_eq_some_iff.mp hk
  have hlen := hi.length_eq
  have hc := hi.get (by omega : k < (o.program.chains o.live).length) hlt
  obtain ⟨root, hroot, hchain⟩ := List.mem_map.mp (List.get_mem (o.program.chains o.live) ⟨k, by omega⟩)
  rw [← hchain] at hc
  obtain ⟨hl, is, his, e⟩ := Emission.item_ok_iff.mp hc
  have hnext := ((mem_liveRoots h.handed.linked).mp hroot).2.2
  have hwell := Emission.wellFormed_item h.handed hnext hl his
  rw [← e] at hwell
  exact hwell

/-- The node of the program that an emitted instruction comes from. -/
theorem emitted_at {x i : Nat} {b : Instruction} (hb : (e.items.flatMap Stream.Item.instructions)[x]? = some b)
    (hi : o.order[x]? = some i) : ∃ m n, d.program[i]? = some m ∧ o.program[i]? = some n ∧
      Emission.Renumbered c.renumbering o.live i n.instr b ∧ o.live.isLive i = true := by
  obtain ⟨hxi, rfl⟩ := List.getElem?_eq_some_iff.mp hi
  obtain ⟨hxb, rfl⟩ := List.getElem?_eq_some_iff.mp hb
  obtain ⟨n, hn, hren⟩ := (forall₂_emits hw).get hxi hxb
  obtain ⟨hlt, hlive⟩ := (mem_order_iff h.handed).mp (List.getElem_mem hxi)
  obtain ⟨m, hm⟩ := exists_node (p := d.program) (by rw [← h.handed.size]; exact hlt)
  exact ⟨m, n, hm, hn, hren, hlive⟩

theorem calls_eq : (e.items.flatMap Stream.Item.instructions).filterMap Instruction.call? =
    (d.items.flatMap Stream.Item.instructions).filterMap Instruction.call? := by
  have hf := h.handed
  have hinstrs : d.items.flatMap Stream.Item.instructions = d.program.instrs := (map_instr_ofItems d.items).symm
  have emitted {xs : List Nat} {bs : List Instruction}
      (hx : List.Forall₂ (Emission.Emits o.program o.live c.renumbering) xs bs) :
      bs.filterMap Instruction.call? = xs.filterMap fun i => d.program[i]?.bind fun m => m.instr.call? := by
    induction hx with
    | nil => rfl
    | @cons i b _ _ hb _ ih =>
      obtain ⟨n, hn, hren⟩ := hb
      obtain ⟨m, hm⟩ := exists_node (p := d.program) (by rw [← hf.size]; exact lt_size_of_getElem? hn)
      rw [List.filterMap_cons, List.filterMap_cons, ih, hm, call?_eq hf hm hn hren]
      rfl
  have hnone (i : Nat) (hi : d.program.noticed i = false) := call?_of_not_noticed h.formed hi
  calc (e.items.flatMap Stream.Item.instructions).filterMap Instruction.call?
      = (o.order.filter d.program.noticed).filterMap fun i => d.program[i]?.bind fun m => m.instr.call? := by
        rw [emitted (forall₂_emits hw), filterMap_filter_of_none hnone]
    _ = ((List.range d.program.size).filter d.program.noticed).filterMap
          fun i => d.program[i]?.bind fun m => m.instr.call? := by
        rw [Optimized.order, filter_order hf h.sound]
    _ = (d.items.flatMap Stream.Item.instructions).filterMap Instruction.call? := by
        rw [filterMap_filter_of_none hnone, hinstrs, filterMap_eq_range d.program.instrs, length_instrs]
        simp only [getElem?_instrs, Option.bind_map]
        rfl

/-- The emitted stream is read back, with the same call shapes. -/
theorem decode_emitted {functions : Nat} (hn : functions ≤ Stream.maxFunctions)
    (hc : Stream.CallTable.visitAll (Array.replicate functions none) d.items = .ok d.calls) :
    ∃ doneAt, Stream.decode e.code functions = .ok ⟨e.items, d.calls, doneAt⟩ := by
  have hwell := wellFormed_items h hw
  have hcode : e.code = Emission.codeOf e.items := by
    have := (Emission.ofChains_ok_iff.mp hw.emitted).2.2.2
    rw [this]
  have hcalls : Stream.CallTable.visitAll (Array.replicate functions none) e.items = .ok d.calls := by
    rw [Stream.visitAll_eq_recordAll _ hwell, calls_eq h hw, ← Stream.visitAll_eq_recordAll _ h.items, hc]
  rw [hcode, Emission.codeOf]
  split
  · rename_i hempty
    rw [List.isEmpty_iff.mp hempty] at hcalls ⊢
    rw [← Except.ok.inj hcalls, Stream.decode, if_neg (Nat.not_lt.mpr hn)]
    exact ⟨none, rfl⟩
  · exact ⟨_, Stream.decode_encode hn hwell hcalls⟩

/-! ## Reads of the emitted stream -/

omit h in
theorem valid_registers : c.renumbering.registers.Valid := by
  rw [(Renumbering.numbered_ofOrder hw.numbered).registers]
  exact Numbering.valid_addAll Numbering.valid_empty _

omit h in
theorem valid_constants : c.renumbering.constants.Valid := by
  rw [(Renumbering.numbered_ofOrder hw.numbered).constants]
  exact Numbering.valid_addAll Numbering.valid_empty _

theorem exists_emitted {v w : Nat} (hv : o.order[v]? = some w) :
    ∃ y b, o.program[w]? = some y ∧ (e.items.flatMap Stream.Item.instructions)[v]? = some b ∧
      Emission.Renumbered c.renumbering o.live w y.instr b := by
  have hlen := (forall₂_emits hw).length_eq
  have hlt := (List.getElem?_eq_some_iff.mp hv).1
  obtain ⟨-, y, -, hy, hren, -⟩ := emitted_at h hw (List.getElem?_eq_getElem (by omega : v < _)) hv
  exact ⟨y, _, hy, List.getElem?_eq_getElem _, hren⟩

/-- An emitted instruction stores to a numbered register just when its node stores to the register. -/
theorem storesAt_emitted {v w : Nat} (hv : o.order[v]? = some w) {old new : UInt16}
    (hnum : c.renumbering.registers.get? old.toNat = some new) :
    storesAt (e.items.flatMap Stream.Item.instructions) (.reg new) v = true ↔ o.live.stores o.program old w = true := by
  obtain ⟨y, b, hy, hb, hren⟩ := exists_emitted h hw hv
  have hlive := ((mem_order_iff h.handed).mp (List.mem_of_getElem? hv)).2
  have hvalid := valid_registers hw
  rw [storesAt_iff, Liveness.stores_iff]
  constructor
  · rintro ⟨b', hb', hmem⟩
    rw [hb] at hb'
    cases hb'
    obtain ⟨k, hk⟩ := List.getElem?_of_mem hmem
    obtain ⟨old', hold, hu, hget⟩ := hren.dests.of_lt_size hk (hvalid.lt_size hnum)
    rw [Nat.zero_add] at hu
    have e := UInt16.toNat_inj.mp (hvalid.get?_inj hget hnum)
    subst e
    exact ⟨hlive, y, k, hy, hold, hu⟩
  · rintro ⟨-, n, k, hn, hd, hu⟩
    rw [hy] at hn
    cases hn
    obtain ⟨new', hget, hk⟩ := hren.dests.kept_getElem? hd (by rw [Nat.zero_add]; exact hu)
    rw [hnum] at hget
    cases hget
    exact ⟨b, hb, List.mem_of_getElem? hk⟩

/-- A register of an emitted instruction is read from what was emitted for the node it was read from. -/
theorem lastStore_emitted {x i w : Nat} (hi : o.order[x]? = some i) {old new : UInt16}
    (hold : .reg old ∈ o.program.sourcesOf i) (hnum : c.renumbering.registers.get? old.toNat = some new)
    (hw' : lastStore d.program.instrs (.reg old) i = some w) :
    ∃ v, o.order[v]? = some w ∧ lastStore (e.items.flatMap Stream.Item.instructions) (.reg new) x = some v := by
  have hh := h.handed
  obtain ⟨-, hlive⟩ := (mem_order_iff hh).mp (List.mem_of_getElem? hi)
  obtain ⟨-, y, -, hy, -, hmem, hread⟩ := hh.dests_producer hlive hold hw' h.sound
  have hwlive := hh.live_producer hlive hold hw' h.sound
  obtain ⟨v, hv⟩ := List.getElem?_of_mem ((mem_order_iff hh).mpr ⟨lt_size_of_getElem? hy, hwlive⟩)
  refine ⟨v, hv, lastStore_eq_some_iff.mpr ⟨?_, ?_, fun u hvu hux => ?_⟩⟩
  · exact (order_lt_iff hh hv hi).mpr (hh.before_of_read hlive hold hw')
  · obtain ⟨k, hk⟩ := List.getElem?_of_mem hmem
    exact (storesAt_emitted h hw hv hnum).mpr (Liveness.stores_iff.mpr ⟨hwlive, y, k, hy, hk, hread k hk⟩)
  · have hul : u < o.order.length := Nat.lt_trans hux (List.getElem?_eq_some_iff.mp hi).1
    have hu : o.order[u]? = some o.order[u] := List.getElem?_eq_getElem hul
    rw [← Bool.not_eq_true, storesAt_emitted h hw hu hnum,
      hh.no_store_between hlive hold hw' ((order_lt_iff hh hv hu).mp hvu) ((order_lt_iff hh hu hi).mp hux)]
    nofun

end Emitted

end LaneScript.Compile
