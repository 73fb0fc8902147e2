/-
  LaneScript.Proofs.Reread — the program that a compiled stream is read back as.

  Its node `x` is what node `nodeAt x` of the optimised program became. Under this map
  the links, chains and roots of the two agree, and so do the nodes that sources read
  from: the readers of a node that feeds nothing are the same sources, and a node that
  feeds another has none (`readers_reread`).
-/
import LaneScript.Proofs.Compile

namespace LaneScript

def Emission.program (e : Emission) : Program := Program.ofItems e.items

namespace Compile

open Program

def Optimized.nodeAt (o : Optimized) (x : Nat) : Nat := o.order.getD x 0

theorem nodeAt_eq {o : Optimized} {x i : Nat} (hx : o.order[x]? = some i) : o.nodeAt x = i := by
  rw [Optimized.nodeAt, List.getD_eq_getElem?_getD, hx]
  rfl

theorem instrs_program (e : Emission) : e.program.instrs = e.items.flatMap Stream.Item.instructions :=
  map_instr_ofItems e.items

section Emitted

variable {settings : Settings} {d : Stream.Decoded} {o : Optimized} {c : Compiled} {e : Emission}
  (h : Optimum settings d o) (hw : Written settings o c e)

include hw

theorem size_program : e.program.size = o.order.length := by
  rw [← length_instrs, instrs_program e, (forall₂_emits hw).length_eq]

theorem order_of_lt {x : Nat} (hx : x < e.program.size) : o.order[x]? = some (o.nodeAt x) := by
  rw [size_program hw] at hx
  rw [Optimized.nodeAt, List.getD_eq_getElem?_getD, List.getElem?_eq_getElem hx]
  rfl

theorem order_eq_map : o.order = (List.range e.program.size).map o.nodeAt := by
  refine List.ext_getElem? fun x => ?_
  by_cases hx : x < e.program.size
  · rw [order_of_lt hw hx, List.getElem?_map, List.getElem?_range hx]
    rfl
  · rw [List.getElem?_eq_none (by rw [← size_program hw]; omega), List.getElem?_eq_none (by simpa using hx)]

theorem lt_size_reread {x i : Nat} (hx : o.order[x]? = some i) : x < e.program.size := by
  rw [size_program hw]
  exact (List.getElem?_eq_some_iff.mp hx).1

include h

theorem grouped_program : e.program.Grouped := grouped_ofItems (wellFormed_items h hw)

theorem exists_reread {x i : Nat} (hx : o.order[x]? = some i) :
    ∃ n b, o.program[i]? = some n ∧ e.program[x]? = some b ∧
      Emission.Renumbered c.renumbering o.live i n.instr b.instr := by
  obtain ⟨n, b, hn, hb, hren⟩ := exists_emitted h hw hx
  rw [← instrs_program e, getElem?_instrs] at hb
  obtain ⟨m, hm, rfl⟩ := Option.map_eq_some_iff.mp hb
  exact ⟨n, m, hn, hm, hren⟩

/-! ## Links -/

theorem next?_reread {x i : Nat} (hx : o.order[x]? = some i) :
    (e.program.next? x).map o.nodeAt = o.program.next? i := by
  have hh := h.handed
  obtain ⟨n, b, hn, hb, hren⟩ := exists_reread h hw hx
  rw [(grouped_program h hw).next?_eq hb]
  cases e : o.program.next? i with
  | none =>
    rw [if_neg fun ha => ?_]
    · rfl
    · obtain ⟨j, hj⟩ := (hh.next_iff i n hn).mpr (hren.dests.mem_acc_iff.mp ha)
      rw [e] at hj
      cases hj
  | some j =>
    -- The node that it feeds is emitted right behind it.
    have hlive := ((mem_order_iff hh).mp (List.mem_of_getElem? hx)).2
    rw [hh.live i j e] at hlive
    obtain ⟨y, hy⟩ := List.getElem?_of_mem ((mem_order_iff hh).mpr ⟨hh.linked.next_lt_size e, hlive⟩)
    obtain ⟨x', rfl, hx'⟩ := order_prev hh hy ((hh.linked.agree i j).mp e)
    rw [order_inj hh hx' hx] at hy
    rw [if_pos (hren.dests.mem_acc_iff.mpr ((hh.next_iff i n hn).mp ⟨j, e⟩)), Option.map_some, nodeAt_eq hy]

theorem prev?_reread {x i : Nat} (hx : o.order[x]? = some i) :
    (e.program.prev? x).map o.nodeAt = o.program.prev? i := by
  have hh := h.handed
  obtain ⟨n, b, hn, hb, hren⟩ := exists_reread h hw hx
  rw [(grouped_program h hw).prev?_eq hb]
  cases e : o.program.prev? i with
  | none =>
    rw [if_neg fun ha => ?_]
    · rfl
    · obtain ⟨j, hj⟩ := (hh.prev_iff i n hn).mpr (hren.mem_acc_sources.mp ha)
      rw [e] at hj
      cases hj
  | some j =>
    obtain ⟨y, rfl, hy⟩ := order_prev hh hx e
    rw [if_pos (hren.mem_acc_sources.mpr ((hh.prev_iff i n hn).mp ⟨j, e⟩)), Option.map_some, Nat.add_sub_cancel,
      nodeAt_eq hy]

theorem next?_reread_none {x i : Nat} (hx : o.order[x]? = some i) :
    e.program.next? x = none ↔ o.program.next? i = none := by
  rw [← next?_reread h hw hx, Option.map_eq_none_iff]

theorem chain_reread {x i : Nat} (hx : o.order[x]? = some i) :
    (e.program.chain x).map o.nodeAt = o.program.chain i := by
  have hl := (grouped_program h hw).linked
  induction x using Nat.strongRecOn generalizing i with
  | ind x ih =>
    have hprev := prev?_reread h hw hx
    cases e' : e.program.prev? x with
    | none =>
      rw [e'] at hprev
      rw [chain_of_first e', chain_of_first hprev.symm, List.map_singleton, nodeAt_eq hx]
    | some y =>
      rw [e'] at hprev
      have hy := order_of_lt hw (Nat.lt_trans (hl.prev_lt e') (lt_size_of_prev? e'))
      rw [chain_of_prev hl e', chain_of_prev h.handed.linked hprev.symm, List.map_append, ih y (hl.prev_lt e') hy,
        List.map_singleton, nodeAt_eq hx]

theorem root_reread {x i : Nat} (hx : o.order[x]? = some i) :
    o.order[e.program.root x]? = some (o.program.root i) := by
  have hl := (grouped_program h hw).linked
  induction x using hl.induction generalizing i with
  | last x e' =>
    rw [root_of_last e', root_of_last ((next?_reread_none h hw hx).mp e'), hx]
  | step x y e' ih =>
    have hnext := next?_reread h hw hx
    rw [e'] at hnext
    rw [root_of_next hl e', root_of_next h.handed.linked hnext.symm]
    exact ih (order_of_lt hw (hl.next_lt_size e'))

/-! ## Reads -/

theorem sources_reread {x i : Nat} (hx : o.order[x]? = some i) :
    List.Forall₂ (Emission.SourceTo c.renumbering) (o.program.sourcesOf i) (e.program.sourcesOf x) := by
  obtain ⟨n, b, hn, hb, hren⟩ := exists_reread h hw hx
  rw [sourcesOf_eq hn, sourcesOf_eq hb]
  exact hren.sources

/-- The register that a source read before it was renumbered. -/
theorem reg_of_reread {x i k : Nat} {new : UInt16} (hx : o.order[x]? = some i)
    (hk : (e.program.sourcesOf x)[k]? = some (.reg new)) :
    ∃ old, (o.program.sourcesOf i)[k]? = some (.reg old) ∧ c.renumbering.registers.get? old.toNat = some new := by
  have hs := sources_reread h hw hx
  obtain ⟨hlt, hk⟩ := List.getElem?_eq_some_iff.mp hk
  have hlt' : k < (o.program.sourcesOf i).length := by rw [hs.length_eq]; exact hlt
  have ht := hs.get hlt' hlt
  have hi := List.getElem?_eq_getElem hlt'
  simp only [List.get_eq_getElem, hk] at ht
  generalize (o.program.sourcesOf i)[k] = s at ht hi
  cases ht with
  | reg hnum => exact ⟨_, hi, hnum⟩

/-- The register that a source reads after it was renumbered. -/
theorem reg_to_reread {x i k : Nat} {old : UInt16} (hx : o.order[x]? = some i)
    (hk : (o.program.sourcesOf i)[k]? = some (.reg old)) :
    ∃ new, (e.program.sourcesOf x)[k]? = some (.reg new) ∧ c.renumbering.registers.get? old.toNat = some new := by
  have hs := sources_reread h hw hx
  obtain ⟨hlt, hk⟩ := List.getElem?_eq_some_iff.mp hk
  have hlt' : k < (e.program.sourcesOf x).length := by rw [← hs.length_eq]; exact hlt
  have ht := hs.get hlt hlt'
  have hi := List.getElem?_eq_getElem hlt'
  simp only [List.get_eq_getElem, hk] at ht
  generalize (e.program.sourcesOf x)[k] = s at ht hi
  cases ht with
  | reg hnum => exact ⟨_, hi, hnum⟩

/-- A source reads from what was emitted for the node it read from. -/
theorem producer_reread {x i k : Nat} {old new : UInt16} (hx : o.order[x]? = some i)
    (hk : (o.program.sourcesOf i)[k]? = some (.reg old)) (hnum : c.renumbering.registers.get? old.toNat = some new) :
    ∃ w v, lastStore d.program.instrs (.reg old) i = some w ∧ o.order[v]? = some w ∧
      lastStore e.program.instrs (.reg new) x = some v := by
  have hmem := List.mem_of_getElem? hk
  obtain ⟨w, hlast⟩ := h.sound.flow.written i old (h.handed.mem_sourcesOf_of_reg hmem)
  obtain ⟨v, hv, hlast'⟩ := lastStore_emitted h hw hx hmem hnum hlast
  rw [← instrs_program e] at hlast'
  exact ⟨w, v, hlast, hv, hlast'⟩

/-- The emitted stream reads only what was stored. -/
theorem exists_flow : ∃ f, Flow.ofProgram e.program = .ok f := by
  refine Flow.ofProgram_isOk fun x new hmem => ?_
  obtain ⟨k, hk⟩ := List.getElem?_of_mem hmem
  obtain ⟨b, hb, -⟩ := mem_sourcesOf.mp hmem
  have hx := order_of_lt hw (lt_size_of_getElem? hb)
  obtain ⟨old, hold, hnum⟩ := reg_of_reread h hw hx hk
  obtain ⟨-, v, -, -, hlast⟩ := producer_reread h hw hx hold hnum
  exact ⟨v, hlast⟩

theorem readsRegister_reread {y j k : Nat} {old new : UInt16} (hy : o.order[y]? = some j)
    (hnum : c.renumbering.registers.get? old.toNat = some new) :
    Liveness.readsRegister e.program new y k = Liveness.readsRegister o.program old j k := by
  rw [Bool.eq_iff_iff, Liveness.readsRegister_iff, Liveness.readsRegister_iff]
  constructor
  · intro hk
    obtain ⟨old', hk', hnum'⟩ := reg_of_reread h hw hy hk
    rw [UInt16.toNat_inj.mp ((valid_registers hw).get?_inj hnum hnum'), hk']
  · intro hk
    obtain ⟨new', hk', hnum'⟩ := reg_to_reread h hw hy hk
    rw [hnum] at hnum'
    cases hnum'
    exact hk'

/-- Registers above the numbered ones are never read. -/
theorem readsRegister_spare {y k : Nat} {new : UInt16} (hle : c.renumbering.registers.size ≤ new.toNat) :
    Liveness.readsRegister e.program new y k = false := by
  rw [← Bool.not_eq_true, Liveness.readsRegister_iff]
  intro hk
  obtain ⟨b, hb, -⟩ := mem_sourcesOf.mp (List.mem_of_getElem? hk)
  obtain ⟨old, -, hnum⟩ := reg_of_reread h hw (order_of_lt hw (lt_size_of_getElem? hb)) hk
  have := (valid_registers hw).lt_size hnum
  omega

/-! ## Readers -/

section Readers

variable {l : Liveness} (hf : l.flow.Exact e.program) (hl : ∀ x, l.isLive x = true) {x i : Nat}
  (hx : o.order[x]? = some i)

include hf hl hx

theorem mem_liveReaders_reread (hi : o.program.next? i = none) {y j k : Nat} (hy : o.order[y]? = some j) :
    (y, k) ∈ l.liveReaders x ↔ (j, k) ∈ o.live.liveReaders i := by
  have hh := h.handed
  have hlt := lt_size_reread hw hx
  obtain ⟨hi', -⟩ := (mem_order_iff hh).mp (List.mem_of_getElem? hx)
  obtain ⟨-, hlive⟩ := (mem_order_iff hh).mp (List.mem_of_getElem? hy)
  rw [hh.size] at hi'
  rw [Liveness.mem_liveReaders, Liveness.mem_liveReaders, hf.mem_readers hlt, h.sound.flow.mem_readers hi']
  constructor
  · rintro ⟨⟨s, hs, hp⟩, -⟩
    cases s with
    | reg new =>
      obtain ⟨old, hold, hnum⟩ := reg_of_reread h hw hy hs
      obtain ⟨w, v, hlast, hv, hlast'⟩ := producer_reread h hw hy hold hnum
      have e : v = x := Option.some.inj (hlast'.symm.trans hp)
      rw [e, hx] at hv
      cases hv
      exact ⟨⟨.reg old, hh.kept j k _ hold nofun, hlast⟩, hlive⟩
    | const _ | acc => cases hp
  · rintro ⟨⟨s, hs, hp⟩, -⟩
    have hs' := hh.source_kept hs hp hi
    cases s with
    | reg old =>
      obtain ⟨new, hnew, hnum⟩ := reg_to_reread h hw hy hs'
      obtain ⟨w, v, hlast, hv, hlast'⟩ := producer_reread h hw hy hs' hnum
      have e : w = i := Option.some.inj (hlast.symm.trans hp)
      rw [e] at hv
      rw [order_inj hh hv hx] at hlast'
      exact ⟨⟨.reg new, hnew, hlast'⟩, hl y⟩
    | const _ | acc => cases hp

omit h hl in
theorem lt_of_mem_liveReaders {use : Nat × Nat} (hu : use ∈ l.liveReaders x) : use.1 < e.program.size := by
  have hlt := lt_size_reread hw hx
  exact hf.reader_lt_size hlt (Liveness.mem_liveReaders.mp hu).1

/-- A node that feeds nothing has the same readers. -/
theorem liveReaders_reread (hi : o.program.next? i = none) :
    ((l.liveReaders x).map fun use => (o.nodeAt use.1, use.2)).Perm (o.live.liveReaders i) := by
  have hh := h.handed
  have hlt := lt_size_reread hw hx
  obtain ⟨hi', -⟩ := (mem_order_iff hh).mp (List.mem_of_getElem? hx)
  rw [hh.size] at hi'
  refine (List.perm_ext_iff_of_nodup ?_ (Liveness.nodup_liveReaders h.sound.flow hi')).mpr fun use => ?_
  · refine (Liveness.nodup_liveReaders hf hlt).map_on fun a ha b hb e => ?_
    obtain ⟨e1, e2⟩ := Prod.mk.inj e
    have ha' := order_of_lt hw (lt_of_mem_liveReaders hw hf hx ha)
    have hb' := order_of_lt hw (lt_of_mem_liveReaders hw hf hx hb)
    rw [e1] at ha'
    exact Prod.ext (order_inj hh ha' hb') e2
  · rw [List.mem_map]
    constructor
    · rintro ⟨⟨y, k⟩, hy, rfl⟩
      exact (mem_liveReaders_reread h hw hf hl hx hi (order_of_lt hw (lt_of_mem_liveReaders hw hf hx hy))).mp hy
    · intro hu
      obtain ⟨hr, hlive⟩ := Liveness.mem_liveReaders.mp hu
      have hj : use.1 < o.program.size := by
        rw [hh.size]
        exact h.sound.flow.reader_lt_size hi' hr
      obtain ⟨y, hy⟩ := List.getElem?_of_mem ((mem_order_iff hh).mpr ⟨hj, hlive⟩)
      exact ⟨(y, use.2), (mem_liveReaders_reread h hw hf hl hx hi hy).mpr hu, by rw [nodeAt_eq hy]⟩

theorem any_reads_reread (hi : o.program.next? i = none) {old new : UInt16}
    (hnum : c.renumbering.registers.get? old.toNat = some new) :
    ((l.liveReaders x).any fun use => Liveness.readsRegister e.program new use.1 use.2) =
      (o.live.liveReaders i).any fun use => Liveness.readsRegister o.program old use.1 use.2 := by
  rw [← (liveReaders_reread h hw hf hl hx hi).any_eq, List.any_map, Bool.eq_iff_iff, List.any_eq_true, List.any_eq_true]
  refine exists_congr fun use => and_congr_right fun hu => ?_
  rw [readsRegister_reread h hw (order_of_lt hw (lt_of_mem_liveReaders hw hf hx hu)) hnum]
  rfl

end Readers

end Emitted

end Compile

end LaneScript
