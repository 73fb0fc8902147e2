/-
  LaneScript.Proofs.Irreducible — a compiled stream leaves nothing to optimise.

  A live node is read or feeds a node, and stays so when it is emitted; hence nothing
  is useless in the program that is read back, and the same call results are unread.
  If one of its nodes could be folded, so could the node it comes from: the chains are
  the same, and a store that stands in the way of a move stands in the way of the move
  of the emitted node. As the optimised program was settled, so is the program read back,
  and optimising it changes nothing (`optimize_reread`).
-/
import LaneScript.Proofs.Reread

namespace LaneScript.Compile

open Program

theorem dropWhile_congr {α : Type} {p q : α → Bool} {xs : List α} (h : ∀ a ∈ xs, p a = q a) :
    xs.dropWhile p = xs.dropWhile q := by
  induction xs with
  | nil => rfl
  | cons a xs ih =>
    rw [List.dropWhile_cons, List.dropWhile_cons, h a List.mem_cons_self, ih fun b hb => h b (List.mem_cons_of_mem a hb)]

/-- A liveness under which all that was emitted is live and the same results are unread. -/
structure Reread (o : Optimized) (e : Emission) (l : Liveness) : Prop where
  flow : l.flow.Exact e.program
  live : ∀ x, l.isLive x = true
  unread : ∀ x i, o.order[x]? = some i → l.unread.getD x [] = o.live.unread.getD i []

theorem Reread.isUnread {o : Optimized} {e : Emission} {l : Liveness} (hr : Reread o e l) {x i : Nat}
    (hx : o.order[x]? = some i) (k : Nat) : l.isUnread x k = o.live.isUnread i k := by
  rw [Liveness.isUnread, hr.unread x i hx, Liveness.isUnread]

section Emitted

variable {settings : Settings} {d : Stream.Decoded} {o : Optimized} {c : Compiled} {e : Emission}
  (h : Optimum settings d o) (hw : Written settings o c e)

include h hw

/-! ## Nothing to drop -/

theorem isUseless_reread {f : Flow} (hf : f.Exact e.program) (hp : settings.prune = true) {x : Nat}
    (hx : x < e.program.size) : (Liveness.ofFlow f e.program).isUseless e.program x = false := by
  have hh := h.handed
  have hx := order_of_lt hw hx
  generalize o.nodeAt x = i at hx
  obtain ⟨hi, hlive⟩ := (mem_order_iff hh).mp (List.mem_of_getElem? hx)
  rw [hh.size] at hi
  rw [← Bool.not_eq_true]
  intro hu
  obtain ⟨b, hb, hpure, hread, hnext⟩ := Liveness.isUseless_iff.mp hu
  obtain ⟨n, b', hn, hb', hren⟩ := exists_reread h hw hx
  rw [hb] at hb'
  cases hb'
  obtain ⟨m, hm⟩ := exists_node hi
  -- It feeds nothing, as whatever it would feed is live.
  have hnone : o.program.next? i = none := by
    refine (next?_reread_none h hw hx).mp (Option.eq_none_iff_forall_ne_some.mpr fun y hy => ?_)
    have := hnext y hy
    rw [Liveness.isLive_ofFlow] at this
    cases this
  refine absurd ((h.pruned hp).live i hi) ?_
  rw [hlive, eq_comm, Bool.not_eq_true', Bool.not_eq_false]
  refine Liveness.isUseless_iff.mpr ⟨m, hm, ?_, fun j k hj => ?_, fun j hj => ?_⟩
  · rw [← hpure, Instruction.isPure, Instruction.isPure, Instruction.category, Instruction.category, hren.opcode,
      (hh.same i m n hm hn).1]
  · -- A live reader would read what was emitted.
    rw [← Bool.not_eq_true]
    intro hjl
    have hmem := Liveness.mem_liveReaders.mpr ⟨hj, hjl⟩
    have hperm := liveReaders_reread h hw (l := .ofFlow f e.program) hf (Liveness.isLive_ofFlow f _) hx hnone
    obtain ⟨use, huse, -⟩ := List.mem_map.mp (hperm.mem_iff.mpr hmem)
    have := hread use.1 use.2 (Liveness.mem_liveReaders.mp huse).1
    rw [Liveness.isLive_ofFlow] at this
    cases this
  · -- What it fed in the program it was read from, it still feeds.
    have ha : .acc ∈ m.instr.dests := by
      rw [h.grouped.next?_eq hm] at hj
      by_contra hna
      rw [if_neg hna] at hj
      cases hj
    rw [← hh.dests_eq hn hm hnone] at ha
    exact absurd ha ((hh.next?_eq_none_iff hn).mp hnone)

/-- The same results of a call are unread. -/
theorem unreadAt_reread {l : Liveness} (hf : l.flow.Exact e.program) (hl : ∀ x, l.isLive x = true)
    (hp : settings.prune = true) {x i : Nat} (hx : o.order[x]? = some i) :
    l.unreadAt e.program x = o.live.unreadAt d.program i := by
  have hh := h.handed
  obtain ⟨n, b, hn, hb, hren⟩ := exists_reread h hw hx
  obtain ⟨m, hm⟩ := exists_node (p := d.program) (by rw [← hh.size]; exact lt_size_of_getElem? hn)
  have hcat : b.instr.category = m.instr.category := by
    rw [hren.category, Instruction.category, Instruction.category, (hh.same i m n hm hn).1]
  simp only [Liveness.unreadAt, hb, hm, hcat]
  split
  · rename_i hcall
    have hncall : n.instr.category = .call := by rw [← hren.category, hcat, hcall]
    -- A call feeds nothing, so its results stand where they stood.
    have hnone : o.program.next? i = none := by
      refine hh.next?_of_noticed ?_
      rw [noticed, hn, Option.any_some, Instruction.isPure, hncall]
      revert hncall
      rw [Instruction.category]
      cases n.instr.opcode <;> simp [Opcode.category]
    have hdests : n.instr.dests = m.instr.dests := by
      rcases hh.dests i m n hm hn with e | ⟨e, -⟩
      · exact e
      · have := ((hh.formed.fits i n hn).of_acc_mem_dests (by rw [e]; exact List.mem_singleton.mpr rfl)).1
        rw [hncall] at this
        cases this
    rw [Liveness.unreadDests, Liveness.unreadDests, ← hdests, ← List.map_id (List.filterMap _ n.instr.dests.zipIdx)]
    refine filterMap_zipIdx_map hren.dests.length_eq fun k a z ha hz => ?_
    obtain ⟨z', hz', hat⟩ := hren.dests.dest_at ha
    rw [hz] at hz'
    cases hz'
    rw [Nat.zero_add] at hat
    cases hat with
    | acc => rfl
    | @unread old new hu hle =>
      have hmem : k ∈ o.live.unreadAt d.program i := by
        rw [← (h.pruned hp).unread i]
        exact List.contains_iff_mem.mp hu
      obtain ⟨m', r, hm', -, hr, hno⟩ := Liveness.mem_unreadAt.mp hmem
      rw [hm] at hm'
      cases hm'
      rw [← hdests, ha] at hr
      cases hr
      dsimp only
      rw [if_neg (by simp [readsRegister_spare h hw hle]), if_neg (by simpa using hno)]
      rfl
    | @kept old new hu hnum =>
      have hany : ((o.live.liveReaders i).any fun use => Liveness.readsRegister o.program old use.1 use.2) =
          (o.live.liveReaders i).any fun use => Liveness.readsRegister d.program old use.1 use.2 := by
        rw [Bool.eq_iff_iff, List.any_eq_true, List.any_eq_true]
        exact exists_congr fun use => and_congr_right fun hu => by
          rw [hh.readsRegister_eq h.sound.flow hnone (lt_size_of_getElem? hm) hu]
      dsimp only
      rw [any_reads_reread h hw hf hl hx hnone hnum, hany, Option.map_id_fun, id]
  · rfl

/-! ## Nothing to fold -/

section Settled

variable {l : Liveness} (hr : Reread o e l)

include hr

theorem stores_reread {v u : Nat} (hv : o.order[v]? = some u) {old new : UInt16}
    (hnum : c.renumbering.registers.get? old.toNat = some new) (hst : o.live.stores o.program old u = true) :
    l.stores e.program new v = true := by
  obtain ⟨n, b, hn, hb, hren⟩ := exists_reread h hw hv
  obtain ⟨-, n', k, hn', hd, hu⟩ := Liveness.stores_iff.mp hst
  rw [hn] at hn'
  cases hn'
  obtain ⟨new', hnum', hk⟩ := hren.dests.kept_getElem? hd (by rw [Nat.zero_add]; exact hu)
  rw [hnum] at hnum'
  cases hnum'
  exact Liveness.stores_iff.mpr ⟨hr.live v, b, k, hb, hk, (hr.isUnread hv k).trans hu⟩

/-- A store that stands in the way of a move still does. -/
theorem losesSource_reread {x z i j : Nat} (hx : o.order[x]? = some i) (hz : o.order[z]? = some j)
    (hj : o.program.next? j = none) (hlose : o.program.losesSource o.live j i = true) :
    e.program.losesSource l z x = true := by
  have hh := h.handed
  obtain ⟨r, hmem, hbetween⟩ := losesSource_iff.mp hlose
  obtain ⟨u, hiu, huj, hst⟩ := (Liveness.storedBetween_iff h.sound.flow fun u => hh.storesAt_of_stores).mp hbetween
  obtain ⟨-, hlive⟩ := (mem_order_iff hh).mp (List.mem_of_getElem? hx)
  obtain ⟨hul, y, -, hy, -⟩ := Liveness.stores_iff.mp hst
  obtain ⟨v, hv⟩ := List.getElem?_of_mem ((mem_order_iff hh).mpr ⟨lt_size_of_getElem? hy, hul⟩)
  obtain ⟨k, hk⟩ := List.getElem?_of_mem hmem
  obtain ⟨new, hk', hnum⟩ := reg_to_reread h hw hx hk
  -- The store is a root, and not one that the reader was moved over before.
  have hu := root_of_last (hh.next?_of_stores hst)
  have hroot : o.program.root i ≤ u := by
    by_contra hlt
    rw [hh.steady i r u hlive hmem hiu (by omega)] at hst
    cases hst
  have hxv : x < v := (order_lt_iff hh hx hv).mpr (by rw [Before, hu]; omega)
  have hvz : v < z := (order_lt_iff hh hv hz).mpr (by rw [Before, hu, root_of_last hj]; omega)
  exact losesSource_iff.mpr ⟨new, List.mem_of_getElem? hk',
    (Liveness.storedBetween_iff hr.flow fun u => Liveness.storesAt_of_stores).mpr
      ⟨v, hxv, hvz, stores_reread h hw hr hv hnum hst⟩⟩

/-- What can be folded in the program read back could be folded before. -/
theorem canFold_reread {x y k : Nat} {b b' : Node} {new : UInt16} (hb : e.program[x]? = some b)
    (hc : e.program.CanFold l x y k b b' new) :
    ∃ n m old, o.program[o.nodeAt x]? = some n ∧ o.program.CanFold o.live (o.nodeAt x) (o.nodeAt y) k n m old := by
  have hh := h.handed
  have hx := order_of_lt hw (lt_size_of_getElem? hb)
  have hy := order_of_lt hw (lt_size_of_getElem? hc.reader)
  obtain ⟨n, b₁, hn, hb₁, hren⟩ := exists_reread h hw hx
  obtain ⟨m, b₂, hm, hb₂, hren'⟩ := exists_reread h hw hy
  rw [hb] at hb₁
  rw [hc.reader] at hb₂
  cases hb₁
  cases hb₂
  -- Its one destination is a register, so it feeds nothing.
  have hacc : .acc ∉ n.instr.dests := by
    rw [← hren.dests.mem_acc_iff, hc.dests]
    simp
  have hnext : o.program.next? (o.nodeAt x) = none := (hh.next?_eq_none_iff hn).mpr hacc
  obtain ⟨old, hold, hnum⟩ := reg_of_reread h hw hy (by rw [sourcesOf_eq hc.reader]; exact hc.source)
  have hdests : n.instr.dests = [.reg old] := by
    have hlt := (valid_registers hw).lt_size hnum
    obtain ⟨old', hd, -, hnum'⟩ := hren.dests.of_lt_size (k := 0) (by rw [hc.dests]; rfl) hlt
    have hlen := hren.dests.length_eq
    rw [hc.dests] at hlen
    obtain ⟨a, ha⟩ := List.length_eq_one_iff.mp hlen.symm
    rw [ha] at hd ⊢
    cases hd
    rw [UInt16.toNat_inj.mp ((valid_registers hw).get?_inj hnum' hnum)]
  have hna : .acc ∉ m.instr.sources := by
    rw [← hren'.mem_acc_sources]
    exact hc.no_acc
  have hprev : o.program.prev? (o.nodeAt y) = none := (hh.prev?_eq_none_iff hm).mpr hna
  refine ⟨n, m, old, hn, ⟨by rw [← hren.category]; exact hc.compute, hdests, ?_, hm, ?_, ?_, hna, ?_, ?_,
    ((mem_order_iff hh).mp (List.mem_of_getElem? hx)).2⟩⟩
  · have hperm := liveReaders_reread h hw hr.flow hr.live hx hnext
    rw [hc.only] at hperm
    exact List.perm_singleton.mp hperm.symm
  · rw [← sourcesOf_eq hm]
    exact hold
  · rw [← prev?_eq hm]
    exact hprev
  · rw [← hren'.category]
    exact hc.fits
  · exact (hh.linked.isFolded_eq_false_iff hn).mpr hnext

omit hr in
/-- The steps above a node are as many as before. -/
theorem length_above_reread {y j : Nat} (hy : o.order[y]? = some j) :
    ((o.program.chain (o.program.root j)).dropWhile (· ≠ j)).length =
      ((e.program.chain (e.program.root y)).dropWhile (· ≠ y)).length := by
  have hl := (grouped_program h hw).linked
  rw [← chain_reread h hw (root_reread h hw hy), List.dropWhile_map, List.length_map]
  refine congrArg List.length (dropWhile_congr fun z hz => ?_)
  have hlt := Nat.lt_of_le_of_lt (le_of_mem_chain hl hz) (root_lt_size hl (lt_size_reread hw hy))
  have hz := order_of_lt hw hlt
  have : o.nodeAt z = j ↔ z = y := ⟨fun e => order_inj h.handed (e ▸ hz) hy, fun e => by rw [e, nodeAt_eq hy]⟩
  simp [this]

theorem settled_reread (hs : settings.fold = true) : e.program.Settled l settings.groupLimit.toNat := by
  have hl := (grouped_program h hw).linked
  intro x y k hv
  obtain ⟨b, b', new, hb, hc, hlen, hkeep⟩ := verdict_eq_fold_iff.mp hv
  have hx := order_of_lt hw (lt_size_of_getElem? hb)
  have hy := order_of_lt hw (lt_size_of_getElem? hc.reader)
  obtain ⟨n, m, old, hn, hcan⟩ := canFold_reread h hw hr hb hc
  refine h.settled hs _ _ k (verdict_eq_fold_iff.mpr ⟨n, m, old, hn, hcan, ?_, fun i hi => ?_⟩)
  · rw [← chain_reread h hw hx, List.length_map, length_above_reread h hw hy]
    exact hlen
  · rw [← Bool.not_eq_true]
    intro hlose
    rw [← chain_reread h hw hx] at hi
    obtain ⟨z, hz, rfl⟩ := List.mem_map.mp hi
    have hzx := order_of_lt hw (Nat.lt_of_le_of_lt (le_of_mem_chain hl hz) (lt_size_of_getElem? hb))
    have := losesSource_reread h hw hr hzx (root_reread h hw hy) (next?_root h.handed.linked _) hlose
    rw [hkeep z hz] at this
    cases this

end Settled

/-- Optimising what was emitted changes nothing. -/
theorem optimize_reread {f : Flow} (hf : Flow.ofProgram e.program = .ok f) (calls : Stream.CallTable)
    (doneAt : Option Nat) :
    ∃ l, optimize settings ⟨e.items, calls, doneAt⟩ f = ⟨e.program, l, calls, [], []⟩ ∧ Reread o e l := by
  have hflow := Flow.exact_ofProgram hf
  obtain ⟨l, hl, hr⟩ : ∃ l, drop settings e.program (Liveness.ofFlow f e.program) = (l, []) ∧ Reread o e l := by
    unfold drop
    cases hp : settings.prune with
    | true =>
      have hexact := Liveness.exact_prune hflow (grouped_program h hw).linked
      obtain ⟨hnil, hlive⟩ := Liveness.prune_of_useful fun x hx => isUseless_reread h hw hflow hp hx
      refine ⟨((Liveness.ofFlow f e.program).prune e.program).1, Prod.ext rfl hnil, hexact.flow, hlive, fun x i hx => ?_⟩
      rw [hexact.unread, (h.pruned hp).unread, unreadAt_reread h hw hexact.flow hlive hp hx]
    | false =>
      refine ⟨_, rfl, hflow, Liveness.isLive_ofFlow f _, fun x i _ => ?_⟩
      rw [h.unpruned hp, Liveness.unread_ofFlow, Liveness.unread_ofFlow]
  refine ⟨l, ?_, hr⟩
  unfold optimize
  simp only [Stream.Decoded.program]
  rw [show ofItems e.items = e.program from rfl, hl]
  cases hs : settings.fold with
  | true =>
    obtain ⟨h1, h2⟩ := fold_settled (settled_reread h hw hr hs) {}
    simp only [if_true, h1, h2, List.reverse_nil]
  | false => rfl

/-! ## Nothing to move -/

section Chains

variable {l : Liveness} (hl : ∀ x, l.isLive x = true)

include hl

theorem liveRoots_reread : (e.program.liveRoots l).map o.nodeAt = o.program.liveRoots o.live := by
  have hh := h.handed
  have hlink := (grouped_program h hw).linked
  refine List.Pairwise.eq_of_mem_iff (r := (· < ·)) ?_ (List.Pairwise.filter _ List.pairwise_lt_range) fun i => ?_
  · -- Among roots, the order of emission is that of the program.
    refine List.pairwise_map.mpr ((List.pairwise_lt_range.filter _).imp_of_mem fun {x y} hx hy hxy => ?_)
    obtain ⟨hx, -, hnx⟩ := (mem_liveRoots hlink).mp hx
    obtain ⟨hy, -, hny⟩ := (mem_liveRoots hlink).mp hy
    have hx := order_of_lt hw hx
    have hy := order_of_lt hw hy
    have hb := (order_lt_iff hh hx hy).mp hxy
    rw [Before, root_of_last ((next?_reread_none h hw hx).mp hnx), root_of_last ((next?_reread_none h hw hy).mp hny)] at hb
    omega
  · rw [List.mem_map, mem_liveRoots hh.linked]
    constructor
    · rintro ⟨x, hx, rfl⟩
      obtain ⟨hlt, -, hnx⟩ := (mem_liveRoots hlink).mp hx
      have hx := order_of_lt hw hlt
      obtain ⟨h1, h2⟩ := (mem_order_iff hh).mp (List.mem_of_getElem? hx)
      exact ⟨h1, h2, (next?_reread_none h hw hx).mp hnx⟩
    · rintro ⟨h1, h2, hni⟩
      obtain ⟨x, hx⟩ := List.getElem?_of_mem ((mem_order_iff hh).mpr ⟨h1, h2⟩)
      exact ⟨x, (mem_liveRoots hlink).mpr ⟨lt_size_reread hw hx, hl x, (next?_reread_none h hw hx).mpr hni⟩,
        nodeAt_eq hx⟩

theorem chains_reread : (e.program.chains l).map (List.map o.nodeAt) = o.program.chains o.live := by
  rw [chains, chains, ← liveRoots_reread h hw hl, List.map_map, List.map_map]
  refine List.map_congr_left fun x hx => ?_
  have hlt := ((mem_liveRoots (grouped_program h hw).linked).mp hx).1
  exact chain_reread h hw (order_of_lt hw hlt)

/-- Every node is emitted where it stands. -/
theorem order_reread : e.program.emissionOrder l = List.range e.program.size := by
  have hmap : (e.program.emissionOrder l).map o.nodeAt = o.order := by
    rw [emissionOrder, List.map_flatten, chains_reread h hw hl]
    rfl
  have hlen : (e.program.emissionOrder l).length = e.program.size := by
    rw [size_program hw, ← hmap, List.length_map]
  refine List.ext_getElem (by rw [hlen, List.length_range]) fun x hx hx' => ?_
  rw [List.getElem_range]
  -- What stands at position `x` comes from the same node as node `x`.
  have hat : o.order[x]? = some (o.nodeAt (e.program.emissionOrder l)[x]) := by
    rw [← hmap, List.getElem?_map, List.getElem?_eq_getElem hx]
    rfl
  have hlt : (e.program.emissionOrder l)[x] < e.program.size := by
    have hlink := (grouped_program h hw).linked
    obtain ⟨c, hc, hmem⟩ := List.mem_flatten.mp (List.getElem_mem hx)
    obtain ⟨root, hroot, rfl⟩ := List.mem_map.mp hc
    exact Nat.lt_of_le_of_lt (le_of_mem_chain hlink hmem) ((mem_liveRoots hlink).mp hroot).1
  exact order_inj h.handed (order_of_lt hw hlt) hat

end Chains

end Emitted

end LaneScript.Compile
