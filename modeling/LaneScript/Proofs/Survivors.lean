/-
  LaneScript.Proofs.Survivors — what a compile makes of each instruction that it reads.

  An instruction is dropped, or handed to a later one in a group, or stands on its own in
  the new stream (`Tracked.size_eq`). A step of a group was one in the source or was folded, and
  the folds that are noted are the links that are new (`Tracked.length_folds`). So the
  counts of a compile add up, and they are those of the stream that is read back.

  The order holds every live node once. Whatever feeds nothing keeps its place among its
  like (`pairwise_filter_order`): the roots of the chains, and all that does not compute.
-/
import LaneScript.Proofs.Chaining
import LaneScript.Proofs.Deletion

namespace LaneScript

theorem length_filter_split {α : Type} (xs : List α) (a b : α → Bool) : (xs.filter a).length =
    (xs.filter fun x => a x && b x).length + (xs.filter fun x => a x && !b x).length := by
  rw [List.length_eq_length_filter_add b, List.filter_filter, List.filter_filter]
  simp only [Bool.and_comm]

def Stream.Item.isGroup : Stream.Item → Bool
  | .plain _ => false
  | .group _ => true

namespace Program

variable {q p : Program} {l : Liveness} {limit : Nat} {folds : List (Nat × Nat)}

/-- Emitted nodes that feed nothing come in the order of the program. -/
theorem pairwise_filter_order (h : q.Handed l p) {f : Nat → Bool} (hf : ∀ i, f i = true → p.next? i = none) :
    ((p.emissionOrder l).filter f).Pairwise (· < ·) := by
  refine ((pairwise_order h).filter f).imp_of_mem ?_
  intro a b ha hb hab
  have ha := hf a (List.mem_filter.mp ha).2
  have hb := hf b (List.mem_filter.mp hb).2
  rw [Before, root_of_last ha, root_of_last hb] at hab
  omega

/-- There are as many folds as nodes that feed something since. -/
theorem Tracked.length_folds (h : Tracked q l limit p folds) : folds.length = (foldedSince q p).length := by
  rw [← List.length_map Prod.fst]
  refine ((List.perm_ext_iff_of_nodup h.once (List.nodup_range.filter _)).mpr ?_).length_eq
  intro i
  show i ∈ folds.map Prod.fst ↔ i ∈ foldedSince q p
  rw [mem_foldedSince h.handed.size, List.mem_map]
  constructor
  · rintro ⟨⟨a, j⟩, hm, rfl⟩
    obtain ⟨hi, hj⟩ := (h.mem_folds a j).mp hm
    exact ⟨hi, j, hj⟩
  · rintro ⟨hi, j, hj⟩
    exact ⟨(i, j), (h.mem_folds i j).mpr ⟨hi, hj⟩, rfl⟩

/-- A node is dead, or folded, or was a step of a group before, or is a root. -/
theorem Tracked.size_eq (h : Tracked q l limit p folds) (hq : q.Linked) :
    q.size = ((List.range q.size).filter fun i => !l.isLive i).length + folds.length +
      ((List.range q.size).filter fun i => l.isLive i && q[i]?.any Node.isFolded).length +
      (p.liveRoots l).length := by
  have hroots : p.liveRoots l = (List.range q.size).filter fun i => l.isLive i && !p[i]?.any Node.isFolded := by
    rw [liveRoots, h.handed.size]
  have hlive := length_filter_split (List.range q.size) (fun _ => true) fun i => !l.isLive i
  have hfolded := length_filter_split (List.range q.size) (fun i => l.isLive i) fun i => p[i]?.any Node.isFolded
  have hnew := length_filter_split (List.range q.size) (fun i => l.isLive i && p[i]?.any Node.isFolded)
    fun i => q[i]?.any Node.isFolded
  have hold : ((List.range q.size).filter fun i => (l.isLive i && p[i]?.any Node.isFolded) && q[i]?.any Node.isFolded) =
      (List.range q.size).filter fun i => l.isLive i && q[i]?.any Node.isFolded := by
    refine List.filter_congr ?_
    intro i _
    rw [h.handed.linked.any_isFolded, hq.any_isFolded]
    cases e : q.next? i with
    | none => simp
    | some j => simp [h.kept i j e]
  have hsince : ((List.range q.size).filter fun i => (l.isLive i && p[i]?.any Node.isFolded) && !q[i]?.any Node.isFolded) =
      foldedSince q p := by
    refine List.filter_congr ?_
    intro i _
    rw [h.handed.linked.any_isFolded, hq.any_isFolded]
    cases e : q.next? i with
    | some j => simp
    | none =>
      cases e' : p.next? i with
      | none => simp
      | some j => simp [h.alive i j ((h.mem_folds i j).mpr ⟨e, e'⟩)]
  rw [hold, hsince] at hnew
  simp only [Bool.true_and, Bool.not_not, List.filter_true, List.length_range] at hlive
  rw [hroots, h.length_folds]
  omega

end Program

namespace Compile

open Program

variable {settings : Settings} {d : Stream.Decoded} {f : Flow}

theorem tracked_optimize (hw : ∀ item ∈ d.items, item.WellFormed) (hf : Flow.ofProgram d.program = .ok f) :
    Tracked d.program (optimize settings d f).live settings.groupLimit.toNat (optimize settings d f).program
      (optimize settings d f).folds.reverse := by
  have ho : Optimum settings d (optimize settings d f) := optimum_optimize hw hf
  have hq := handed_self ho.grouped ho.formed ho.sound
  have hl := ho.sound
  rw [live_optimize] at hq hl ⊢
  rw [optimize_eq]
  by_cases hfold : settings.fold = true
  · simp only [hfold, if_true, List.reverse_reverse]
    exact tracked_fold hl hq _ {}
  · simp only [hfold]
    exact tracked_self hq

theorem groups_eq (e : Emission) : e.groups = e.items.countP Stream.Item.isGroup := by
  refine List.countP_congr ?_
  intro item _
  cases item <;> rfl

/-- The counts that a compile takes from its folds and from what it emits. -/
theorem counts_of_write {bytesIn : Nat} {o : Optimized} {c : Compiled} {e : Emission}
    (h : write bytesIn settings o = .ok c) (hw : Written settings o c e) :
    c.stats.folded = o.folds.length ∧ c.stats.emitted = e.items.length ∧ c.stats.groups = e.groups := by
  have hlimit : ¬settings.registerLimit.toNat < o.program.inFlight o.live (o.program.chains o.live).flatten :=
    Nat.not_lt.mpr hw.limit
  have hnumbered : Renumbering.ofOrder o.program o.live (o.program.chains o.live).flatten = .ok c.renumbering :=
    hw.numbered
  simp only [write, hw.links, hlimit, if_false, hnumbered, hw.emitted] at h
  have hs : c.stats = _ := (congrArg Compiled.stats (Except.ok.inj h)).symm
  rw [hs]
  exact ⟨rfl, rfl, rfl⟩

structure Conserved (d : Stream.Decoded) (o : Optimized) (c : Compiled) (d' : Stream.Decoded) : Prop where
  once : o.order.Nodup
  mem_order : ∀ i, i ∈ o.order ↔ i < d.program.size ∧ o.live.isLive i = true
  /-- A chain is emitted in one run, from a step that nothing feeds, each step before the one it feeds, to its root. -/
  runs : ∀ (root : Nat) (n : Node), o.program[root]? = some n → n.isFolded = false → o.live.isLive root = true →
    (∃ before after, o.order = before ++ o.program.chain root ++ after) ∧
    (∀ i, (o.program.chain root).head? = some i → o.program.prev? i = none) ∧
    (o.program.chain root).IsChain (fun i j => o.program.next? i = some j) ∧
    (o.program.chain root).getLast? = some root
  roots : (o.order.filter fun i => !o.program[i]?.any Node.isFolded).Pairwise (· < ·)
  others : (o.order.filter fun i => o.program[i]?.any fun n => n.instr.category ≠ .compute).Pairwise (· < ·)
  decoded : c.stats.decoded = d.program.size
  removed : c.stats.removed = ((List.range d.program.size).filter fun i => !o.live.isLive i).length
  folded : c.stats.folded = (foldedSince d.program o.program).length
  balance : c.stats.decoded = c.stats.removed + c.stats.folded +
    ((List.range d.program.size).filter fun i => o.live.isLive i && d.program[i]?.any Node.isFolded).length +
    c.stats.emitted
  emitted : c.stats.emitted = d'.items.length
  groups : c.stats.groups = d'.items.countP Stream.Item.isGroup

/-- A chain of an optimised program is emitted in one run. -/
theorem runs_order {q p : Program} {l : Liveness} (h : q.Handed l p) {root : Nat} {n : Node}
    (hn : p[root]? = some n) (hroot : n.isFolded = false) (hlive : l.isLive root = true) :
    (∃ before after, p.emissionOrder l = before ++ p.chain root ++ after) ∧
    (∀ i, (p.chain root).head? = some i → p.prev? i = none) ∧
    (p.chain root).IsChain (fun i j => p.next? i = some j) ∧ (p.chain root).getLast? = some root := by
  have hmem : root ∈ p.liveRoots l := by
    rw [liveRoots, List.mem_filter, List.mem_range, hlive, hn, Option.any_some, hroot]
    exact ⟨lt_size_of_getElem? hn, rfl⟩
  obtain ⟨before, after, hsplit⟩ := List.append_of_mem hmem
  obtain ⟨front, hfront, -⟩ := exists_chain_eq h.linked root
  refine ⟨⟨(before.map p.chain).flatten, (after.map p.chain).flatten, ?_⟩, ?_, isChain_chain h.linked root, ?_⟩
  · rw [emissionOrder, chains, hsplit]
    simp
  · intro i hi
    exact prev?_head_chain h.linked hi
  · rw [hfront]
    simp

/-- Compiling neither loses nor repeats an instruction, and its counts say what became of each. -/
theorem compile_conserves {code : Bytes} {functions : UInt32} {c : Compiled}
    (h : compile code functions settings = .ok c) :
    ∃ d o d', Stream.decode code functions.toNat = .ok d ∧ read code functions settings = .ok o ∧
      c.program = o.program ∧ Stream.decode c.image.code functions.toNat = .ok d' ∧ Conserved d o c d' := by
  obtain ⟨o, ho, hc⟩ := compile_eq_ok_iff.mp h
  obtain ⟨d, hd, hopt⟩ := read_ok ho
  obtain ⟨e, hw⟩ := write_ok hc
  obtain ⟨hle, hitems, hcalls⟩ := Stream.decode_ok hd
  obtain ⟨doneAt, hdecode⟩ := decode_emitted hopt hw hle hcalls
  have hcode : c.image.code = e.code := by
    rw [hw.image]
    rfl
  obtain ⟨f, hf, rfl⟩ := exists_flow_of_read hd ho
  have ht : Tracked d.program _ settings.groupLimit.toNat _ _ := tracked_optimize hitems hf
  obtain ⟨hdecoded, hremoved, -⟩ := stats_of_write hc
  obtain ⟨hfolded, hemitted, hgroups⟩ := counts_of_write hc hw
  have hh := hopt.handed
  have hroots : e.items.length = ((optimize settings d f).program.liveRoots (optimize settings d f).live).length := by
    rw [← (Emission.ofChains_ok_iff.mp hw.emitted).2.1.length_eq, chains, List.length_map]
  rw [hh.size] at hdecoded
  rw [removed_optimize hitems hf] at hremoved
  have hlen := ht.length_folds
  have hsize := ht.size_eq hopt.grouped.linked
  rw [List.length_reverse] at hlen hsize
  refine ⟨d, _, ⟨e.items, d.calls, doneAt⟩, hd, ho, hw.program, by rw [hcode]; exact hdecode, ?_⟩
  refine ⟨nodup_order hh, ?_, fun root n hn hroot hlive => runs_order hh hn hroot hlive, ?_, ?_, hdecoded, hremoved,
    by rw [hfolded, hlen], ?_, hemitted, by rw [hgroups, groups_eq]⟩
  · intro i
    rw [← hh.size]
    exact mem_order_iff hh
  · refine pairwise_filter_order hh ?_
    intro i hi
    rw [hh.linked.any_isFolded] at hi
    simpa using hi
  · refine pairwise_filter_order hh ?_
    intro i hi
    obtain ⟨n, hn, hcat⟩ := (Option.any_eq_true _ _).mp hi
    by_contra hne
    obtain ⟨j, hj⟩ := Option.ne_none_iff_exists'.mp hne
    exact of_decide_eq_true hcat (hh.step_of_next? hn hj).1
  · omega

/-- A group of two, a negation that nothing reads and one that is written. -/
def mixedStream : Bytes :=
  [0x02, 0, 0, 0x0f, 2, 0x10, 0x80, 0, 0, 0, 0, 0x11, 0x02, 0, 0, 0, 1, 0x10, 0, 0, 0, 0, 5, 0x10, 0, 0, 0, 0, 2,
   0x80, 0, 0, 0, 0, 0, 0, 1, 0, 0, 0x80, 0, 0, 0, 0, 0, 0, 2, 0, 1]

/-- Of seven instructions one is dropped, two are folded, one is a step already and three stand on their own. -/
theorem compile_conserves_mixed : ∃ c d o d', compile mixedStream 0 {} = .ok c ∧ c.stats.decoded = 7 ∧
    c.stats.removed = 1 ∧ c.stats.folded = 2 ∧ c.stats.emitted = 3 ∧ c.stats.groups = 2 ∧
    Stream.decode mixedStream 0 = .ok d ∧ read mixedStream 0 {} = .ok o ∧ c.program = o.program ∧
    Stream.decode c.image.code 0 = .ok d' ∧ Conserved d o c d' := by
  obtain ⟨c, hc, hs⟩ := exists_of_any_ok (by decide +kernel : (compile mixedStream 0 {}).toOption.any (fun c =>
    c.stats.decoded = 7 ∧ c.stats.removed = 1 ∧ c.stats.folded = 2 ∧ c.stats.emitted = 3 ∧ c.stats.groups = 2) = true)
  obtain ⟨h1, h2, h3, h4, h5⟩ := of_decide_eq_true hs
  obtain ⟨d, o, d', hconserved⟩ := compile_conserves hc
  exact ⟨c, d, o, d', hc, h1, h2, h3, h4, h5, hconserved⟩

end Compile

end LaneScript
