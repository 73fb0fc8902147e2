/-
  LaneScript.Proofs.Nearest — a node takes the nearest result that it can take.

  A node may have several sources that are each the only use of some result, and the
  accumulator carries one of them. A sweep goes from the last node to the first, so it
  comes to the nearest of those results first. If it folds another, the nearer one was
  held back on its own account when the sweep came to it (`PassedOver`):
  (1) its chain and that of its reader were too long together. They still are at the
      end, since chains only grow (`Overlong.of_extends`);
  (2) or a store barred it. That may be over at the end, when the reader is taken: the
      step whose read was barred gets its value through the accumulator by then, or the
      node that stores was folded by a later sweep (`barred_of_swept`).
-/
import LaneScript.Proofs.Chaining

namespace LaneScript.Program

variable {q p p' : Program} {l : Liveness} {limit : Nat}

/-! ## Sweeps -/

def sweeps (p : Program) (l : Liveness) (limit : Nat) : Nat → Program
  | 0 => p
  | n + 1 => ((p.sweeps l limit n).firstRound l limit).program

theorem program_visitAll (nodes : List Nat) {f g : Folding} (h : f.program = g.program) :
    (nodes.foldl (Folding.visit l limit) f).program = (nodes.foldl (Folding.visit l limit) g).program := by
  induction nodes generalizing f g with
  | nil => exact h
  | cons i nodes ih =>
    refine ih ?_
    unfold Folding.visit
    rw [h]
    split
    · rfl
    · exact h
    · rfl
    · rfl

theorem program_round (f : Folding) : (f.round l limit).program = (f.program.firstRound l limit).program :=
  program_visitAll _ rfl

theorem sweeps_firstRound (p : Program) (n : Nat) :
    (p.firstRound l limit).program.sweeps l limit n = p.sweeps l limit (n + 1) := by
  induction n with
  | zero => rfl
  | succ n ih =>
    show ((((p.firstRound l limit).program.sweeps l limit n)).firstRound l limit).program = _
    rw [ih]
    rfl

/-- A run is as many sweeps as it counts rounds. -/
theorem run_eq_sweeps (rounds : Nat) (f : Folding) : ∃ n, (f.run l limit rounds).stats.rounds = f.stats.rounds + n ∧
    (f.run l limit rounds).program = f.program.sweeps l limit n := by
  induction rounds generalizing f with
  | zero => exact ⟨0, rfl, rfl⟩
  | succ rounds ih =>
    rw [Folding.run]
    split
    · exact ⟨1, rounds_round l limit f, program_round f⟩
    · obtain ⟨n, hn, hp⟩ := ih (f.round l limit)
      refine ⟨n + 1, ?_, ?_⟩
      · rw [hn, rounds_round]
        omega
      · rw [hp, program_round, sweeps_firstRound]

theorem fold_eq_sweeps (p : Program) (l : Liveness) (limit : Nat) :
    (p.fold l limit {}).program = p.sweeps l limit (p.fold l limit {}).stats.rounds := by
  obtain ⟨n, hn, hp⟩ := run_eq_sweeps (l := l) (p.size + 1) ⟨p, {}, []⟩
  rw [show (p.fold l limit {}).stats.rounds = 0 + n from hn, Nat.zero_add]
  exact hp

theorem foldsTo_sweeps (l : Liveness) (limit : Nat) (p : Program) {a b : Nat} (hab : a ≤ b) :
    FoldsTo l limit (p.sweeps l limit a) (p.sweeps l limit b) := by
  induction hab with
  | refl => exact .refl
  | step _ ih => exact ih.trans (foldsTo_round l limit ⟨_, {}, []⟩)

/-- A node that gets to feed something does so by one of the sweeps. -/
theorem exists_sweep {i j n : Nat} (hi : p.next? i = none) (hn : (p.sweeps l limit n).next? i = some j) :
    ∃ s < n, (p.sweeps l limit s).next? i = none ∧ ∃ k, (p.sweeps l limit (s + 1)).next? i = some k := by
  induction n generalizing j with
  | zero =>
    rw [show p.sweeps l limit 0 = p from rfl, hi] at hn
    cases hn
  | succ n ih =>
    cases e : (p.sweeps l limit n).next? i with
    | none => exact ⟨n, Nat.lt_succ_self n, e, j, hn⟩
    | some k =>
      obtain ⟨s, hs, hrest⟩ := ih e
      exact ⟨s, Nat.lt_succ_of_lt hs, hrest⟩

/-- A sweep makes a node feed another by folding it when it comes to it. -/
theorem verdict_of_swept (hl : l.Sound q) (h : q.Handed l p) {i j : Nat} (hi : p.next? i = none)
    (hj : (p.firstRound l limit).program.next? i = some j) :
    ∃ pos, (p.foundAt l limit i).verdict l limit i = .fold j pos := by
  have hlt : i < p.size := by
    rw [h.size, ← (handed_firstRound hl h limit).size]
    exact lt_size_of_next? hj
  have hfound : (p.sweptTo l limit (i + 1)).program.next? i = none := by
    rw [next?_sweptTo hl h hlt (Nat.le_refl _) (.inl (Nat.lt_succ_self i)), sweptTo_size, hi]
  rw [← sweptTo_zero, next?_sweptTo hl h (Nat.zero_le i) (Nat.le_of_lt hlt) (.inr (Nat.le_refl i)),
    sweptTo_of_lt hlt] at hj
  unfold Folding.visit at hj
  split at hj
  · rename_i j' pos hv
    have hnext := (next?_fold hl (handed_sweptTo hl h limit (i + 1)) hv).2.2 i
    rw [if_pos rfl] at hnext
    cases hnext.symm.trans hj
    exact ⟨pos, hv⟩
  · rw [hfound] at hj
    cases hj
  · rw [hfound] at hj
    cases hj
  · rw [hfound] at hj
    cases hj

/-! ## What holds a node back -/

def Overlong (p : Program) (limit i j : Nat) : Prop :=
  limit < (p.chain i).length + ((p.chain (p.root j)).dropWhile (· ≠ j)).length

instance (p : Program) (limit i j : Nat) : Decidable (p.Overlong limit i j) := inferInstanceAs (Decidable (_ < _))

/-- Chains that are too long stay so. -/
theorem Overlong.of_extends {i j : Nat} (ho : p.Overlong limit i j) (he : Extends p p') (h : p.Linked)
    (h' : p'.Linked) : p'.Overlong limit i j := by
  have hbelow := (he.chain_suffix h h' i).length_le
  have habove := he.length_above_le h h' j
  unfold Overlong at ho ⊢
  omega

/-- What can be folded and is not is held back. -/
theorem held_of_canFold (h : q.Handed l p) (hf : l.flow.Exact q) {k j pos : Nat} {n m : Node} {r : UInt16}
    (hn : p[k]? = some n) (hc : p.CanFold l k j pos n m r) (hv : p.verdict l limit k ≠ .fold j pos) :
    p.Overlong limit k j ∨ ∃ m r w, p.Bars l k m r w := by
  by_cases hlong : p.Overlong limit k j
  · exact .inl hlong
  · refine .inr ((exists_bars_iff h hf hc.only).mpr ?_)
    by_contra hloses
    exact hv (by rw [verdict_of_canFold hn hc, if_neg (show ¬limit < _ from hlong), if_neg hloses])

/-- What bars a live node that feeds nothing is the node itself or comes behind it. -/
theorem Bars.le_of_live {k m w : Nat} {r : UInt16} (hb : p.Bars l k m r w) (h : q.Handed l p) (hlive : l.isLive k = true)
    (hk : p.next? k = none) : k ≤ w := by
  have hroot : p.root m = k := (mem_chain_iff h.linked hk).mp hb.moved
  have hm : l.isLive m = true := by rw [← h.live_root m, hroot, hlive]
  by_contra hlt
  have := h.steady m r w hm hb.read hb.after (by omega)
  rw [hb.stores] at this
  cases this

/-! ## One sweep -/

section Sweep

variable (hl : l.Sound q) (h : q.Handed l p) {k : Nat} (hk : k < p.size)
include hl h hk

theorem extends_foundAt (limit : Nat) : Extends (p.foundAt l limit k) (p.firstRound l limit).program := by
  have hs := foldsTo_sweptTo l limit (Nat.zero_le (k + 1)) hk
  rw [sweptTo_zero] at hs
  exact (handed_of_foldsTo hl (handed_sweptTo hl h limit (k + 1)) hs).2

/-- A sweep that passes over a computation and folds an earlier node into its only reader finds it held back. -/
theorem held_of_swept {i j pos : Nat} {n m : Node} (hi : p.next? i = none)
    (hj : (p.firstRound l limit).program.next? i = some j) (hik : i < k) (hn : q[k]? = some n)
    (hc : n.instr.category = .compute) (hlive : l.isLive k = true) (hone : l.liveReaders k = [(j, pos)])
    (hm : q[j]? = some m) (hout : m.instr.category = .output → pos = 1)
    (hloose : (p.firstRound l limit).program.next? k = none) :
    (p.foundAt l limit k).Overlong limit k j ∨ ∃ m r w, (p.foundAt l limit k).Bars l k m r w := by
  have hq (a : Nat) : q.Handed l (p.foundAt l limit a) := handed_sweptTo hl h limit (a + 1)
  have hext : Extends (p.foundAt l limit k) (p.foundAt l limit i) :=
    (handed_of_foldsTo hl (hq k) (foldsTo_sweptTo l limit (Nat.succ_le_succ (Nat.le_of_lt hik)) hk)).2
  obtain ⟨pos', hv⟩ := verdict_of_swept hl h hi hj
  obtain ⟨a, b, c, -, hcan, -⟩ := verdict_eq_fold_iff.mp hv
  -- When the sweep comes to `i` the reader is fed by nothing, so it was free at `k`.
  have hfree : (p.foundAt l limit k).prev? j = none :=
    hext.prev?_eq_none (hq k).linked (hq i).linked (by rw [prev?_eq hcan.reader, hcan.unfed])
  obtain ⟨n', hn'⟩ := exists_node (p := p.foundAt l limit k) (by rw [(hq k).size]; exact lt_size_of_getElem? hn)
  obtain ⟨m', hm'⟩ := exists_node (p := p.foundAt l limit k) (by rw [(hq k).size]; exact lt_size_of_getElem? hm)
  have hfits : m'.instr.category = .compute ∨ m'.instr.category = .output ∧ pos = 1 := by
    rw [(hq k).category_eq hm' hm]
    rcases hcan.fits with hcat | ⟨hcat, -⟩
    · rw [(hq i).category_eq hcan.reader hm] at hcat
      exact .inl hcat
    · rw [(hq i).category_eq hcan.reader hm] at hcat
      exact .inr ⟨hcat, hout hcat⟩
  obtain ⟨r, hr⟩ := canFold_of_reader hl (hq k) hn' (by rw [(hq k).category_eq hn' hn, hc])
    ((extends_foundAt hl h hk limit).next?_eq_none hloose) hlive hone hm' hfree hfits
  exact held_of_canFold (hq k) hl.flow hn' hr (verdict_foundAt hl h hk hloose)

/-- A store that bars a node when a sweep comes to it bars it later as well, unless the read is gone or the store was
    folded after the sweep. -/
theorem barred_of_swept {m w : Nat} {r : UInt16} (hp' : q.Handed l p')
    (he : Extends (p.firstRound l limit).program p') (hlive : l.isLive k = true) (hloose : p'.next? k = none)
    (hb : (p.foundAt l limit k).Bars l k m r w) :
    p'.Bars l k m r w ∨ .reg r ∉ p'.sourcesOf m ∨
      k < w ∧ (p.firstRound l limit).program.next? w = none ∧ ∃ b, p'.next? w = some b := by
  have hg : q.Handed l (p.foundAt l limit k) := handed_sweptTo hl h limit (k + 1)
  have hext := (extends_foundAt hl h hk limit).trans he
  by_cases hr : .reg r ∈ p'.sourcesOf m
  · cases hw : p'.next? w with
    | none => exact .inl (hb.of_extends hg hp' hext hr hw)
    | some b =>
      have hle := hb.le_of_live hg hlive (hext.next?_eq_none hloose)
      have hne : k ≠ w := by
        rintro rfl
        rw [hloose] at hw
        cases hw
      -- The sweep had visited the store before it came to `k`.
      refine .inr (.inr ⟨by omega, ?_, b, rfl⟩)
      rw [← sweptTo_zero, next?_sweptTo hl h (Nat.zero_le (k + 1)) hk (.inr (by omega))]
      exact hg.next?_of_stores hb.stores
  · exact .inr (.inl hr)

end Sweep

/-! ## The nearer producer -/

/-- Folding `p` folds `i` into `j` and leaves `k` alone, a nearer computation with `j` as its only live reader. -/
structure Rivals (p : Program) (l : Liveness) (limit i j k : Nat) : Prop where
  folded : (i, j) ∈ (p.fold l limit {}).folds
  nearer : i < k
  live : l.isLive k = true
  compute : ∃ n, p[k]? = some n ∧ n.instr.category = .compute
  loose : (p.fold l limit {}).program.next? k = none
  /-- An output takes it as its value, not as its index. -/
  only : ∃ pos, l.liveReaders k = [(j, pos)] ∧ ∀ m, p[j]? = some m → m.instr.category = .output → pos = 1

structure PassedOver (p : Program) (l : Liveness) (limit i j k sweep : Nat) : Prop where
  folded : ∃ pos, ((p.sweeps l limit sweep).foundAt l limit i).verdict l limit i = .fold j pos
  held : ((p.sweeps l limit sweep).foundAt l limit k).Overlong limit k j ∨
    ∃ m r w, ((p.sweeps l limit sweep).foundAt l limit k).Bars l k m r w
  /-- Chains that were too long are too long at the end. -/
  long : ((p.sweeps l limit sweep).foundAt l limit k).Overlong limit k j →
    (p.fold l limit {}).program.Overlong limit k j
  /-- A store bars `k` to the end unless the read is gone or the store was folded by a later sweep. -/
  barred : ∀ m r w, ((p.sweeps l limit sweep).foundAt l limit k).Bars l k m r w →
    (p.fold l limit {}).program.Bars l k m r w ∨ .reg r ∉ (p.fold l limit {}).program.sourcesOf m ∨
      k < w ∧ (p.sweeps l limit (sweep + 1)).next? w = none ∧ ∃ b, (p.fold l limit {}).program.next? w = some b

theorem exists_passedOver (hl : l.Sound q) (h : q.Handed l q) {i j k : Nat} (hr : q.Rivals l limit i j k) :
    ∃ sweep < (q.fold l limit {}).stats.rounds, q.PassedOver l limit i j k sweep := by
  obtain ⟨n, hn, hc⟩ := hr.compute
  obtain ⟨pos, hone, hout⟩ := hr.only
  have ht := tracked_fold hl h limit {}
  obtain ⟨hi, hij⟩ := (ht.mem_folds i j).mp hr.folded
  obtain ⟨m, hm⟩ := exists_node (p := q) (by rw [← ht.handed.size]; exact ht.handed.linked.next_lt_size hij)
  obtain ⟨sweep, hlt, hbefore, j', hafter⟩ := exists_sweep hi (by rw [← fold_eq_sweeps]; exact hij)
  have hstart := (handed_of_foldsTo hl h (foldsTo_sweeps l limit q (Nat.zero_le sweep))).1
  have hnext : q.Handed l (q.sweeps l limit (sweep + 1)) := handed_firstRound hl hstart limit
  have hrest : Extends (q.sweeps l limit (sweep + 1)) (q.fold l limit {}).program := by
    rw [fold_eq_sweeps]
    exact (handed_of_foldsTo hl hnext (foldsTo_sweeps l limit q hlt)).2
  have hsame := hrest i j' hafter
  rw [hij] at hsame
  cases hsame
  have hklt : k < (q.sweeps l limit sweep).size := by
    rw [hstart.size]
    exact lt_size_of_getElem? hn
  have hfound : q.Handed l ((q.sweeps l limit sweep).foundAt l limit k) := handed_sweptTo hl hstart limit (k + 1)
  refine ⟨sweep, hlt, verdict_of_swept hl hstart hbefore hafter, ?_, ?_, ?_⟩
  · exact held_of_swept hl hstart hklt hbefore hafter hr.nearer hn hc hr.live hone hm (hout m hm)
      (hrest.next?_eq_none hr.loose)
  · intro hlong
    exact hlong.of_extends ((extends_foundAt hl hstart hklt limit).trans hrest) hfound.linked ht.handed.linked
  · intro m r w hb
    exact barred_of_swept hl hstart hklt ht.handed hrest hr.live hr.loose hb

end LaneScript.Program

namespace LaneScript.Compile

open Program

/-- Where folding a program that was read, with or without dropping first, folds a node into a reader and leaves a
    nearer one alone, the nearer one was held back when the sweep that folded the other came to it. -/
theorem fold_nearest {code : Bytes} {functions : Nat} {d : Stream.Decoded} {f : Flow} {l : Liveness}
    (hd : Stream.decode code functions = .ok d) (hf : Flow.ofProgram d.program = .ok f) {settings : Settings}
    (hl : (drop settings d.program (Liveness.ofFlow f d.program)).1 = l) {limit i j k : Nat}
    (hr : d.program.Rivals l limit i j k) :
    ∃ sweep < (d.program.fold l limit {}).stats.rounds, d.program.PassedOver l limit i j k sweep := by
  have ho : Optimum settings d (optimize settings d f) := optimum_optimize (Stream.decode_ok hd).2.1 hf
  rw [← live_optimize] at hl
  subst hl
  exact exists_passedOver ho.sound (handed_self ho.grouped ho.formed ho.sound) hr

/-- Two negations of an index; the sum of one and the absolute value of the other is written to a place whose register
    held the latter. -/
def contestedStream : Bytes :=
  [0x02, 0, 0, 0x10, 0, 0, 0, 0, 1, 0x10, 0, 0, 0, 0, 3, 0x11, 0, 0, 1, 0, 2, 0x02, 0, 1,
   0x30, 0, 0, 3, 0, 2, 0, 4, 0x80, 0, 0, 0, 0, 1, 0, 4, 0, 0]

/-- The negation is further from the sum than the absolute value, whose own source is the accumulator at the end. -/
theorem contestedStream_rivals : ∃ d f, Stream.decode contestedStream 0 = .ok d ∧ Flow.ofProgram d.program = .ok f ∧
    d.program.Rivals (Liveness.ofFlow f d.program) 16 2 5 3 ∧
    ¬(d.program.fold (Liveness.ofFlow f d.program) 16 {}).program.Overlong 16 3 5 ∧
    ((d.program.fold (Liveness.ofFlow f d.program) 16 {}).program.chain 3).any
      ((d.program.fold (Liveness.ofFlow f d.program) 16 {}).program.losesSource (Liveness.ofFlow f d.program)
        ((d.program.fold (Liveness.ofFlow f d.program) 16 {}).program.root 5)) = false := by
  obtain ⟨d, hd, hflow⟩ := exists_ok_of_any (by decide +kernel : (Stream.decode contestedStream 0).toOption.any (fun d =>
    (Flow.ofProgram d.program).toOption.any fun f =>
      (2, 5) ∈ (d.program.fold (Liveness.ofFlow f d.program) 16 {}).folds ∧
      (Liveness.ofFlow f d.program).isLive 3 = true ∧
      (d.program[3]?.any fun n => n.instr.category = .compute) = true ∧
      (d.program.fold (Liveness.ofFlow f d.program) 16 {}).program.next? 3 = none ∧
      (Liveness.ofFlow f d.program).liveReaders 3 = [(5, 1)] ∧
      ¬(d.program.fold (Liveness.ofFlow f d.program) 16 {}).program.Overlong 16 3 5 ∧
      ((d.program.fold (Liveness.ofFlow f d.program) 16 {}).program.chain 3).any
        ((d.program.fold (Liveness.ofFlow f d.program) 16 {}).program.losesSource (Liveness.ofFlow f d.program)
          ((d.program.fold (Liveness.ofFlow f d.program) 16 {}).program.root 5)) = false) = true)
  obtain ⟨f, hf, hruns⟩ := exists_ok_of_any hflow
  obtain ⟨hfold, hlive, hn, hk, hone, hlong, hloses⟩ := of_decide_eq_true hruns
  obtain ⟨n, hn, hc⟩ := (Option.any_eq_true _ _).mp hn
  exact ⟨d, f, hd, hf, ⟨hfold, by decide, hlive, ⟨n, hn, of_decide_eq_true hc⟩, hk, 1, hone, fun _ _ _ => rfl⟩,
    hlong, hloses⟩

theorem fold_nearest_negation : ∃ d f, Stream.decode contestedStream 0 = .ok d ∧ Flow.ofProgram d.program = .ok f ∧
    d.program.Rivals (Liveness.ofFlow f d.program) 16 2 5 3 ∧
    ∃ sweep < (d.program.fold (Liveness.ofFlow f d.program) 16 {}).stats.rounds,
      d.program.PassedOver (Liveness.ofFlow f d.program) 16 2 5 3 sweep := by
  obtain ⟨d, f, hd, hf, hr, -, -⟩ := contestedStream_rivals
  exact ⟨d, f, hd, hf, hr, fold_nearest hd hf (show (drop { prune := false } d.program _).1 = _ from rfl) hr⟩

/-- What held a node back when the sweep came to it need not hold it back at the end. -/
theorem fold_nearest_contested : ∃ d f, Stream.decode contestedStream 0 = .ok d ∧ Flow.ofProgram d.program = .ok f ∧
    d.program.Rivals (Liveness.ofFlow f d.program) 16 2 5 3 ∧
    ¬(d.program.fold (Liveness.ofFlow f d.program) 16 {}).program.Overlong 16 3 5 ∧ ¬∃ m r w,
      (d.program.fold (Liveness.ofFlow f d.program) 16 {}).program.Bars (Liveness.ofFlow f d.program) 3 m r w := by
  obtain ⟨d, f, hd, hf, hr, hlong, hloses⟩ := contestedStream_rivals
  have ho : Optimum { prune := false } d (optimize { prune := false } d f) :=
    optimum_optimize (Stream.decode_ok hd).2.1 hf
  have hl : (Liveness.ofFlow f d.program).Sound d.program := by
    have hs := ho.sound
    rw [live_optimize] at hs
    exact hs
  have ht := tracked_fold hl (handed_self ho.grouped ho.formed hl) 16 {}
  refine ⟨d, f, hd, hf, hr, hlong, ?_⟩
  obtain ⟨pos, hone, -⟩ := hr.only
  rw [exists_bars_iff ht.handed hl.flow hone, hloses]
  decide

end LaneScript.Compile
