/-
  LaneScript.Proofs.Pruning — what pruning drops, told from where values go.

  Node `i` serves node `j` if `j` reads a register value that `i` stored last, or if `i`
  hands its result to `j` through the accumulator (`Serves`). A node is needed if it is
  noticed or serves, over any number of nodes, one that is.

  Proved of one pruning of a program that was read (`Exacting`): the nodes it leaves
  alive are the needed ones (`live_iff_needed`), so nothing alive depends on anything
  dead and a group is dead or alive as a whole; the results that it redirects are those
  that no live node reads from their call; and its counts are the numbers of marks.
  A node serves later nodes only, so one backward pass sees all that a node serves
  before it comes to the node: the induction goes from the last node down.
-/
import LaneScript.Proofs.Described
import LaneScript.Proofs.Excerpt
import LaneScript.Workbench

namespace LaneScript

namespace Program

def ReadsFrom (p : Program) (i j : Nat) (r : UInt16) : Prop :=
  .reg r ∈ p.sourcesOf j ∧ lastStore p.instrs (.reg r) j = some i

inductive Serves (p : Program) (i j : Nat) : Prop
  | read (r : UInt16) : p.ReadsFrom i j r → Serves p i j
  | link : p.next? i = some j → Serves p i j

/-- Something outside the registers notices what node `i` computes, over any number of nodes that it serves. -/
def Needed (p : Program) (i : Nat) : Prop := ∃ j, Relation.ReflTransGen p.Serves i j ∧ p.noticed j = true

variable {p : Program} {l : Liveness}

theorem Serves.lt {i j : Nat} (h : p.Serves i j) (hp : p.Linked) : i < j := by
  cases h with
  | read r hr => exact lastStore_lt hr.2
  | link hn => exact hp.forward i j hn

theorem Serves.lt_size {i j : Nat} (h : p.Serves i j) : i < p.size := by
  cases h with
  | read r hr => exact Liveness.producer_lt_size (s := .reg r) hr.2
  | link hn => exact lt_size_of_next? hn

theorem Serves.served_lt_size {i j : Nat} (h : p.Serves i j) (hp : p.Linked) : j < p.size := by
  cases h with
  | read r hr =>
    obtain ⟨m, hm, -⟩ := mem_sourcesOf.mp hr.1
    exact lt_size_of_getElem? hm
  | link hn => exact hp.next_lt_size hn

/-- What reads node `i` is noted as a reader of it. -/
theorem readsFrom_iff (hf : l.flow.Exact p) {i j : Nat} (hi : i < p.size) {r : UInt16} : p.ReadsFrom i j r ↔
    ∃ pos, (j, pos) ∈ l.flow.readers.getD i #[] ∧ (p.sourcesOf j)[pos]? = some (.reg r) := by
  constructor
  · intro h
    obtain ⟨pos, hpos⟩ := List.getElem?_of_mem h.1
    exact ⟨pos, (hf.mem_readers hi).mpr ⟨.reg r, hpos, h.2⟩, hpos⟩
  · rintro ⟨pos, hread, hpos⟩
    obtain ⟨s, hs, hw⟩ := (hf.mem_readers hi).mp hread
    rw [hpos] at hs
    cases hs
    exact ⟨List.mem_of_getElem? hpos, hw⟩

theorem exists_serves (hf : l.flow.Exact p) {i j pos : Nat} (hi : i < p.size)
    (h : (j, pos) ∈ l.flow.readers.getD i #[]) : p.Serves i j := by
  obtain ⟨s, hs, hw⟩ := (hf.mem_readers hi).mp h
  cases s with
  | reg r => exact .read r ⟨List.mem_of_getElem? hs, hw⟩
  | const c => cases hw
  | acc => cases hw

theorem noticed_eq_false_iff {i : Nat} (hi : i < p.size) :
    p.noticed i = false ↔ ∃ n, p[i]? = some n ∧ n.instr.isPure = true := by
  obtain ⟨n, hn⟩ := exists_node hi
  simp [noticed, hn]

end Program

namespace Liveness

open Program

variable {l : Liveness} {p : Program}

/-! ## Dead nodes -/

/-- A node is useless if it is not noticed and all that it serves is dead. -/
theorem isUseless_iff_serves (hf : l.flow.Exact p) {i : Nat} (hi : i < p.size) :
    l.isUseless p i = true ↔ p.noticed i = false ∧ ∀ j, p.Serves i j → l.isLive j = false := by
  rw [isUseless_iff, noticed_eq_false_iff hi]
  constructor
  · rintro ⟨n, hn, hpure, hread, hnext⟩
    refine ⟨⟨n, hn, hpure⟩, ?_⟩
    intro j hj
    cases hj with
    | read r hr =>
      obtain ⟨pos, hpos, -⟩ := (readsFrom_iff hf hi).mp hr
      exact hread j pos hpos
    | link hj => exact hnext j hj
  · rintro ⟨⟨n, hn, hpure⟩, hserves⟩
    refine ⟨n, hn, hpure, ?_, ?_⟩
    · intro j pos hread
      exact hserves j (exists_serves hf hi hread)
    · intro j hj
      exact hserves j (.link hj)

theorem Exact.live_iff_serves (h : l.Exact p) {i : Nat} (hi : i < p.size) :
    l.isLive i = true ↔ p.noticed i = true ∨ ∃ j, p.Serves i j ∧ l.isLive j = true := by
  rw [h.live i hi, Bool.not_eq_true', ← Bool.not_eq_true, isUseless_iff_serves h.flow hi, not_and_or]
  simp only [Bool.not_eq_false, not_forall, exists_prop]

/-- What serves a live node is alive. -/
theorem Exact.live_of_serves (h : l.Exact p) {i j : Nat} (hs : p.Serves i j) (hj : l.isLive j = true) :
    l.isLive i = true :=
  (h.live_iff_serves hs.lt_size).mpr (.inr ⟨j, hs, hj⟩)

theorem Exact.live_of_path (h : l.Exact p) {i j : Nat} (hs : Relation.ReflTransGen p.Serves i j)
    (hj : l.isLive j = true) : l.isLive i = true := by
  induction hs using Relation.ReflTransGen.head_induction_on with
  | refl => exact hj
  | head hs _ ih => exact h.live_of_serves hs ih

/-- The nodes that are alive are those that are needed. -/
theorem Exact.live_iff_needed (h : l.Exact p) (hp : p.Linked) {i : Nat} (hi : i < p.size) :
    l.isLive i = true ↔ p.Needed i := by
  constructor
  · -- A live node is noticed or serves a live one behind it.
    induction hk : p.size - i using Nat.strongRecOn generalizing i with
    | ind k ih =>
      intro hlive
      rcases (h.live_iff_serves hi).mp hlive with hn | ⟨j, hs, hj⟩
      · exact ⟨i, .refl, hn⟩
      · have hlt := hs.lt hp
        obtain ⟨z, hz, hn⟩ := ih (p.size - j) (by omega) (hs.served_lt_size hp) rfl hj
        exact ⟨z, hz.head hs, hn⟩
  · rintro ⟨z, hz, hn⟩
    obtain ⟨m, hm, -⟩ := (Option.any_eq_true _ _).mp hn
    exact h.live_of_path hz ((h.live_iff_serves (lt_size_of_getElem? hm)).mpr (.inl hn))

/-- A dead node is pure, and so is all that it serves, near or far. -/
theorem Exact.dead_iff (h : l.Exact p) (hp : p.Linked) (hsize : l.dead.size = p.size) {i : Nat} :
    l.isLive i = false ↔ ∃ n, p[i]? = some n ∧ n.instr.isPure = true ∧
      ∀ j m, Relation.TransGen p.Serves i j → p[j]? = some m → m.instr.isPure = true := by
  constructor
  · intro hdead
    have hi : i < p.size := by
      by_contra hge
      rw [isLive, Array.getD_eq_getD_getElem?, Array.getElem?_eq_none (by omega)] at hdead
      cases hdead
    have hno : ¬ p.Needed i := by
      rw [← h.live_iff_needed hp hi, hdead]
      exact Bool.false_ne_true
    -- Where a path leads to a node that is not pure, the node is needed.
    have pure {j : Nat} {m : Node} (hpath : Relation.ReflTransGen p.Serves i j) (hm : p[j]? = some m) :
        m.instr.isPure = true := by
      by_contra hne
      exact hno ⟨j, hpath, by simpa [noticed, hm] using hne⟩
    obtain ⟨n, hn⟩ := exists_node hi
    exact ⟨n, hn, pure .refl hn, fun j m hpath => pure hpath.to_reflTransGen⟩
  · rintro ⟨n, hn, hpure, hall⟩
    rw [← Bool.not_eq_true, h.live_iff_needed hp (lt_size_of_getElem? hn)]
    rintro ⟨j, hpath, hnoticed⟩
    obtain ⟨m, hm, hne⟩ := (Option.any_eq_true _ _).mp hnoticed
    rcases Relation.reflTransGen_iff_eq_or_transGen.mp hpath with rfl | hpath
    · rw [hn] at hm
      cases hm
      rw [hpure] at hne
      cases hne
    · rw [hall j m hpath hm] at hne
      cases hne

/-! ## Unread results -/

theorem pairwise_unreadAt (l : Liveness) (p : Program) (i : Nat) : (l.unreadAt p i).Pairwise (· < ·) := by
  unfold unreadAt
  split
  · exact .nil
  · split
    · refine List.Pairwise.sublist (Compile.filterMap_sublist_map (g := Prod.snd) ?_ _) ?_
      · intro x k hx
        obtain ⟨dest, pos⟩ := x
        cases dest with
        | acc => cases hx
        | reg r =>
          obtain ⟨-, hpos⟩ := Option.ite_none_left_eq_some.mp hx
          exact (Option.some.inj hpos).symm
      · rw [List.zipIdx_map_snd]
        exact List.pairwise_lt_range'
    · exact .nil

/-- A result of a call is marked just when no live node reads its register from the call. -/
theorem mem_unreadAt_iff (hf : l.flow.Exact p) {i pos : Nat} {n : Node} (hn : p[i]? = some n)
    (hc : n.instr.category = .call) : pos ∈ l.unreadAt p i ↔
      ∃ r, n.instr.dests[pos]? = some (.reg r) ∧ ∀ j, p.ReadsFrom i j r → l.isLive j = false := by
  have hi := lt_size_of_getElem? hn
  rw [mem_unreadAt]
  constructor
  · rintro ⟨m, r, hm, -, hd, hno⟩
    rw [hn] at hm
    cases hm
    refine ⟨r, hd, ?_⟩
    intro j hj
    obtain ⟨k, hread, hk⟩ := (readsFrom_iff hf hi).mp hj
    by_contra hlive
    have hfalse := hno (j, k) (mem_liveReaders.mpr ⟨hread, by simpa using hlive⟩)
    rw [readsRegister_iff.mpr hk] at hfalse
    cases hfalse
  · rintro ⟨r, hd, hno⟩
    refine ⟨n, r, hn, hc, hd, ?_⟩
    rintro ⟨j, k⟩ huse
    obtain ⟨hread, hlive⟩ := mem_liveReaders.mp huse
    rw [← Bool.not_eq_true, readsRegister_iff]
    intro hk
    rw [hno j ((readsFrom_iff hf hi).mpr ⟨k, hread, hk⟩)] at hlive
    cases hlive

theorem counts_redirect (acc : Liveness × Nat × Nat) (k : Nat) : (redirect p acc k).2 =
    (acc.2.1 + (acc.1.unreadAt p k).length, max acc.2.2 (acc.1.unreadAt p k).length) := by
  obtain ⟨l, redirected, widest⟩ := acc
  simp only [redirect, unreadAt]
  cases p[k]? with
  | none => simp
  | some n =>
    by_cases hc : n.instr.category = .call
    · simp [hc]
    · simp [hc]

/-- Redirecting counts the marks that it makes, and the most at one node. -/
theorem counts_redirects (hu : l.unread = Array.replicate p.size []) {k : Nat} (hk : k ≤ p.size) :
    ((List.range k).foldl (redirect p) (l, 0, 0)).2 =
      (total ((List.range k).map fun i => (l.unreadAt p i).length),
        largest ((List.range k).map fun i => (l.unreadAt p i).length)) := by
  induction k with
  | zero => rfl
  | succ k ih =>
    obtain ⟨hflow, hdead, -, -⟩ := redirect_run (p := p) hu (show k ≤ p.size by omega)
    rw [List.range_succ, List.foldl_append, List.foldl_cons, List.foldl_nil, counts_redirect,
      unreadAt_congr hflow hdead, ih (by omega), List.map_append, total_append, largest_append]
    simp [largest]

/-! ## One pruning -/

structure Exacting (p : Program) (l : Liveness) (stats : PruneStats) : Prop where
  /-- Dead is what is pure and leads to nothing that is not. -/
  dead : ∀ i, l.isLive i = false ↔ ∃ n, p[i]? = some n ∧ n.instr.isPure = true ∧
    ∀ j m, Relation.TransGen p.Serves i j → p[j]? = some m → m.instr.isPure = true
  closed : ∀ i j, p.Serves i j → l.isLive j = true → l.isLive i = true
  /-- A group is dead or alive as a whole. -/
  groups : ∀ i, l.isLive i = l.isLive (p.root i)
  /-- The marked results of a call, in order, are those that no live node reads from it. -/
  unread : ∀ (i : Nat) (n : Node), p[i]? = some n → n.instr.category = .call →
    (l.unread.getD i []).Pairwise (· < ·) ∧ ∀ pos, pos ∈ l.unread.getD i [] ↔
      ∃ r, n.instr.dests[pos]? = some (.reg r) ∧ ∀ j, p.ReadsFrom i j r → l.isLive j = false
  others : ∀ (i : Nat) (n : Node), p[i]? = some n → n.instr.category ≠ .call → l.unread.getD i [] = []
  removed : stats.removed = (List.range p.size).countP fun i => !l.isLive i
  redirected : stats.redirected = total ((List.range p.size).map fun i => (l.unread.getD i []).length)
  widest : stats.widest = largest ((List.range p.size).map fun i => (l.unread.getD i []).length)
  flagged : stats.flags = .redundantInstruction ↔ ∃ i, l.isLive i = false
  clear : stats.flags = .clear ↔ ∀ i, l.isLive i = true

theorem size_dead_prune {f : Flow} (hf : f.Exact p) (hp : p.Linked) :
    ((ofFlow f p).prune p).1.dead.size = p.size := by
  have h := sweep_swept hf hp
  rw [prune_fst, (redirect_run (p := p) h.unread (Nat.le_refl _)).2.1]
  exact h.size

/-- Pruning counts the results that it redirects. -/
theorem counts_prune {f : Flow} (hf : f.Exact p) (hp : p.Linked) :
    ((ofFlow f p).prune p).2.redirected =
        total ((List.range p.size).map fun i => (((ofFlow f p).prune p).1.unread.getD i []).length) ∧
      ((ofFlow f p).prune p).2.widest =
        largest ((List.range p.size).map fun i => (((ofFlow f p).prune p).1.unread.getD i []).length) := by
  have h := sweep_swept hf hp
  have hcounts := counts_redirects (p := p) h.unread (Nat.le_refl _)
  obtain ⟨hflow, hdead, -, hunread⟩ := redirect_run (p := p) h.unread (Nat.le_refl _)
  have hmarks : ((List.range p.size).map fun i => (((ofFlow f p).prune p).1.unread.getD i []).length) =
      (List.range p.size).map fun i =>
        (((ofFlow f p).sweep p (List.range p.size).reverse).1.unreadAt p i).length := by
    refine List.map_congr_left ?_
    intro i hi
    rw [prune_fst, hunread, if_pos (List.mem_range.mp hi)]
  rw [hmarks]
  exact ⟨congrArg Prod.fst hcounts, congrArg Prod.snd hcounts⟩

theorem flags_eq_clear_iff {stats : PruneStats} : stats.flags = .clear ↔ stats.removed = 0 := by
  unfold PruneStats.flags
  by_cases h : stats.removed = 0
  · simp [h]
  · rw [if_neg h]
    exact iff_of_false (by decide) h

theorem flags_eq_redundant_iff {stats : PruneStats} : stats.flags = .redundantInstruction ↔ stats.removed ≠ 0 := by
  unfold PruneStats.flags
  by_cases h : stats.removed = 0
  · rw [if_pos h]
    exact iff_of_false (by decide) (not_not_intro h)
  · simp [h]

/-- The marks of a pruned program and the counts of its pruning. -/
theorem Exact.exacting {stats : PruneStats} (h : l.Exact p) (hg : p.Grouped) (hp : p.Formed)
    (hsize : l.dead.size = p.size) (hremoved : stats.removed = (List.range p.size).countP fun i => !l.isLive i)
    (hredirected : stats.redirected = total ((List.range p.size).map fun i => (l.unread.getD i []).length))
    (hwidest : stats.widest = largest ((List.range p.size).map fun i => (l.unread.getD i []).length)) :
    Exacting p l stats := by
  have hclear : stats.removed = 0 ↔ ∀ i, l.isLive i = true := by
    rw [hremoved, List.countP_eq_zero]
    constructor
    · intro hall i
      by_cases hi : i < p.size
      · simpa using hall i (List.mem_range.mpr hi)
      · simp [isLive, hsize, hi]
    · intro hall i _
      simp [hall i]
  refine ⟨fun i => h.dead_iff hg.linked hsize, fun i j => h.live_of_serves, fun i => ?_, fun i n hn hc => ?_,
    fun i n hn hc => ?_, hremoved, hredirected, hwidest, ?_, flags_eq_clear_iff.trans hclear⟩
  · exact ((handed_self hg hp (h.sound hg hp)).live_root i).symm
  · rw [h.unread i]
    exact ⟨pairwise_unreadAt l p i, fun pos => mem_unreadAt_iff h.flow hn hc⟩
  · rw [h.unread i, unreadAt, hn]
    exact if_neg hc
  · rw [flags_eq_redundant_iff, Ne, hclear]
    simp

theorem exacting_prune {f : Flow} (hf : f.Exact p) (hg : p.Grouped) (hp : p.Formed) :
    Exacting p ((ofFlow f p).prune p).1 (({} : PruneStats).add ((ofFlow f p).prune p).2) := by
  obtain ⟨hredirected, hwidest⟩ := counts_prune hf hg.linked
  refine (exact_prune hf hg.linked).exacting hg hp (size_dead_prune hf hg.linked) ?_ ?_ ?_
  · simp only [PruneStats.add, removed_prune hf hg.linked, List.countP_eq_length_filter, Nat.zero_add]
  · simp only [PruneStats.add, hredirected, Nat.zero_add]
  · simp only [PruneStats.add, hwidest, Nat.zero_max]

end Liveness

namespace Workbench

open Program

/-- In a linked program no link leaves it. -/
theorem feedsStray_eq_false {p : Program} (hp : p.Linked) : feedsStray p = false := by
  rw [feedsStray, ← Bool.not_eq_true, Array.any_eq_true]
  rintro ⟨i, hi, h⟩
  have hn : p[i]? = some p[i] := Array.getElem?_eq_getElem hi
  obtain ⟨j, hj, hge⟩ := (Option.any_eq_true _ _).mp (Bool.and_eq_true_iff.mp h).2
  have hlt := hp.next_lt_size ((next?_eq hn).trans hj)
  have := of_decide_eq_true hge
  omega

/-- One pruning of a program that was read drops exactly what is pure and leads to nothing that is noticed, marks
    exactly the results of calls that no live node reads, and counts both. -/
theorem prune_exact {code : Bytes} {functions : Nat} {d : Stream.Decoded} {a : Workbench}
    (hd : Stream.decode code functions = .ok d) (ha : Workbench.ofProgram d.program = .ok a) :
    ∃ b stats, a.prune {} = .ok (b, stats) ∧ b.program = d.program ∧ b.live = (a.live.prune d.program).1 ∧
      Liveness.Exacting d.program b.live stats := by
  have hw := (Stream.decode_ok hd).2.1
  have hg : d.program.Grouped := grouped_ofItems hw
  unfold Workbench.ofProgram at ha
  cases hf : Flow.ofProgram d.program with
  | error e =>
    rw [hf] at ha
    cases ha
  | ok f =>
    rw [hf] at ha
    cases ha
    refine ⟨_, _, if_neg ?_, rfl, rfl, Liveness.exacting_prune (Flow.exact_ofProgram hf) hg (formed_ofItems hw)⟩
    rw [feedsStray_eq_false hg.linked]
    exact Bool.false_ne_true

/-- Of the two results of a call one is negated for nobody and the other written to an output. -/
def vainStream : Bytes :=
  [0x02, 0, 8, 0xb0, 0, 0, 1, 2, 0, 0, 8, 0, 1, 0, 2, 0x10, 0, 0, 1, 0, 3, 0x80, 0, 0, 0, 0, 8, 0, 2, 0, 5]

/-- The negation is dropped, and the result that only it reads is redirected. -/
theorem prune_exact_vain : ∃ d a b stats, Stream.decode vainStream 1 = .ok d ∧
    Workbench.ofProgram d.program = .ok a ∧ a.prune {} = .ok (b, stats) ∧ stats = ⟨1, 1, 1⟩ ∧
      b.live.isLive 2 = false ∧ b.live.unread.getD 1 [] = [0] ∧ Liveness.Exacting d.program b.live stats := by
  obtain ⟨d, hd, hbench⟩ := Compile.exists_ok_of_any (by decide +kernel :
    (Stream.decode vainStream 1).toOption.any (fun d => (Workbench.ofProgram d.program).toOption.any fun a =>
      (a.prune {}).toOption.any fun pruned => pruned.2 = ⟨1, 1, 1⟩ ∧ pruned.1.live.isLive 2 = false ∧
        pruned.1.live.unread.getD 1 [] = [0]) = true)
  obtain ⟨a, ha, hpruned⟩ := Compile.exists_ok_of_any hbench
  obtain ⟨pruned, hp, hmarks⟩ := Compile.exists_ok_of_any hpruned
  obtain ⟨hstats, hdead, hunread⟩ := of_decide_eq_true hmarks
  obtain ⟨b, stats, hb, -, -, hexact⟩ := prune_exact hd ha
  rw [hp] at hb
  cases hb
  exact ⟨d, a, b, stats, hd, ha, hp, hstats, hdead, hunread, hexact⟩

end Workbench

end LaneScript
