/-
  LaneScript.Proofs.Between — asking for a store between two nodes.

  The search looks only at the nodes that were noted as writers of the register when the
  flow was found, and finds its way among them as in a sorted list. Pruning and folding
  go on for long after that: nodes are dropped, results redirected, destinations handed
  to the accumulator. None of it makes a node store to a register where it did not
  before, nor touches the flow (`Kept`), so the noted writers still hold every node that
  stores, and the search answers as looking at each node would (`storedBetween_scan`).

  `Reworks` takes any number of prunings and merges in any order. A merge may join any
  two nodes: those that folding makes are among them (`Reworks.fold`), and whether one is
  sound does not matter here.
-/
import LaneScript.Proofs.Extension
import LaneScript.Proofs.FlowTables
import LaneScript.Workbench

namespace LaneScript

namespace Program

inductive Reworks (q : Program) (k : Liveness) : Program → Liveness → Prop
  | start : Reworks q k q k
  | prune {p : Program} {l : Liveness} : Reworks q k p l → Reworks q k p (l.prune p).1
  | merge {p : Program} {l : Liveness} (i j pos : Nat) : Reworks q k p l → Reworks q k (p.link i j pos) l

structure Kept (q : Program) (k : Liveness) (p : Program) (l : Liveness) : Prop where
  flow : l.flow = k.flow
  dests : ∀ (w : Nat) (n : Node) (pos : Nat) (r : UInt16), p[w]? = some n → n.instr.dests[pos]? = some (.reg r) →
    ∃ m, q[w]? = some m ∧ m.instr.dests[pos]? = some (.reg r)

variable {q p p' : Program} {k l : Liveness} {limit : Nat}

/-! ## One step -/

theorem Reach.flow_eq (h : Reach limit q k p l) : l.flow = k.flow := by
  induction h with
  | start => rfl
  | drop _ _ ih => exact ih
  | redirect _ _ _ ih => exact ih
  | fold _ _ ih => exact ih

theorem flow_prune (l : Liveness) (p : Program) : (l.prune p).1.flow = l.flow :=
  (Reach.prune (Reach.start : Reach 0 p l p l)).flow_eq

/-- A merge changes the first destination of its node, and no other. -/
theorem map_dests_link (i j pos w : Nat) : ((p.link i j pos)[w]?.map fun n => n.instr.dests) =
    p[w]?.map fun n => if i = w then n.instr.dests.set 0 .acc else n.instr.dests := by
  simp only [link, Array.getElem?_modify]
  by_cases hj : j = w <;> by_cases hi : i = w <;> simp [hi, hj, Function.comp_def]

/-- A register that a node stores to after a merge was one before, at the same position. -/
theorem reg_of_link {i j pos w k : Nat} {n : Node} {r : UInt16} (hn : (p.link i j pos)[w]? = some n)
    (hd : n.instr.dests[k]? = some (.reg r)) : ∃ m, p[w]? = some m ∧ m.instr.dests[k]? = some (.reg r) := by
  have hdests := map_dests_link (p := p) i j pos w
  rw [hn, Option.map_some] at hdests
  obtain ⟨m, hm, e⟩ := Option.map_eq_some_iff.mp hdests.symm
  refine ⟨m, hm, ?_⟩
  rw [← e] at hd
  split at hd
  · rw [List.getElem?_set] at hd
    split at hd
    · -- The first destination is the accumulator now.
      split at hd
      · cases hd
      · cases hd
    · exact hd
  · exact hd

theorem Kept.merge (h : Kept q k p l) (i j pos : Nat) : Kept q k (p.link i j pos) l := by
  refine ⟨h.flow, fun w n t r hn hd => ?_⟩
  obtain ⟨m, hm, hd⟩ := reg_of_link hn hd
  exact h.dests w m t r hm hd

/-- A node that stores to a register did so from the start. -/
theorem Kept.storesAt (h : Kept q k p l) {r : UInt16} (u : Nat) (hu : l.stores p r u = true) :
    storesAt q.instrs (.reg r) u = true := by
  obtain ⟨-, n, pos, hn, hd, -⟩ := Liveness.stores_iff.mp hu
  obtain ⟨m, hm, hd⟩ := h.dests u n pos r hn hd
  exact writesTo_iff.mp ⟨m, hm, List.mem_of_getElem? hd⟩

/-! ## Any number of steps -/

theorem Reworks.kept (h : Reworks q k p l) : Kept q k p l := by
  induction h with
  | start => exact ⟨rfl, fun w n pos r hn hd => ⟨n, hn, hd⟩⟩
  | prune _ ih => exact ⟨(flow_prune _ _).trans ih.flow, ih.dests⟩
  | merge i j pos _ ih => exact ih.merge i j pos

theorem Reworks.foldsTo (h : Reworks q k p l) (hs : FoldsTo l limit p p') : Reworks q k p' l := by
  induction hs with
  | refl => exact h
  | tail _ hstep ih =>
    obtain ⟨i, j, pos, -, rfl⟩ := hstep
    exact ih.merge i j pos

end Program

namespace Workbench

open Program

def Reworks (a b : Workbench) : Prop := Program.Reworks a.program a.live b.program b.live

/-- Node `w` is live and keeps a value in register `r`: one of its destinations is `r` and was not redirected. -/
def Keeps (b : Workbench) (w : Nat) (r : UInt16) : Prop :=
  b.live.isLive w = true ∧ ∃ n pos, b.program[w]? = some n ∧ n.instr.dests[pos]? = some (.reg r) ∧
    b.live.isUnread w pos = false

variable {a b c : Workbench}

/-! ## The passes -/

theorem Reworks.prune (h : a.Reworks b) {stats stats' : PruneStats} (hc : b.prune stats = .ok (c, stats')) :
    a.Reworks c := by
  unfold Workbench.prune at hc
  split at hc
  · cases hc
  · cases hc
    exact Program.Reworks.prune h

theorem foldsTo_visits {l : Liveness} {limit : Nat} {nodes : List Nat} {f g : Folding}
    (h : nodes.foldlM (visit l limit) f = .ok g) : FoldsTo l limit f.program g.program := by
  induction nodes generalizing f with
  | nil =>
    cases h
    exact .refl
  | cons i nodes ih =>
    rw [List.foldlM_cons, visit] at h
    split at h
    · exact (foldsTo_visit l limit f i).trans (ih h)
    · cases h

theorem foldsTo_rounds {l : Liveness} {limit count : Nat} {f g : Folding} (h : rounds l limit count f = .ok g) :
    FoldsTo l limit f.program g.program := by
  induction count generalizing f with
  | zero =>
    cases h
    exact .refl
  | succ count ih =>
    rw [rounds] at h
    cases hr : round l limit f with
    | error e =>
      rw [hr] at h
      cases h
    | ok next =>
      rw [hr] at h
      have hnext : FoldsTo l limit f.program next.program :=
        foldsTo_visits (f := { f with stats := { f.stats with rounds := f.stats.rounds + 1 } }) hr
      replace h : (if next.stats.folded = f.stats.folded then .ok next else rounds l limit count next) = .ok g := h
      split at h
      · cases h
        exact hnext
      · exact hnext.trans (ih h)

theorem Reworks.fold (h : a.Reworks b) (hc : b.fold = .ok c) : a.Reworks c := by
  unfold Workbench.fold at hc
  cases hr : rounds b.live b.groupLimit (b.program.size + 1) ⟨b.program, b.folded, []⟩ with
  | error e =>
    rw [hr] at hc
    cases hc
  | ok g =>
    rw [hr] at hc
    cases hc
    exact Program.Reworks.foldsTo h (foldsTo_rounds hr)

/-! ## The search -/

theorem ofProgram_ok {p : Program} (h : Workbench.ofProgram p = .ok a) : a.program = p ∧ a.live.flow.Exact p := by
  unfold Workbench.ofProgram at h
  cases hf : Flow.ofProgram p with
  | error e =>
    rw [hf] at h
    cases h
  | ok f =>
    rw [hf] at h
    cases h
    exact ⟨rfl, Flow.exact_ofProgram hf⟩

/-- After any prunings and merges the search through the noted writers of a register tells whether a node between the
    two stores to it now. -/
theorem storedBetween_scan {p : Program} (ha : Workbench.ofProgram p = .ok a) (hb : a.Reworks b) (r : UInt16)
    (after before : Nat) :
    b.storedBetween r after before = true ↔ ∃ w, after < w ∧ w < before ∧ b.Keeps w r := by
  obtain ⟨rfl, hexact⟩ := ofProgram_ok ha
  have hkept := Program.Reworks.kept hb
  rw [← hkept.flow] at hexact
  simp only [Workbench.storedBetween, Liveness.storedBetween_iff hexact hkept.storesAt, Liveness.stores_iff, Keeps]

/-- Register 1 is stored to by a call that nobody reads it from, a negation that nobody reads, one that is folded into
    the output behind it, and the execution index. -/
def fadingStream : Bytes :=
  [0x02, 0, 8, 0xb0, 0, 0, 1, 2, 0, 0, 8, 0, 1, 0, 2, 0x10, 0, 0, 8, 0, 1, 0x10, 0, 0, 2, 0, 1,
   0x80, 0, 0, 0, 0, 8, 0, 1, 0, 5, 0x02, 0, 1, 0x80, 0, 0, 0, 0, 8, 0, 1, 0, 6]

/-- Three noted writers of register 1 no longer store to it; the last one does. -/
theorem storedBetween_scan_fading : ∃ d a b c stats, Stream.decode fadingStream 1 = .ok d ∧
    Workbench.ofProgram d.program = .ok a ∧ a.prune {} = .ok (b, stats) ∧ b.fold = .ok c ∧ c.folded.folded = 1 ∧
    c.live.flow.writers[(1 : UInt16)]? = some #[1, 2, 3, 5] ∧ (∃ w, 0 < w ∧ w < 5 ∧ a.Keeps w 1) ∧
    (¬∃ w, 0 < w ∧ w < 5 ∧ c.Keeps w 1) ∧ ∃ w, 0 < w ∧ w < 6 ∧ c.Keeps w 1 := by
  obtain ⟨d, hd, hbench⟩ := Compile.exists_ok_of_any (by decide +kernel :
    (Stream.decode fadingStream 1).toOption.any (fun d => (Workbench.ofProgram d.program).toOption.any fun a =>
      (a.prune {}).toOption.any fun pruned => pruned.1.fold.toOption.any fun c => c.folded.folded = 1 ∧
        c.live.flow.writers[(1 : UInt16)]? = some #[1, 2, 3, 5] ∧ a.storedBetween 1 0 5 = true ∧
        c.storedBetween 1 0 5 = false ∧ c.storedBetween 1 0 6 = true) = true)
  obtain ⟨a, ha, hpruned⟩ := Compile.exists_ok_of_any hbench
  obtain ⟨⟨b, stats⟩, hb, hfolded⟩ := Compile.exists_ok_of_any hpruned
  obtain ⟨c, hc, hsearch⟩ := Compile.exists_ok_of_any hfolded
  obtain ⟨hcount, hwriters, hstart, hgone, hleft⟩ := of_decide_eq_true hsearch
  have hac : a.Reworks c := (Reworks.prune .start hb).fold hc
  refine ⟨d, a, b, c, stats, hd, ha, hb, hc, hcount, hwriters, (storedBetween_scan ha .start 1 0 5).mp hstart, ?_,
    (storedBetween_scan ha hac 1 0 6).mp hleft⟩
  rw [← storedBetween_scan ha hac, hgone]
  exact Bool.false_ne_true

end Workbench

end LaneScript
