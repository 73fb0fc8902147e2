/-
  LaneScript.Proofs.Flow — the flow of a program is what a plain search would find.

  A source that is a register reads the last store before its node (`producerOf`). A
  flow is `Exact` when its three tables say just that: the producers of every node, the
  sources that read a node in order, and the nodes that store to a register in order.
  One pass keeps the tables exact for the nodes seen so far (`visit_scanned`), so
  whatever `ofProgram` finds is exact (`exact_ofProgram`), and it finds a flow whenever
  every register that is read was stored to before (`ofProgram_isOk`).
-/
import LaneScript.Program.Flow
import LaneScript.Proofs.Links
import LaneScript.Proofs.Stores
import Mathlib.Data.List.Nodup

namespace LaneScript

namespace Program

def instrs (p : Program) : List Instruction := p.toList.map Node.instr

variable {p : Program}

theorem getElem?_instrs (i : Nat) : p.instrs[i]? = p[i]?.map Node.instr := by simp [instrs]

@[simp] theorem length_instrs : p.instrs.length = p.size := by simp [instrs]

theorem exists_node {i : Nat} (h : i < p.size) : ∃ n, p[i]? = some n := ⟨_, Array.getElem?_eq_getElem h⟩

def sourcesOf (p : Program) (i : Nat) : List Source := (p[i]?.map fun n => n.instr.sources).getD []

theorem sourcesOf_eq {i : Nat} {n : Node} (h : p[i]? = some n) : p.sourcesOf i = n.instr.sources := by
  simp [sourcesOf, h]

theorem mem_sourcesOf {i : Nat} {s : Source} : s ∈ p.sourcesOf i ↔ ∃ n, p[i]? = some n ∧ s ∈ n.instr.sources := by
  unfold sourcesOf
  cases p[i]? <;> simp

theorem mem_reads {i : Instruction} {k : Nat} {r : UInt16} : (k, r) ∈ i.reads ↔ i.sources[k]? = some (.reg r) := by
  simp only [Instruction.reads, List.mem_filterMap, Prod.exists, List.mk_mem_zipIdx_iff_getElem?, Option.map_eq_some_iff,
    Prod.mk.injEq]
  constructor
  · rintro ⟨s, k', hs, r', hr, rfl, rfl⟩
    cases s with
    | reg x => cases hr; exact hs
    | const _ | acc => cases hr
  · intro hs
    exact ⟨_, k, hs, r, rfl, rfl, rfl⟩

def producerOf (p : Program) (i : Nat) : Source → Option Nat
  | .reg r => lastStore p.instrs (.reg r) i
  | .const _ | .acc => none

def usesAt (p : Program) (w i : Nat) : List (Nat × Nat) :=
  (p.sourcesOf i).zipIdx.filterMap fun (s, pos) => if p.producerOf i s = some w then some (i, pos) else none

theorem mem_usesAt {w i j pos : Nat} :
    (j, pos) ∈ p.usesAt w i ↔ j = i ∧ ∃ s, (p.sourcesOf i)[pos]? = some s ∧ p.producerOf i s = some w := by
  simp only [usesAt, List.mem_filterMap, Prod.exists, List.mem_zipIdx_iff_getElem?]
  constructor
  · rintro ⟨s, k, hs, h⟩
    split at h
    · cases h; exact ⟨rfl, s, hs, ‹_›⟩
    · cases h
  · rintro ⟨rfl, s, hs, hp⟩
    exact ⟨s, pos, hs, by rw [if_pos hp]⟩

/-- The sources of one node that read from another are listed by position. -/
theorem pairwise_usesAt (p : Program) (w i : Nat) : (p.usesAt w i).Pairwise (Prod.Lex (· < ·) (· < ·)) := by
  refine List.pairwise_filterMap.mpr (List.pairwise_iff_getElem.mpr fun a b ha hb hab use hu use' hu' => ?_)
  rw [List.getElem_zipIdx] at hu hu'
  simp only [Option.ite_none_right_eq_some, Option.some.injEq] at hu hu'
  rw [← hu.2, ← hu'.2]
  exact .right _ (Nat.add_lt_add_left hab 0)

end Program

namespace Flow

structure Exact (p : Program) (f : Flow) : Prop where
  producers : f.producers.toList = (List.range p.size).map fun i => (p.sourcesOf i).map (p.producerOf i)
  readers : ∀ w < p.size, (f.readers.getD w #[]).toList = (List.range p.size).flatMap (p.usesAt w)
  writers : ∀ r, ((f.writers[r]?).getD #[]).toList = (List.range p.size).filter (storesAt p.instrs (.reg r))
  /-- Every register that is read was stored to. -/
  written : ∀ i r, .reg r ∈ p.sourcesOf i → ∃ w, lastStore p.instrs (.reg r) i = some w

/-! ## One node -/

theorem producer_ok {p : Program} {last : Std.TreeMap UInt16 Nat} {i : Nat}
    (hl : ∀ r, last[r]? = lastStore p.instrs (.reg r) i) {s : Source} {q : Option Nat}
    (h : producer last i s = .ok q) : q = p.producerOf i s ∧ ∀ r, s = .reg r → ∃ w, lastStore p.instrs (.reg r) i = some w := by
  cases s with
  | reg r =>
    simp only [producer, hl] at h
    split at h
    · rename_i w hw
      cases h
      exact ⟨hw.symm, fun r' e => by cases e; exact ⟨w, hw⟩⟩
    · cases h
  | const c => cases h; exact ⟨rfl, nofun⟩
  | acc => cases h; exact ⟨rfl, nofun⟩

theorem mapM_producer_ok {p : Program} {last : Std.TreeMap UInt16 Nat} {i : Nat}
    (hl : ∀ r, last[r]? = lastStore p.instrs (.reg r) i) {ss : List Source} {found : List (Option Nat)}
    (h : ss.mapM (producer last i) = .ok found) :
    found = ss.map (p.producerOf i) ∧ ∀ r, .reg r ∈ ss → ∃ w, lastStore p.instrs (.reg r) i = some w := by
  induction ss generalizing found with
  | nil => cases h; simp
  | cons s ss ih =>
    rw [List.mapM_cons] at h
    cases hs : producer last i s with
    | error e => rw [hs] at h; cases h
    | ok q =>
      rw [hs] at h
      cases hss : ss.mapM (producer last i) with
      | error e => rw [hss] at h; cases h
      | ok qs =>
        rw [hss] at h
        cases h
        obtain ⟨rfl, h1⟩ := producer_ok hl hs
        obtain ⟨rfl, h2⟩ := ih hss
        refine ⟨rfl, fun r hr => ?_⟩
        rcases List.mem_cons.mp hr with e | hr
        · exact h1 r e.symm
        · exact h2 r hr

theorem mapM_producer_isOk {p : Program} {last : Std.TreeMap UInt16 Nat} {i : Nat}
    (hl : ∀ r, last[r]? = lastStore p.instrs (.reg r) i) {ss : List Source}
    (h : ∀ r, .reg r ∈ ss → ∃ w, lastStore p.instrs (.reg r) i = some w) :
    ∃ found, ss.mapM (producer last i) = .ok found := by
  induction ss with
  | nil => exact ⟨[], rfl⟩
  | cons s ss ih =>
    obtain ⟨qs, hqs⟩ := ih fun r hr => h r (List.mem_cons_of_mem _ hr)
    obtain ⟨q, hq⟩ : ∃ q, producer last i s = .ok q := by
      cases s with
      | reg r =>
        obtain ⟨w, hw⟩ := h r List.mem_cons_self
        exact ⟨some w, by simp [producer, hl, hw]⟩
      | const c => exact ⟨none, rfl⟩
      | acc => exact ⟨none, rfl⟩
    exact ⟨q :: qs, by rw [List.mapM_cons, hq, hqs]; rfl⟩

theorem getElem?_insertAll (writes : List UInt16) (node : Nat) (last : Std.TreeMap UInt16 Nat) (r : UInt16) :
    (writes.foldl (fun last r => last.insert r node) last)[r]? = if r ∈ writes then some node else last[r]? := by
  induction writes generalizing last with
  | nil => simp
  | cons x writes ih =>
    simp only [List.foldl_cons, ih, Std.TreeMap.getElem?_insert, Std.LawfulEqCmp.compare_eq_iff_eq, List.mem_cons]
    by_cases h : r ∈ writes
    · simp [h]
    · by_cases e : x = r
      · simp [e]
      · simp [h, e, Ne.symm e]

theorem getD_addReaders (readers : Array (Array (Nat × Nat))) (node pos : Nat) (found : List (Option Nat)) {w : Nat}
    (hw : w < readers.size) :
    ((addReaders readers node pos found).getD w #[]).toList = (readers.getD w #[]).toList ++
      (found.zipIdx pos).filterMap fun (q, k) => if q = some w then some (node, k) else none := by
  induction found generalizing readers pos with
  | nil => simp [addReaders]
  | cons q found ih =>
    cases q with
    | none =>
      rw [addReaders, ih readers (pos + 1) hw]
      simp [List.zipIdx_cons]
    | some v =>
      rw [addReaders, ih _ (pos + 1) (by simpa using hw)]
      simp only [List.zipIdx_cons, List.filterMap_cons, Option.some.injEq, Array.getD_eq_getD_getElem?,
        Array.getElem?_modify]
      by_cases e : v = w
      · subst e
        simp [Array.getElem?_eq_getElem hw]
      · simp [e]

@[simp] theorem size_addReaders (readers : Array (Array (Nat × Nat))) (node pos : Nat) (found : List (Option Nat)) :
    (addReaders readers node pos found).size = readers.size := by
  induction found generalizing readers pos with
  | nil => rfl
  | cons q found ih => cases q <;> simp [addReaders, ih]

theorem getD_addWriter (writers : Std.TreeMap UInt16 (Array Nat)) (node : Nat) (x r : UInt16) :
    (((addWriter writers node x)[r]?).getD #[]).toList =
      let ws := ((writers[r]?).getD #[]).toList
      if x = r ∧ ws.getLast? ≠ some node then ws ++ [node] else ws := by
  simp only [addWriter, Std.TreeMap.getElem?_alter, Std.LawfulEqCmp.compare_eq_iff_eq]
  by_cases e : x = r
  · subst e
    cases h : writers[x]? with
    | none => simp
    | some ws =>
      by_cases hb : ws.back? = some node
      · simp [hb]
      · simp [hb]
  · simp [e]

theorem getD_addWriters (writes : List UInt16) {writers : Std.TreeMap UInt16 (Array Nat)} {node : Nat} {r : UInt16}
    (h : ∀ w ∈ ((writers[r]?).getD #[]).toList, w < node) :
    (((writes.foldl (fun writers r => addWriter writers node r) writers)[r]?).getD #[]).toList =
      ((writers[r]?).getD #[]).toList ++ if r ∈ writes then [node] else [] := by
  -- Once the node was noted for `r`, further stores to `r` change nothing.
  have noted (writes : List UInt16) (writers : Std.TreeMap UInt16 (Array Nat))
      (hn : ((writers[r]?).getD #[]).toList.getLast? = some node) :
      (((writes.foldl (fun writers r => addWriter writers node r) writers)[r]?).getD #[]).toList =
        ((writers[r]?).getD #[]).toList := by
    induction writes generalizing writers with
    | nil => rfl
    | cons x writes ih =>
      have hx : (((addWriter writers node x)[r]?).getD #[]).toList = ((writers[r]?).getD #[]).toList := by
        rw [getD_addWriter]; simp [hn]
      rw [List.foldl_cons, ih _ (by rw [hx]; exact hn), hx]
  induction writes generalizing writers with
  | nil => simp
  | cons x writes ih =>
    have hlast : ((writers[r]?).getD #[]).toList.getLast? ≠ some node := by
      intro e
      have := h node (List.mem_of_getLast? e)
      omega
    rw [List.foldl_cons]
    by_cases e : x = r
    · subst e
      have hx : (((addWriter writers node x)[x]?).getD #[]).toList = ((writers[x]?).getD #[]).toList ++ [node] := by
        rw [getD_addWriter]; exact if_pos ⟨rfl, hlast⟩
      rw [noted writes _ (by rw [hx]; simp), hx]
      simp
    · have hx : (((addWriter writers node x)[r]?).getD #[]).toList = ((writers[r]?).getD #[]).toList := by
        rw [getD_addWriter]; simp [e]
      rw [ih (by rw [hx]; exact h), hx]
      simp [List.mem_cons, Ne.symm e]

/-! ## The whole program -/

/-- The tables are exact as far as the first `k` nodes go. -/
structure Scanned (p : Program) (k : Nat) (s : Scan) : Prop where
  last : ∀ r, s.last[r]? = lastStore p.instrs (.reg r) k
  producers : s.producers.toList = (List.range k).map fun i => (p.sourcesOf i).map (p.producerOf i)
  size : s.readers.size = p.size
  readers : ∀ w < p.size, (s.readers.getD w #[]).toList = (List.range k).flatMap (p.usesAt w)
  writers : ∀ r, ((s.writers[r]?).getD #[]).toList = (List.range k).filter (storesAt p.instrs (.reg r))
  written : ∀ i < k, ∀ r, .reg r ∈ p.sourcesOf i → ∃ w, lastStore p.instrs (.reg r) i = some w

theorem mem_writes {i : Instruction} {r : UInt16} : r ∈ i.writes ↔ .reg r ∈ i.dests := by
  simp only [Instruction.writes, List.mem_filterMap]
  constructor
  · rintro ⟨d, hd, e⟩
    cases d with
    | reg x => cases e; exact hd
    | acc => cases e
  · intro h
    exact ⟨_, h, rfl⟩

theorem storesAt_eq {p : Program} {k : Nat} {n : Node} (hn : p[k]? = some n) (r : UInt16) :
    storesAt p.instrs (.reg r) k = decide (r ∈ n.instr.writes) := by
  rw [Bool.eq_iff_iff, storesAt_iff, decide_eq_true_iff, mem_writes, p.getElem?_instrs, hn]
  simp

theorem scanned_zero (p : Program) : Scanned p 0 { readers := Array.replicate p.size #[] } where
  last r := by simp [lastStore]
  producers := rfl
  size := by simp
  readers w hw := by simp [Array.getD_eq_getD_getElem?, hw]
  writers r := by simp
  written := by omega

theorem visit_scanned {p : Program} {k : Nat} {n : Node} {s s' : Scan} (hn : p[k]? = some n) (hs : Scanned p k s)
    (h : s.visit k n.instr = .ok s') : Scanned p (k + 1) s' := by
  simp only [Scan.visit] at h
  cases hm : n.instr.sources.mapM (producer s.last k) with
  | error e => rw [hm] at h; cases h
  | ok found =>
    rw [hm] at h
    cases h
    obtain ⟨rfl, hw⟩ := mapM_producer_ok hs.last hm
    rw [← Program.sourcesOf_eq hn] at hw ⊢
    refine ⟨fun r => ?_, ?_, ?_, fun w hwp => ?_, fun r => ?_, fun i hi r hr => ?_⟩
    · rw [getElem?_insertAll, hs.last, lastStore, storesAt_eq hn]
      simp
    · rw [Array.toList_push, hs.producers, List.range_succ, List.map_append]
      rfl
    · rw [size_addReaders, hs.size]
    · rw [getD_addReaders _ _ _ _ (by rw [hs.size]; exact hwp), hs.readers w hwp, List.range_succ, List.flatMap_append]
      simp [Program.usesAt, List.zipIdx_map, List.filterMap_map]
    · rw [getD_addWriters _ (by rw [hs.writers]; intro w h; simpa using (List.mem_filter.mp h).1), hs.writers,
        List.range_succ, List.filter_append]
      simp [List.filter_cons, storesAt_eq hn]
    · by_cases e : i = k
      · subst e; exact hw r hr
      · exact hs.written i (by omega) r hr

theorem visit_isOk {p : Program} {k : Nat} {n : Node} {s : Scan} (hn : p[k]? = some n) (hs : Scanned p k s)
    (hw : ∀ r, .reg r ∈ p.sourcesOf k → ∃ w, lastStore p.instrs (.reg r) k = some w) :
    ∃ s', s.visit k n.instr = .ok s' := by
  rw [Program.sourcesOf_eq hn] at hw
  obtain ⟨found, hf⟩ := mapM_producer_isOk hs.last hw
  exact ⟨_, by rw [Scan.visit, hf]⟩

theorem getElem?_of_drop {p : Program} {k : Nat} {n : Node} {ns : List Node} (h : p.toList.drop k = n :: ns) :
    p[k]? = some n ∧ p.toList.drop (k + 1) = ns := by
  constructor
  · have := congrArg (·[0]?) h
    simpa using this
  · rw [← List.drop_drop, h]
    rfl

theorem visitAll_scanned {p : Program} {ns : List Node} {k : Nat} {s s' : Scan} (hk : k ≤ p.size)
    (hns : p.toList.drop k = ns) (hs : Scanned p k s) (h : s.visitAll k ns = .ok s') : Scanned p p.size s' := by
  induction ns generalizing k s with
  | nil =>
    cases h
    have hle : p.size ≤ k := by simpa using hns
    rw [Nat.le_antisymm hle hk]
    exact hs
  | cons n ns ih =>
    obtain ⟨hn, hns⟩ := getElem?_of_drop hns
    rw [Scan.visitAll] at h
    cases hv : s.visit k n.instr with
    | error e => rw [hv] at h; cases h
    | ok t =>
      rw [hv] at h
      exact ih (Program.lt_size_of_getElem? hn) hns (visit_scanned hn hs hv) h

theorem visitAll_isOk {p : Program} {ns : List Node} {k : Nat} {s : Scan} (hns : p.toList.drop k = ns)
    (hs : Scanned p k s) (hw : ∀ i r, .reg r ∈ p.sourcesOf i → ∃ w, lastStore p.instrs (.reg r) i = some w) :
    ∃ s', s.visitAll k ns = .ok s' := by
  induction ns generalizing k s with
  | nil => exact ⟨s, rfl⟩
  | cons n ns ih =>
    obtain ⟨hn, hns⟩ := getElem?_of_drop hns
    obtain ⟨t, ht⟩ := visit_isOk hn hs (hw k)
    obtain ⟨s', hs'⟩ := ih hns (visit_scanned hn hs ht)
    exact ⟨s', by rw [Scan.visitAll, ht]; exact hs'⟩

theorem exists_scan {p : Program} {f : Flow} (h : ofProgram p = .ok f) :
    ∃ s, ({ readers := Array.replicate p.size #[] } : Scan).visitAll 0 p.toList = .ok s ∧
      f = ⟨s.producers, s.readers, s.writers⟩ := by
  unfold ofProgram at h
  cases hs : ({ readers := Array.replicate p.size #[] } : Scan).visitAll 0 p.toList with
  | error e => rw [hs] at h; cases h
  | ok s =>
    rw [hs] at h
    cases h
    exact ⟨s, rfl, rfl⟩

/-- The tables of a flow that is found are those of a whole pass. -/
theorem scanned_ofProgram {p : Program} {f : Flow} (h : ofProgram p = .ok f) :
    ∃ s, Scanned p p.size s ∧ f = ⟨s.producers, s.readers, s.writers⟩ := by
  obtain ⟨s, hs, hf⟩ := exists_scan h
  exact ⟨s, visitAll_scanned (Nat.zero_le _) rfl (scanned_zero p) hs, hf⟩

/-- A flow that is found is exact. -/
theorem exact_ofProgram {p : Program} {f : Flow} (h : ofProgram p = .ok f) : f.Exact p := by
  obtain ⟨s, hs, rfl⟩ := scanned_ofProgram h
  refine ⟨hs.producers, hs.readers, hs.writers, fun i r hr => ?_⟩
  refine hs.written i ?_ r hr
  by_contra hi
  simp [Program.sourcesOf, Array.getElem?_eq_none (Nat.le_of_not_lt hi)] at hr

theorem size_readers {p : Program} {f : Flow} (h : ofProgram p = .ok f) : f.readers.size = p.size := by
  obtain ⟨s, hs, rfl⟩ := scanned_ofProgram h
  exact hs.size

/-- A program that reads only what was stored has a flow. -/
theorem ofProgram_isOk {p : Program}
    (hw : ∀ i r, .reg r ∈ p.sourcesOf i → ∃ w, lastStore p.instrs (.reg r) i = some w) : ∃ f, ofProgram p = .ok f := by
  obtain ⟨s, hs⟩ := visitAll_isOk List.drop_zero (scanned_zero p) hw
  exact ⟨⟨s.producers, s.readers, s.writers⟩, by unfold ofProgram; rw [hs]; rfl⟩

/-! ## Reading the tables -/

namespace Exact

variable {p : Program} {f : Flow}

theorem producers_getD (h : f.Exact p) (i : Nat) : f.producers.getD i [] = (p.sourcesOf i).map (p.producerOf i) := by
  have hi := congrArg (·[i]?) h.producers
  simp only [Array.getElem?_toList, List.getElem?_map] at hi
  rw [Array.getD_eq_getD_getElem?, hi]
  by_cases hlt : i < p.size
  · simp [List.getElem?_range hlt]
  · simp [Nat.le_of_not_lt hlt, Program.sourcesOf]

theorem mem_readers (h : f.Exact p) {w i pos : Nat} (hw : w < p.size) :
    (i, pos) ∈ f.readers.getD w #[] ↔ ∃ s, (p.sourcesOf i)[pos]? = some s ∧ p.producerOf i s = some w := by
  rw [← Array.mem_toList_iff, h.readers w hw, List.mem_flatMap]
  constructor
  · rintro ⟨k, -, hk⟩
    obtain ⟨rfl, h⟩ := Program.mem_usesAt.mp hk
    exact h
  · rintro ⟨s, hs, hp⟩
    have hi : i < p.size := by
      by_contra hi
      simp [Program.sourcesOf, Array.getElem?_eq_none (Nat.le_of_not_lt hi)] at hs
    exact ⟨i, List.mem_range.mpr hi, Program.mem_usesAt.mpr ⟨rfl, s, hs, hp⟩⟩

theorem reader_lt_size (h : f.Exact p) {w : Nat} (hw : w < p.size) {use : Nat × Nat}
    (hu : use ∈ f.readers.getD w #[]) : use.1 < p.size := by
  rw [← Array.mem_toList_iff, h.readers w hw, List.mem_flatMap] at hu
  obtain ⟨k, hk, hu⟩ := hu
  rw [(Program.mem_usesAt.mp hu).1]
  exact List.mem_range.mp hk

/-- The sources that read a node are noted in increasing order. -/
theorem pairwise_readers (h : f.Exact p) {w : Nat} (hw : w < p.size) :
    (f.readers.getD w #[]).toList.Pairwise (Prod.Lex (· < ·) (· < ·)) := by
  rw [h.readers w hw, List.pairwise_flatMap]
  refine ⟨fun i _ => p.pairwise_usesAt w i, List.pairwise_lt_range.imp fun {i j} hij use hi use' hj => ?_⟩
  obtain ⟨a, pos⟩ := use
  obtain ⟨b, pos'⟩ := use'
  obtain ⟨rfl, -⟩ := Program.mem_usesAt.mp hi
  obtain ⟨rfl, -⟩ := Program.mem_usesAt.mp hj
  exact .left _ _ hij

/-- Every source is noted once. -/
theorem nodup_readers (h : f.Exact p) {w : Nat} (hw : w < p.size) : (f.readers.getD w #[]).toList.Nodup := by
  refine (h.pairwise_readers hw).imp fun {use use'} hlt e => ?_
  subst e
  cases hlt with
  | left _ _ hlt => omega
  | right _ hlt => omega

end Exact

end Flow

end LaneScript
