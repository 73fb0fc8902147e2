/-
  LaneScript.Proofs.FlowTables — the tables of a flow, said by the program alone.

  `Flow.Exact` gives the tables as what a search would list. Here each entry is told by
  what it means (`Tabulates`): a source that is a register names the last node before its
  own that stores there, every node lists the sources that name it, each once and in
  increasing order, and every register lists the nodes that store to it. A register to
  which no node stores has no entry, which the lists do not say: no step of the pass
  leaves an empty one (`visit_filled`).

  Nothing is asked of the program, so registers may be stored to again, read and stored
  to by one node, or named twice by one call.
-/
import LaneScript.Proofs.Faults
import Mathlib.Order.Bounds.Basic

namespace LaneScript

namespace Program

def WritesTo (p : Program) (w : Nat) (r : UInt16) : Prop := ∃ n, p[w]? = some n ∧ .reg r ∈ n.instr.dests

variable {p : Program}

theorem writesTo_iff {w : Nat} {r : UInt16} : p.WritesTo w r ↔ storesAt p.instrs (.reg r) w = true := by
  rw [WritesTo, storesAt_iff, getElem?_instrs]
  simp

/-- The last store is the greatest node number. -/
theorem isGreatest_iff {i w : Nat} {r : UInt16} :
    IsGreatest {u | u < i ∧ p.WritesTo u r} w ↔ lastStore p.instrs (.reg r) i = some w := by
  rw [lastStore_eq_some_iff]
  constructor
  · intro h
    obtain ⟨⟨hlt, hw⟩, hmax⟩ := h
    refine ⟨hlt, writesTo_iff.mp hw, fun u hwu hui => ?_⟩
    rw [← Bool.not_eq_true]
    intro hu
    exact absurd (hmax ⟨hui, writesTo_iff.mpr hu⟩) (Nat.not_le.mpr hwu)
  · intro h
    obtain ⟨hlt, hw, hnone⟩ := h
    refine ⟨⟨hlt, writesTo_iff.mpr hw⟩, fun u hu => ?_⟩
    by_contra hwu
    have hu' := hnone u (Nat.not_le.mp hwu) hu.1
    rw [writesTo_iff.mp hu.2] at hu'
    cases hu'

end Program

namespace Flow

structure Tabulates (f : Flow) (p : Program) : Prop where
  rows : f.producers.size = p.size ∧ f.readers.size = p.size
  /-- A register is read from the last node before that stores to it. -/
  produced : ∀ i pos w : Nat, (f.producers.getD i [])[pos]? = some (some w) ↔
    ∃ r, (p.sourcesOf i)[pos]? = some (.reg r) ∧ IsGreatest {u | u < i ∧ p.WritesTo u r} w
  /-- Constants and the accumulator are read from no node. -/
  unproduced : ∀ i pos : Nat, (f.producers.getD i [])[pos]? = some none ↔
    ∃ s, (p.sourcesOf i)[pos]? = some s ∧ ∀ r, s ≠ .reg r
  read : ∀ w i pos : Nat, (i, pos) ∈ f.readers.getD w #[] ↔ (f.producers.getD i [])[pos]? = some (some w)
  /-- The order is strict, so no source is listed twice. -/
  ordered : ∀ w, (f.readers.getD w #[]).toList.Pairwise (Prod.Lex (· < ·) (· < ·))
  later : ∀ w i pos, (i, pos) ∈ f.readers.getD w #[] → w < i
  /-- A register has an entry just if some node stores to it. -/
  listed : ∀ r, (∃ ws, f.writers[r]? = some ws) ↔ ∃ w, p.WritesTo w r
  written : ∀ r ws, f.writers[r]? = some ws → ws.toList.Pairwise (· < ·) ∧ ∀ w, w ∈ ws ↔ p.WritesTo w r

/-! ## No list of writers is empty -/

def Filled (writers : Std.TreeMap UInt16 (Array Nat)) : Prop := ∀ r : UInt16, writers[r]? ≠ some #[]

theorem addWriter_filled {writers : Std.TreeMap UInt16 (Array Nat)} (h : Filled writers) (node : Nat) (x : UInt16) :
    Filled (addWriter writers node x) := by
  intro r
  simp only [addWriter, Std.TreeMap.getElem?_alter, Std.LawfulEqCmp.compare_eq_iff_eq]
  by_cases e : x = r
  · subst e
    have hx := h x
    cases hws : writers[x]? with
    | none => simp
    | some ws =>
      by_cases hb : ws.back? = some node
      · rw [hws] at hx
        simpa [hb] using hx
      · simp [hb]
  · simpa [e] using h r

theorem visit_filled {s s' : Scan} {node : Nat} {i : Instruction} (h : Filled s.writers)
    (hv : s.visit node i = .ok s') : Filled s'.writers := by
  simp only [Scan.visit] at hv
  cases hm : i.sources.mapM (producer s.last node) with
  | error e =>
    rw [hm] at hv
    cases hv
  | ok found =>
    rw [hm] at hv
    cases hv
    show Filled (i.writes.foldl (fun writers r => addWriter writers node r) s.writers)
    generalize s.writers = writers at h
    induction i.writes generalizing writers with
    | nil => exact h
    | cons x writes ih => exact ih _ (addWriter_filled h node x)

theorem visitAll_filled {ns : List Node} {s s' : Scan} {node : Nat} (h : Filled s.writers)
    (hv : s.visitAll node ns = .ok s') : Filled s'.writers := by
  induction ns generalizing s node with
  | nil =>
    cases hv
    exact h
  | cons n ns ih =>
    rw [Scan.visitAll] at hv
    cases ht : s.visit node n.instr with
    | error e =>
      rw [ht] at hv
      cases hv
    | ok t =>
      rw [ht] at hv
      exact ih (visit_filled h ht) hv

theorem ofProgram_filled {p : Program} {f : Flow} (h : ofProgram p = .ok f) : Filled f.writers := by
  obtain ⟨s, hs, rfl⟩ := exists_scan h
  refine visitAll_filled (fun r => ?_) hs
  simp

/-! ## What the entries mean -/

namespace Exact

variable {p : Program} {f : Flow}

theorem getElem?_producers (h : f.Exact p) (i pos : Nat) :
    (f.producers.getD i [])[pos]? = (p.sourcesOf i)[pos]?.map (p.producerOf i) := by
  rw [h.producers_getD, List.getElem?_map]

theorem produced_iff (h : f.Exact p) {i pos w : Nat} : (f.producers.getD i [])[pos]? = some (some w) ↔
    ∃ r, (p.sourcesOf i)[pos]? = some (.reg r) ∧ IsGreatest {u | u < i ∧ p.WritesTo u r} w := by
  simp only [Program.isGreatest_iff]
  rw [h.getElem?_producers, Option.map_eq_some_iff]
  constructor
  · intro hs
    obtain ⟨s, hs, hw⟩ := hs
    cases s with
    | reg r => exact ⟨r, hs, hw⟩
    | const c => cases hw
    | acc => cases hw
  · intro hr
    obtain ⟨r, hs, hw⟩ := hr
    exact ⟨.reg r, hs, hw⟩

theorem unproduced_iff (h : f.Exact p) {i pos : Nat} : (f.producers.getD i [])[pos]? = some none ↔
    ∃ s, (p.sourcesOf i)[pos]? = some s ∧ ∀ r, s ≠ .reg r := by
  rw [h.getElem?_producers, Option.map_eq_some_iff]
  refine exists_congr fun s => and_congr_right fun hs => ?_
  cases s with
  | reg r =>
    -- A register that is read was stored to, so it has a producer.
    obtain ⟨w, hw⟩ := h.written i r (List.mem_of_getElem? hs)
    refine iff_of_false (fun hnone => ?_) fun hr => hr r rfl
    rw [Program.producerOf, hw] at hnone
    cases hnone
  | const c => exact iff_of_true rfl fun r hr => by cases hr
  | acc => exact iff_of_true rfl fun r hr => by cases hr

theorem lt_of_produced (h : f.Exact p) {i pos w : Nat} (hw : (f.producers.getD i [])[pos]? = some (some w)) :
    w < i ∧ i < p.size := by
  obtain ⟨r, hs, hlast⟩ := h.produced_iff.mp hw
  obtain ⟨n, hn, -⟩ := Program.mem_sourcesOf.mp (List.mem_of_getElem? hs)
  exact ⟨hlast.1.1, Program.lt_size_of_getElem? hn⟩

theorem read_iff (h : f.Exact p) (hsize : f.readers.size = p.size) {w i pos : Nat} :
    (i, pos) ∈ f.readers.getD w #[] ↔ (f.producers.getD i [])[pos]? = some (some w) := by
  by_cases hw : w < p.size
  · rw [h.mem_readers hw, h.getElem?_producers, Option.map_eq_some_iff]
  · refine iff_of_false ?_ fun hprod => ?_
    · rw [Array.getD_eq_getD_getElem?, Array.getElem?_eq_none (by omega)]
      simp
    · have := h.lt_of_produced hprod
      omega

theorem mem_writers (h : f.Exact p) {r : UInt16} {w : Nat} : w ∈ (f.writers[r]?).getD #[] ↔ p.WritesTo w r := by
  rw [← Array.mem_toList_iff, h.writers, List.mem_filter, List.mem_range, ← Program.writesTo_iff, and_iff_right_iff_imp]
  intro hw
  obtain ⟨n, hn, -⟩ := hw
  exact Program.lt_size_of_getElem? hn

end Exact

/-- A flow that is found has the tables of its program. -/
theorem tabulates_ofProgram {p : Program} {f : Flow} (h : ofProgram p = .ok f) : f.Tabulates p := by
  have he := exact_ofProgram h
  have hsize := size_readers h
  refine ⟨⟨?_, hsize⟩, fun i pos w => he.produced_iff, fun i pos => he.unproduced_iff, fun w i pos => he.read_iff hsize,
    fun w => ?_, fun w i pos hu => (he.lt_of_produced ((he.read_iff hsize).mp hu)).1, fun r => ?_,
    fun r ws hws => ⟨?_, fun w => ?_⟩⟩
  · have := congrArg List.length he.producers
    simpa using this
  · by_cases hw : w < p.size
    · exact he.pairwise_readers hw
    · rw [Array.getD_eq_getD_getElem?, Array.getElem?_eq_none (by omega)]
      exact .nil
  · simp only [← he.mem_writers]
    cases hws : f.writers[r]? with
    | none => simp
    | some ws =>
      have hne : ws ≠ #[] := fun e => ofProgram_filled h r (e ▸ hws)
      exact iff_of_true ⟨ws, rfl⟩ ⟨_, Array.getElem_mem (Array.size_pos_iff.mpr hne)⟩
  · have hlist := he.writers r
    rw [hws, Option.getD_some] at hlist
    rw [hlist]
    exact List.pairwise_lt_range.filter _
  · rw [← he.mem_writers, hws, Option.getD_some]

end Flow

/-- No instruction has more sources than a byte counts. -/
theorem Instruction.WellShaped.length_sources_le {i : Instruction} (h : i.WellShaped) : i.sources.length ≤ 255 := by
  unfold WellShaped at h
  cases hop : i.opcode <;> simp only [hop] at h
  case compute f =>
    have := f.arity_le
    omega
  case output | updateId =>
    obtain ⟨-, ⟨a, b, hs⟩, -⟩ := h
    simp [hs]
  case acquireIndex => omega
  case call => exact h.2.1
  all_goals simp [h.2.1]

namespace Stream

/-- Of a program that was read, the flow is missing just if a register is read before anything was stored in it. Its
    tables say what the program says, with positions that a byte holds. -/
theorem decode_flow_tabulates {code : Bytes} {functions : Nat} {d : Decoded} (hd : decode code functions = .ok d) :
    ((∃ e, Flow.ofProgram d.program = .error e) ↔ d.program.ReadsUnwritten) ∧
      ∀ f, Flow.ofProgram d.program = .ok f → f.Tabulates d.program ∧
        ∀ w, ∀ use ∈ f.readers.getD w #[], use.2 < 255 := by
  refine ⟨Program.readsUnwritten_iff.symm, fun f hf => ⟨Flow.tabulates_ofProgram hf, fun w use hu => ?_⟩⟩
  obtain ⟨r, hs, -⟩ := ((Flow.tabulates_ofProgram hf).produced _ _ _).mp
    (((Flow.tabulates_ofProgram hf).read w use.1 use.2).mp hu)
  obtain ⟨n, hn, -⟩ := Program.mem_sourcesOf.mp (List.mem_of_getElem? hs)
  have hle := ((Program.formed_ofItems (decode_ok hd).2.1).fits use.1 n hn).shaped.length_sources_le
  rw [Program.sourcesOf_eq hn] at hs
  exact Nat.lt_of_lt_of_le (List.getElem?_eq_some_iff.mp hs).1 hle

/-- A call names one result twice, a sum replaces one of its own sources, the next adds it to itself, and the last
    instruction negates a constant. -/
def renewedStream : Bytes :=
  [0x02, 0, 1, 0xb0, 0, 0, 1, 2, 0, 0, 1, 0, 2, 0, 2, 0x30, 0, 0, 1, 0, 2, 0, 1, 0x30, 0, 0, 1, 0, 1, 0, 3,
   0x10, 1, 0, 5, 0, 4]

/-- The second sum reads register 1 from the first one, twice. -/
theorem decode_flow_renewed : ∃ d f, decode renewedStream 1 = .ok d ∧ Flow.ofProgram d.program = .ok f ∧
    f.Tabulates d.program ∧ ¬d.program.ReadsUnwritten ∧
    f.producers.toList = [[], [some 0], [some 0, some 1], [some 2, some 2], [none]] ∧
    f.readers.getD 2 #[] = #[(3, 0), (3, 1)] ∧ f.writers[(1 : UInt16)]? = some #[0, 2] ∧
    f.writers[(2 : UInt16)]? = some #[1] := by
  obtain ⟨d, hd, hflow⟩ := Compile.exists_ok_of_any (by decide +kernel : (decode renewedStream 1).toOption.any (fun d =>
    (Flow.ofProgram d.program).toOption.any fun f =>
      f.producers.toList = [[], [some 0], [some 0, some 1], [some 2, some 2], [none]] ∧
      f.readers.getD 2 #[] = #[(3, 0), (3, 1)] ∧ f.writers[(1 : UInt16)]? = some #[0, 2] ∧
      f.writers[(2 : UInt16)]? = some #[1]) = true)
  obtain ⟨f, hf, htables⟩ := Compile.exists_ok_of_any hflow
  obtain ⟨hmissing, htab⟩ := decode_flow_tabulates hd
  refine ⟨d, f, hd, hf, (htab f hf).1, fun hread => ?_, of_decide_eq_true htables⟩
  obtain ⟨e, he⟩ := hmissing.mpr hread
  rw [hf] at he
  cases he

end Stream

end LaneScript
