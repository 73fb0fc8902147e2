/-
  LaneScript.Proofs.Faults — what a compile can fail with.

  The checks that guard against a contradiction in the optimised program never fail:
  its links pass, whatever is looked up by number is there (`Addressed`), and every
  operand has its number. So a compile fails for one of the reasons that a stream, the
  settings or the size of a table can give (`compile_error`), and the word that says the
  instruction list contradicts itself has one cause: a register is read before anything
  was stored in it (`compile_faults`).
-/
import LaneScript.Proofs.Lookups
import LaneScript.Proofs.Pressure
import LaneScript.Proofs.Reach

namespace LaneScript

namespace Program

def ReadsUnwritten (p : Program) : Prop :=
  ∃ (i : Nat) (n : Node) (r : UInt16), p[i]? = some n ∧ .reg r ∈ n.instr.sources ∧
    ∀ (j : Nat) (m : Node), j < i → p[j]? = some m → .reg r ∉ m.instr.dests

/-- A program has no flow just when it reads what was not stored. -/
theorem readsUnwritten_iff {p : Program} : p.ReadsUnwritten ↔ ∃ e, Flow.ofProgram p = .error e := by
  constructor
  · intro h
    obtain ⟨i, n, r, hn, hr, hno⟩ := h
    cases hf : Flow.ofProgram p with
    | error e => exact ⟨e, rfl⟩
    | ok f =>
      obtain ⟨w, hw⟩ := (Flow.exact_ofProgram hf).written i r (by rw [sourcesOf_eq hn]; exact hr)
      obtain ⟨hlt, hst, -⟩ := lastStore_eq_some_iff.mp hw
      obtain ⟨x, hx, hd⟩ := storesAt_iff.mp hst
      rw [getElem?_instrs, Option.map_eq_some_iff] at hx
      obtain ⟨m, hm, rfl⟩ := hx
      exact absurd hd (hno w m hlt hm)
  · intro h
    obtain ⟨e, he⟩ := h
    by_contra hno
    have hall (i : Nat) (r : UInt16) (hr : .reg r ∈ p.sourcesOf i) : ∃ w, lastStore p.instrs (.reg r) i = some w := by
      by_contra hnone
      obtain ⟨n, hn, hr⟩ := mem_sourcesOf.mp hr
      refine hno ⟨i, n, r, hn, hr, fun j m hj hm hd => hnone ?_⟩
      exact exists_lastStore hj (storesAt_iff.mpr ⟨m.instr, by rw [getElem?_instrs, hm]; rfl, hd⟩)
    obtain ⟨f, hf⟩ := Flow.ofProgram_isOk hall
    rw [hf] at he
    cases he

end Program

namespace Compile

open Program Emission

structure Addressed (o : Optimized) : Prop where
  nodes : ∀ i ∈ o.order, i < o.program.size
  /-- Values are in flight between positions of the order. -/
  stretches : ∀ i ∈ o.order, ∀ s ∈ o.program.flights o.live (positions o.program.size o.order) i,
    s.1 < o.order.length ∧ s.2 < o.order.length
  slots : ∀ r, Renumbering.ofOrder o.program o.live o.order = .ok r → r.slotOf.size = o.program.size

variable {settings : Settings} {d : Stream.Decoded} {o : Optimized}

theorem foldl_max_lt {bound : Nat} {xs : List Nat} (h : ∀ x ∈ xs, x < bound) {start : Nat} (hs : start < bound) :
    xs.foldl max start < bound := by
  induction xs generalizing start with
  | nil => exact hs
  | cons x xs ih =>
    exact ih (fun y hy => h y (List.mem_cons_of_mem _ hy)) (Nat.max_lt.mpr ⟨hs, h x List.mem_cons_self⟩)

theorem position_lt (h : Optimum settings d o) {i : Nat} (hi : i ∈ o.order) :
    (positions o.program.size o.order).getD i 0 < o.order.length := by
  obtain ⟨x, hx⟩ := List.getElem?_of_mem hi
  rw [getD_positions_order h hx]
  exact (List.getElem?_eq_some_iff.mp hx).1

theorem stretch_lt (h : Optimum settings d o) (hin : Intact o.program o.live) {i : Nat} (hi : i ∈ o.order)
    {s : Nat × Nat} (hs : s ∈ o.program.flights o.live (positions o.program.size o.order) i) :
    s.1 < o.order.length ∧ s.2 < o.order.length := by
  obtain ⟨hlt, -⟩ := (mem_order_iff h.handed).mp hi
  obtain ⟨n, hn⟩ := exists_node hlt
  simp only [flights, hn] at hs
  obtain ⟨⟨dest, pos⟩, -, e⟩ := List.mem_filterMap.mp hs
  cases dest with
  | acc => cases e
  | reg r =>
    obtain ⟨-, e⟩ := Option.ite_none_left_eq_some.mp e
    cases e
    refine ⟨position_lt h hi, foldl_max_lt (fun x hx => ?_) (position_lt h hi)⟩
    -- The value ends at a live reader, which is emitted as well.
    obtain ⟨⟨j, k⟩, huse, rfl⟩ := List.mem_map.mp hx
    obtain ⟨hread, hlive⟩ := Liveness.mem_liveReaders.mp (List.mem_filter.mp huse).1
    obtain ⟨-, m, hm, -⟩ := hin.reader i j k hlt hread
    exact position_lt h ((mem_order_iff h.handed).mpr ⟨lt_size_of_getElem? hm, hlive⟩)

theorem addressed (h : Optimum settings d o) (hin : Intact o.program o.live) : Addressed o where
  nodes i hi := ((mem_order_iff h.handed).mp hi).1
  stretches i hi s hs := stretch_lt h hin hi hs
  slots r hr := by
    rw [(Renumbering.numbered_ofOrder hr).slotOf, Renumbering.size_slotOf, Array.size_replicate]

/-- All that the emitted nodes refer to has a number. -/
theorem allCovered (h : Optimum settings d o) {r : Renumbering}
    (hr : Renumbering.ofOrder o.program o.live o.order = .ok r) (hs : r.registers.size ≤ 65535) :
    AllCovered o.program o.live r o.order := by
  intro i hi
  obtain ⟨n, hn⟩ := exists_node ((mem_order_iff h.handed).mp hi).1
  exact ⟨n, hn, covered_ofOrder hr (nodup_order h.handed) hs hi hn⟩

theorem short_chains (hin : Intact o.program o.live) : ∀ c ∈ o.program.chains o.live, c.length ≤ 255 := by
  intro c hc
  obtain ⟨root, -, rfl⟩ := List.mem_map.mp hc
  exact hin.short root

theorem emission_error (h : Optimum settings d o) (hin : Intact o.program o.live) {r : Renumbering}
    (hr : Renumbering.ofOrder o.program o.live o.order = .ok r) {e : Emission.Error}
    (he : ofChains o.program o.live r (o.program.chains o.live) = .error e) :
    e = .overflow .registers ∨ e = .streamTooLong :=
  ofChains_error (allCovered h hr) (short_chains hin) he

/-! ## Errors -/

inductive Reason (code : Bytes) (functions : UInt32) : Error → Prop
  | stream {e : Stream.Error} : Stream.decode code functions.toNat = .error e → Reason code functions (.stream e)
  | unwritten {d : Stream.Decoded} {e : Flow.UnwrittenRead} : Stream.decode code functions.toNat = .ok d →
      Flow.ofProgram d.program = .error e → Reason code functions (.unwritten e)
  | registerLimit (inFlight limit : Nat) : Reason code functions (.registerLimit inFlight limit)
  | renumbering (space : Space) : Reason code functions (.renumbering space)
  | registers : Reason code functions (.emission (.overflow .registers))
  | streamTooLong : Reason code functions (.emission .streamTooLong)

variable {code : Bytes} {functions : UInt32} {e : Error}

/-- The words for all reasons but a read of what was not stored. -/
def otherFaults : List Fault :=
  [.fatal .bytecode, .fatal .externalFunction, .fatal (.externalFunction ||| .overflow),
   .fatal (.overflow ||| .registerUsage), .fatal (.ssaRemap ||| .overflow), .fatal (.constRemap ||| .overflow),
   .fatal (.inputMergeBuffer ||| .overflow), .fatal (.optimizedBytecode ||| .overflow)]

theorem Reason.fault_cases (h : Reason code functions e) :
    (∃ x, e = .unwritten x) ∧ e.fault = .fatal .instructions ∨ e.fault ∈ otherFaults := by
  cases h with
  | @stream e _ => cases e <;> simp [Error.fault, Stream.Error.fault, otherFaults]
  | unwritten => exact .inl ⟨⟨_, rfl⟩, rfl⟩
  | registerLimit => simp [Error.fault, otherFaults]
  | renumbering space => cases space <;> simp [Error.fault, Space.fault, otherFaults]
  | registers => simp [Error.fault, Emission.Error.fault, Space.fault, otherFaults]
  | streamTooLong => simp [Error.fault, Emission.Error.fault, otherFaults]

theorem Reason.not_reorder (h : Reason code functions e) : e.fault.contains .instructionReorder = false := by
  rcases h.fault_cases with ⟨-, hf⟩ | hf
  · rw [hf]
    decide
  · exact (by decide : ∀ f ∈ otherFaults, f.contains .instructionReorder = false) _ hf

theorem Reason.unwritten_of_fault (h : Reason code functions e) (hf : e.fault = .fatal .instructions) :
    ∃ x, e = .unwritten x := by
  rcases h.fault_cases with ⟨hx, -⟩ | hmem
  · exact hx
  · rw [hf] at hmem
    exact absurd hmem (by decide)

theorem write_error {bytesIn : Nat} (h : Optimum settings d o) (hin : Intact o.program o.live)
    (he : write bytesIn settings o = .error e) : Reason code functions e := by
  unfold write at he
  rw [h.handed.checkLinks h.sound.flow (short_chains hin)] at he
  dsimp only at he
  split at he
  · cases he
    exact .registerLimit _ _
  · split at he
    · cases he
      exact .renumbering _
    · rename_i r hr
      split at he
      · rename_i x hx
        cases he
        rcases emission_error h hin hr hx with rfl | rfl
        · exact .registers
        · exact .streamTooLong
      · cases he

theorem intact_optimize {f : Flow} (hd : Stream.decode code functions.toNat = .ok d)
    (hf : Flow.ofProgram d.program = .ok f) {p : Program} {l : Liveness}
    (h : Reach settings.groupLimit.toNat d.program (Liveness.ofFlow f d.program) p l) : Intact p l :=
  h.intact (intact_ofItems (Stream.decode_ok hd).2.1 hf) (Nat.le_of_lt_succ settings.groupLimit.toNat_lt)

theorem compile_error (he : compile code functions settings = .error e) : Reason code functions e := by
  unfold compile read at he
  cases hd : Stream.decode code functions.toNat with
  | error x =>
    rw [hd] at he
    cases he
    exact .stream hd
  | ok d =>
    simp only [hd] at he
    cases hf : Flow.ofProgram d.program with
    | error x =>
      simp only [hf] at he
      cases he
      exact .unwritten hd hf
    | ok f =>
      simp only [hf] at he
      exact write_error (optimum_optimize (Stream.decode_ok hd).2.1 hf)
        (intact_optimize hd hf (reach_optimize settings d f)) he

/-- Every state on the way to the optimised program is intact and the checks behind it pass; so a compile never reports
    links without an order, and it reports contradicting instructions just when a register is read before anything was
    stored in it. -/
theorem compile_faults (code : Bytes) (functions : UInt32) (settings : Settings) :
    (∀ d f, Stream.decode code functions.toNat = .ok d → Flow.ofProgram d.program = .ok f →
      (∀ p l, Reach settings.groupLimit.toNat d.program (Liveness.ofFlow f d.program) p l → Intact p l) ∧
      ∃ o, read code functions settings = .ok o ∧
        Reach settings.groupLimit.toNat d.program (Liveness.ofFlow f d.program) o.program o.live ∧
        o.program.checkLinks o.live = .ok () ∧ Addressed o ∧
        ∀ r, Renumbering.ofOrder o.program o.live o.order = .ok r →
          (r.registers.size ≤ 65535 → AllCovered o.program o.live r o.order) ∧
          ∀ e, ofChains o.program o.live r (o.program.chains o.live) = .error e →
            e = .overflow .registers ∨ e = .streamTooLong) ∧
    (∀ e, compile code functions settings = .error e → e.fault.contains .instructionReorder = false) ∧
    (∀ c, compile code functions settings = .ok c → c.flags.contains .instructionReorder = false) ∧
    ((∃ e, compile code functions settings = .error e ∧ e.fault = .fatal .instructions) ↔
      ∃ d, Stream.decode code functions.toNat = .ok d ∧ d.program.ReadsUnwritten) := by
  refine ⟨fun d f hd hf => ⟨fun p l => intact_optimize hd hf, ?_⟩, fun e he => (compile_error he).not_reorder,
    fun c hc => ?_, ?_⟩
  · have hopt : Optimum settings d (optimize settings d f) := optimum_optimize (Stream.decode_ok hd).2.1 hf
    have hreach := reach_optimize settings d f
    have hin := intact_optimize hd hf hreach
    refine ⟨optimize settings d f, by simp only [read, hd, hf], hreach, ?_, addressed hopt hin, fun r hr => ⟨?_, ?_⟩⟩
    · exact hopt.handed.checkLinks hopt.sound.flow (short_chains hin)
    · exact allCovered hopt hr
    · exact fun e he => emission_error hopt hin hr he
  · obtain ⟨d, o, e, -, -, hw⟩ := compile_ok hc
    rw [hw.flags]
    split
    · decide
    · decide
  · constructor
    · intro h
      obtain ⟨e, he, hfault⟩ := h
      have hreason := compile_error he
      obtain ⟨x, rfl⟩ := hreason.unwritten_of_fault hfault
      cases hreason with
      | @unwritten d _ hd hf => exact ⟨d, hd, readsUnwritten_iff.mpr ⟨x, hf⟩⟩
    · intro h
      obtain ⟨d, hd, hr⟩ := h
      obtain ⟨x, hx⟩ := readsUnwritten_iff.mp hr
      exact ⟨.unwritten x, by simp only [compile, read, hd, hx], rfl⟩

/-- A register is added to itself before anything was stored in it. -/
def strayStream : Bytes := [0x30, 0, 0, 9, 0, 9, 0, 8]

theorem compile_faults_product :
    (∃ o, read productStream 0 {} = .ok o ∧ o.program.checkLinks o.live = .ok () ∧ Addressed o) ∧
      ∃ e, compile strayStream 0 {} = .error e ∧ e.fault = .fatal .instructions := by
  constructor
  · obtain ⟨d, hd, hflow⟩ := exists_ok_of_any (by decide +kernel :
      (Stream.decode productStream 0).toOption.any (fun d => (Flow.ofProgram d.program).toOption.isSome) = true)
    obtain ⟨f, hf, -⟩ := exists_ok_of_any (p := fun _ => true) (by simpa using hflow)
    obtain ⟨-, o, ho, -, hlinks, haddr, -⟩ := (compile_faults productStream 0 {}).1 d f hd hf
    exact ⟨o, ho, hlinks, haddr⟩
  · obtain ⟨d, hd, hread⟩ := exists_ok_of_any (by decide +kernel :
      (Stream.decode strayStream 0).toOption.any
        (fun d => d.program[0]?.any fun n => n.instr.sources.contains (.reg 9)) = true)
    obtain ⟨n, hn, hr⟩ := (Option.any_eq_true _ _).mp hread
    refine (compile_faults strayStream 0 {}).2.2.2.mpr ⟨d, hd, 0, n, 9, hn, List.contains_iff_mem.mp hr, ?_⟩
    intro j m hj
    exact absurd hj (Nat.not_lt_zero j)

end Compile

end LaneScript
