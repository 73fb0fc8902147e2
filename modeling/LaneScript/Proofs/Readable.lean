/-
  LaneScript.Proofs.Readable — the source texts whose streams can be read.

  Source text may spell items that no stream may hold: something behind a `done`, an
  accumulator outside a group, a group that is no chain, calls of one function with
  different operand counts. `Readable` names these four conditions on the items of a text.
  The stream of a text is read just where they hold, and then reading finds the text again:
  the instructions of its lines, one for one and in their order, and the steps of each
  group linked to a chain (`assemble_exact`).
-/
import LaneScript.Proofs.Drafting
import LaneScript.Proofs.SourceLines

namespace LaneScript

namespace Stream

/-! ## Readable items -/

structure Chained (steps : List Instruction) : Prop where
  two : 2 ≤ steps.length
  category : ∀ i ∈ steps, i.category = .compute ∨ i.category = .output
  first : ∀ i, steps.head? = some i → .acc ∉ i.sources ∧ i.dests = [.acc]
  middle : ∀ (k : Nat) (i : Instruction), 0 < k → k + 1 < steps.length → steps[k]? = some i →
    i.sources.count .acc = 1 ∧ i.dests = [.acc]
  last : ∀ i, steps.getLast? = some i → i.sources.count .acc = 1 ∧ .acc ∉ i.dests

/-- What reading asks of items beyond the shape of their instructions. -/
structure Readable (items : List Item) : Prop where
  /-- Nothing follows a `done`. -/
  done : ∀ (front : List Item) (i : Instruction) (back : List Item), items = front ++ .plain i :: back →
    i.opcode = .done → back = []
  /-- The accumulator is an operand inside groups only. -/
  plain : ∀ i, .plain i ∈ items → .acc ∉ i.sources ∧ .acc ∉ i.dests
  group : ∀ steps, .group steps ∈ items → Chained steps
  /-- Every function has one number of sources and one of destinations. -/
  calls : ∀ i ∈ items.flatMap Item.instructions, ∀ j ∈ items.flatMap Item.instructions, ∀ f,
    i.payload = .call f → j.payload = .call f → i.sources.length = j.sources.length ∧ i.dests.length = j.dests.length

theorem dests_eq_acc_iff {i : Instruction} (hw : i.WellShaped) (hc : i.category = .compute ∨ i.category = .output) :
    i.dests = [.acc] ↔ .acc ∈ i.dests := by
  obtain ⟨opcode, payload, ss, ds⟩ := i
  cases opcode with
  | compute f =>
    obtain ⟨d, rfl⟩ := List.length_eq_one_iff.mp hw.2.2
    cases d <;> simp
  | output e =>
    obtain ⟨-, -, rfl⟩ := hw
    simp
  | _ => simp [Instruction.category, Opcode.category] at hc

/-- A chain in the words of the format. -/
theorem chained_iff {steps : List Instruction} (hw : ∀ i ∈ steps, i.WellShaped) : Chained steps ↔
    2 ≤ steps.length ∧ ∀ (k : Nat) (i : Instruction), steps[k]? = some i → IsStepAt steps.length k i := by
  apply Iff.intro
  · intro h
    refine ⟨h.two, fun k i hk => ?_⟩
    have hmem := List.mem_of_getElem? hk
    have hlt := (List.getElem?_eq_some_iff.mp hk).1
    have hdests := dests_eq_acc_iff (hw i hmem) (h.category i hmem)
    have htwo := h.two
    by_cases hfirst : k = 0
    · obtain ⟨hs, hd⟩ := h.first i (by rw [List.head?_eq_getElem?, ← hfirst]; exact hk)
      refine ⟨hw i hmem, h.category i hmem, ?_, iff_of_true (hdests.mp hd) (by omega)⟩
      rw [if_pos hfirst]
      exact List.count_eq_zero.mpr hs
    by_cases hlast : k + 1 < steps.length
    · obtain ⟨hs, hd⟩ := h.middle k i (by omega) hlast hk
      exact ⟨hw i hmem, h.category i hmem, by rw [if_neg hfirst]; exact hs, iff_of_true (hdests.mp hd) hlast⟩
    · have hk' : k = steps.length - 1 := by omega
      obtain ⟨hs, hd⟩ := h.last i (by rw [List.getLast?_eq_getElem?, ← hk']; exact hk)
      exact ⟨hw i hmem, h.category i hmem, by rw [if_neg hfirst]; exact hs, iff_of_false hd hlast⟩
  · intro h
    obtain ⟨htwo, h⟩ := h
    have category : ∀ i ∈ steps, i.category = .compute ∨ i.category = .output := by
      intro i hi
      obtain ⟨k, hk⟩ := List.getElem?_of_mem hi
      exact (h k i hk).category
    have hdests {k : Nat} {i : Instruction} (hk : steps[k]? = some i) : i.dests = [.acc] ↔ .acc ∈ i.dests :=
      dests_eq_acc_iff (h k i hk).shaped (h k i hk).category
    refine ⟨htwo, category, fun i hi => ?_, fun k i hk0 hk1 hk => ?_, fun i hi => ?_⟩
    · rw [List.head?_eq_getElem?] at hi
      have hs := (h 0 i hi).takes
      rw [if_pos rfl] at hs
      exact ⟨List.count_eq_zero.mp hs, (hdests hi).mpr ((h 0 i hi).hands.mpr (by omega))⟩
    · have hs := (h k i hk).takes
      rw [if_neg (by omega)] at hs
      exact ⟨hs, (hdests hk).mpr ((h k i hk).hands.mpr hk1)⟩
    · rw [List.getLast?_eq_getElem?] at hi
      have hs := (h _ i hi).takes
      rw [if_neg (by omega)] at hs
      refine ⟨hs, fun hd => ?_⟩
      have := (h _ i hi).hands.mp hd
      omega

variable {items : List Item}

/-! ## Scripts of readable items -/

/-- Where nothing follows a `done`, items are those of a script, without `done` among them, and its closing. -/
theorem exists_script (hi : ∀ item ∈ items, item.Shaped) (hdone : ∀ (front : List Item) (i : Instruction) (back : List Item),
    items = front ++ .plain i :: back → i.opcode = .done → back = []) :
    ∃ s : Script, items = s.items ++ s.closing ∧ ∀ i, .plain i ∈ s.items → i.opcode ≠ .done := by
  by_cases hlast : ∃ front i, items = front ++ [.plain i] ∧ i.opcode = .done
  · obtain ⟨front, ⟨opcode, payload, ss, ds⟩, rfl, ho⟩ := hlast
    obtain rfl : opcode = .done := ho
    obtain ⟨rfl, rfl, rfl⟩ := hi _ (List.mem_append_right front List.mem_cons_self)
    refine ⟨⟨front, true⟩, rfl, fun i hm ho => ?_⟩
    obtain ⟨a, b, rfl⟩ := List.append_of_mem hm
    have hnil := hdone a i (b ++ [_]) (by rw [List.append_assoc]; rfl) ho
    exact List.append_ne_nil_of_right_ne_nil b (List.cons_ne_nil _ []) hnil
  · refine ⟨⟨items, false⟩, (List.append_nil items).symm, fun i hm ho => ?_⟩
    obtain ⟨a, b, rfl⟩ := List.append_of_mem hm
    obtain rfl := hdone a i b rfl ho
    exact hlast ⟨a, i, rfl, ho⟩

theorem eq_nil_of_closing {s : Script} (hs : ∀ i, .plain i ∈ s.items → i.opcode ≠ .done) {front back : List Item}
    {i : Instruction} (e : s.items ++ s.closing = front ++ .plain i :: back) (ho : i.opcode = .done) : back = [] := by
  obtain ⟨items, closed⟩ := s
  cases closed with
  | false =>
    have hm : .plain i ∈ items := by
      rw [← List.append_nil items]
      exact e ▸ List.mem_append_right front List.mem_cons_self
    exact absurd ho (hs i hm)
  | true =>
    rcases List.eq_nil_or_concat back with hnil | ⟨init, x, rfl⟩
    · exact hnil
    · have e : items ++ [.plain .done] = (front ++ .plain i :: init) ++ [x] := by
        simpa [Script.closing] using e
      obtain ⟨rfl, -⟩ := List.append_inj' e rfl
      exact absurd ho (hs i (List.mem_append_right front List.mem_cons_self))

theorem calls_closing (s : Script) :
    ((s.items ++ s.closing).flatMap Item.instructions).filterMap Instruction.call? = s.calls := by
  obtain ⟨items, closed⟩ := s
  rw [List.flatMap_append, List.filterMap_append]
  cases closed <;> exact List.append_nil _

theorem calls_agree_iff {is : List Instruction} :
    (∀ c ∈ is.filterMap Instruction.call?, ∀ c' ∈ is.filterMap Instruction.call?, c.1 = c'.1 → c.2 = c'.2) ↔
      ∀ i ∈ is, ∀ j ∈ is, ∀ f, i.payload = .call f → j.payload = .call f →
        i.sources.length = j.sources.length ∧ i.dests.length = j.dests.length := by
  have shape {i : Instruction} {f : UInt16} (h : i.payload = .call f) :
      i.call? = some (f, ⟨i.sources.length, i.dests.length⟩) := by
    rw [Instruction.call?, h]
  have payload {i : Instruction} {c : UInt16 × CallShape} (h : i.call? = some c) :
      i.payload = .call c.1 ∧ c.2 = ⟨i.sources.length, i.dests.length⟩ := by
    unfold Instruction.call? at h
    split at h
    · cases h
      exact ⟨‹_›, rfl⟩
    · cases h
  apply Iff.intro
  · intro h i hi j hj f hf hf'
    have hshapes := h _ (List.mem_filterMap.mpr ⟨i, hi, shape hf⟩) _ (List.mem_filterMap.mpr ⟨j, hj, shape hf'⟩) rfl
    exact ⟨congrArg CallShape.sources hshapes, congrArg CallShape.dests hshapes⟩
  · intro h c hc c' hc' e
    obtain ⟨i, hi, hci⟩ := List.mem_filterMap.mp hc
    obtain ⟨j, hj, hcj⟩ := List.mem_filterMap.mp hc'
    obtain ⟨hf, hshape⟩ := payload hci
    obtain ⟨hf', hshape'⟩ := payload hcj
    obtain ⟨hs, hd⟩ := h i hi j hj c.1 hf (e ▸ hf')
    rw [hshape, hshape', hs, hd]

/-- Items are readable just where they are those of a well-formed script and its closing. -/
theorem readable_iff (hi : ∀ item ∈ items, item.Shaped) :
    Readable items ↔ ∃ s : Script, items = s.items ++ s.closing ∧ s.WellFormed maxFunctions := by
  apply Iff.intro
  · intro h
    obtain ⟨s, rfl, hrunning⟩ := exists_script hi h.done
    refine ⟨s, rfl, Nat.le_refl _, fun item hm => ?_, fun c _ => c.1.toNat_lt, ?_⟩
    · have hm' := List.mem_append_left s.closing hm
      have hshaped := hi item hm'
      cases item with
      | plain i => exact ⟨hshaped, hrunning i hm, (h.plain i hm').1, (h.plain i hm').2⟩
      | group steps =>
        obtain ⟨htwo, hsteps⟩ := (chained_iff hshaped.2).mp (h.group steps hm')
        exact ⟨htwo, hshaped.1, hsteps⟩
    · rw [← calls_closing s]
      exact calls_agree_iff.mpr h.calls
  · intro h
    obtain ⟨s, rfl, hw⟩ := h
    have hrunning : ∀ i, .plain i ∈ s.items → i.opcode ≠ .done := fun i hm => (hw.items _ hm).running
    have hclosing : ∀ item ∈ s.closing, item = .plain .done := by
      intro item hm
      unfold Script.closing at hm
      split at hm
      · exact List.mem_singleton.mp hm
      · cases hm
    refine ⟨fun front i back e ho => eq_nil_of_closing hrunning e ho, fun i hm => ?_, fun steps hm => ?_, ?_⟩
    · rcases List.mem_append.mp hm with hm | hm
      · exact ⟨(hw.items _ hm).sources, (hw.items _ hm).dests⟩
      · cases hclosing _ hm
        simp [Instruction.done]
    · rcases List.mem_append.mp hm with hm' | hm'
      · obtain ⟨htwo, -, hsteps⟩ := hw.items _ hm'
        exact (chained_iff (hi _ hm).2).mpr ⟨htwo, hsteps⟩
      · cases hclosing _ hm'
    · apply calls_agree_iff.mp
      rw [calls_closing s]
      exact hw.agree

/-! ## Reading what was written -/

theorem spells_encode (s : Script) : s.Spells s.encode := Bytes.agree_refl s.length_loose

/-- The encoding of shaped items is read just where they are readable. -/
theorem decode_encode_iff (hi : ∀ item ∈ items, item.Shaped) :
    (∃ d, decode (encode items) maxFunctions = .ok d) ↔ Readable items := by
  rw [readable_iff hi]
  apply Iff.intro
  · intro h
    obtain ⟨d, hd⟩ := h
    obtain ⟨s, hw, hs⟩ := Script.wellFormed_of_decode hd
    exact ⟨s, Script.items_of_shaped (fun item hm => Item.allowed_iff.mp (hw.items item hm)) hi hs, hw⟩
  · intro h
    obtain ⟨s, rfl, hw⟩ := h
    rw [s.encode_closing]
    obtain ⟨d, hd, -⟩ := Script.decode_of_spells hw (spells_encode s)
    exact ⟨d, hd⟩

/-- What is read from the encoding of shaped items are the items. -/
theorem items_of_decode_encode (hi : ∀ item ∈ items, item.Shaped) {d : Decoded}
    (hd : decode (encode items) maxFunctions = .ok d) :
    items = d.items ++ d.script.closing ∧ d.script.Yields maxFunctions d := by
  obtain ⟨s, hw, hs⟩ := Script.wellFormed_of_decode hd
  obtain ⟨d', hd', hy⟩ := Script.decode_of_spells hw hs
  rw [hd] at hd'
  cases hd'
  have hscript : d.script = s := by
    obtain ⟨sitems, closed⟩ := s
    rw [Decoded.script, hy.items, hy.doneAt]
    cases closed <;> rfl
  rw [hy.items, hscript]
  exact ⟨Script.items_of_shaped (fun item hm => Item.allowed_iff.mp (hw.items item hm)) hi hs, hy⟩

end Stream

/-! ## Source text -/

namespace Assembly

structure Recovers (ls : List Line) (items : List Stream.Item) (d : Stream.Decoded) : Prop where
  /-- One node for each line with an instruction, in their order; a `done` on the last of them only ends the stream. -/
  instructions : ls.filterMap Line.code? =
    d.program.toList.map Node.instr ++ if d.doneAt.isSome then [.done] else []
  blocks : items = d.items ++ d.script.closing
  /-- Where each instruction stands, and how the steps of a group are linked. -/
  yields : d.script.Yields Stream.maxFunctions d

/-- For every source text: the builders never refuse; there is a stream just where the lines of the text are those of
    items, and it is the encoding of the items; it can be read just where the items are readable, and then the lines of
    the text are recovered. -/
theorem assemble_exact (source : String) :
    draft source = (assemble source).mapError .inl ∧
    (∀ code, assemble source = .ok code ↔ ∃ ls items, IsSource source.toList ls items ∧ code = Stream.encode items) ∧
    ∀ code ls items, assemble source = .ok code → IsSource source.toList ls items →
      ((∃ d, Stream.decode code Stream.maxFunctions = .ok d) ↔ Stream.Readable items) ∧
      ∀ d, Stream.decode code Stream.maxFunctions = .ok d → Recovers ls items d := by
  refine ⟨draft_eq source, fun code => assemble_eq_ok_iff, fun code ls items hc hs => ?_⟩
  have hitems : assemble source = .ok (Stream.encode items) := assemble_eq_ok_iff.mpr ⟨ls, items, hs, rfl⟩
  rw [hc] at hitems
  cases hitems
  refine ⟨Stream.decode_encode_iff hs.shaped, fun d hd => ?_⟩
  obtain ⟨hblocks, hyields⟩ := Stream.items_of_decode_encode hs.shaped hd
  refine ⟨?_, hblocks, hyields⟩
  rw [hs.instructions, hblocks, List.flatMap_append, Stream.Decoded.program, Program.map_instr_ofItems]
  show _ ++ List.flatMap _ (if d.doneAt.isSome then _ else _) = _
  cases d.doneAt <;> rfl

def chainSource : String :=
  "fused \x7b ; a chain\n\tneg acc , r 003\n  abs r4,acc\n\x7d\n\nexternal_call f1 (r4) -> r5 # one source\ndone"

theorem assemble_exact_chain : ∃ code ls d, assemble chainSource = .ok code ∧
    IsSource chainSource.toList ls (Stream.chainScript.items ++ Stream.chainScript.closing) ∧
    Stream.decode code Stream.maxFunctions = .ok d ∧
    Recovers ls (Stream.chainScript.items ++ Stream.chainScript.closing) d := by
  have hp : parse chainSource.toList = .ok (Stream.chainScript.items ++ Stream.chainScript.closing) := by decide +kernel
  obtain ⟨ls, hs⟩ := parse_eq_ok_iff.mp hp
  have hc := assemble_eq_ok_iff.mpr ⟨ls, _, hs, rfl⟩
  have hexact := (assemble_exact chainSource).2.2 _ ls _ hc hs
  obtain ⟨d, hd⟩ := hexact.1.mpr ((Stream.readable_iff hs.shaped).mpr ⟨_, rfl, wellFormed_chainScript_all⟩)
  exact ⟨_, ls, d, hc, hs, hd, hexact.2 d hd⟩

end Assembly

end LaneScript
