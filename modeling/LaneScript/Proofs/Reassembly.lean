/-
  LaneScript.Proofs.Reassembly — a listing assembles to the stream it was made from.

  Source text spells shaped items only (`shaped_of_parse`, from what one line can do to
  the state), and the compiler writes shaped items too. So, for a stream of at most 2^24
  bytes that can be read: it has a listing; the listing without its offsets assembles to
  a stream of the same length that is read the same; and it is the same stream wherever
  the bits that reading ignores are clear, as they are in what the assembler and the
  compiler write.
-/
import LaneScript.Proofs.Compile
import LaneScript.Proofs.Listing

namespace LaneScript

/-! ## What source text can spell -/

namespace Assembly

/-- What one line can do to the state. -/
theorem line_cases {st st' : State} {n : Nat} {raw : List Char} (h : st.line n raw = .ok st') :
    st' = st ∨ st.close = .ok st' ∨ (∃ rest, st.openAt n rest = .ok st') ∨
      ∃ opcode rest i, instruction opcode rest = .ok i ∧ st' = st.add i := by
  unfold State.line at h
  split at h
  · cases h
    exact .inl rfl
  · exact .inr (.inl h)
  · dsimp only at h
    split at h
    · exact .inr (.inr (.inl ⟨_, h⟩))
    · split at h
      · cases h
      · obtain ⟨i, hi, h⟩ := Emission.bind_ok h
        cases h
        exact .inr (.inr (.inr ⟨_, _, i, hi, rfl⟩))

structure State.Shaped (st : State) : Prop where
  items : ∀ item ∈ st.items, item.Shaped
  steps : ∀ line steps, st.opened = some (line, steps) → ∀ i ∈ steps, i.WellShaped

theorem State.Shaped.close {st st' : State} (hs : st.Shaped) (h : st.close = .ok st') : st'.Shaped := by
  unfold State.close at h
  split at h
  · cases h
  · rename_i line steps ho
    split at h
    · cases h
    · rename_i hlen
      cases h
      refine ⟨fun item hi => ?_, by simp⟩
      rcases List.mem_cons.mp hi with rfl | hi
      · refine ⟨by rw [List.length_reverse]; omega, fun i hi => ?_⟩
        exact hs.steps line steps ho i (List.mem_reverse.mp hi)
      · exact hs.items item hi

theorem State.Shaped.openAt {st st' : State} (hs : st.Shaped) {n : Nat} {rest : List Char}
    (h : st.openAt n rest = .ok st') : st'.Shaped := by
  unfold State.openAt at h
  split at h
  · cases h
  · split at h
    · cases h
      refine ⟨hs.items, fun line steps e => ?_⟩
      cases e
      simp
    · cases h

theorem State.Shaped.add {st : State} (hs : st.Shaped) {i : Instruction} (hi : i.WellShaped) : (st.add i).Shaped := by
  unfold State.add
  split
  · rename_i ho
    refine ⟨fun item hm => ?_, fun line steps e => ?_⟩
    · rcases List.mem_cons.mp hm with rfl | hm
      · exact hi
      · exact hs.items item hm
    · rw [ho] at e
      cases e
  · rename_i line steps ho
    refine ⟨hs.items, fun line' steps' e => ?_⟩
    cases e
    intro j hj
    rcases List.mem_cons.mp hj with rfl | hj
    · exact hi
    · exact hs.steps line steps ho j hj

theorem State.Shaped.line {st st' : State} (hs : st.Shaped) {n : Nat} {raw : List Char}
    (h : st.line n raw = .ok st') : st'.Shaped := by
  rcases line_cases h with rfl | hc | ⟨rest, ho⟩ | ⟨opcode, rest, i, hi, rfl⟩
  · exact hs
  · exact hs.close hc
  · exact hs.openAt ho
  · exact hs.add (wellShaped_of_instruction hi)

theorem State.Shaped.lines {st st' : State} (hs : st.Shaped) {n : Nat} {ls : List (List Char)}
    (h : st.lines n ls = .ok st') : st'.Shaped := by
  induction ls generalizing st n with
  | nil =>
    cases h
    exact hs
  | cons l ls ih =>
    rw [State.lines] at h
    split at h
    · cases h
    · rename_i mid hm
      exact ih (hs.line hm) h

theorem shaped_of_parse {text : List Char} {items : List Stream.Item} (h : parse text = .ok items) :
    ∀ item ∈ items, item.Shaped := by
  have hstart : State.Shaped {} := ⟨by simp, by simp⟩
  unfold parse at h
  split at h
  · cases h
  · cases h
  · rename_i found hrun
    cases h
    intro item hi
    exact (hstart.lines hrun).items item (List.mem_reverse.mp hi)

end Assembly

/-! ## The bits that reading ignores -/

namespace Stream

variable {code other : Bytes} {functions : Nat} {d : Decoded}

/-- The streams that are read as `d` are those that agree with one of them off the loose bits. -/
theorem decode_eq_iff_agree (h : decode code functions = .ok d) :
    decode other functions = .ok d ↔ Bytes.Agree d.script.loose code other := by
  obtain ⟨hn, hw, hc, hd, ha⟩ := decode_script_iff.mp h
  constructor
  · intro ho
    exact ha.symm.trans (decode_script_iff.mp ho).2.2.2.2
  · intro ho
    exact decode_script_iff.mpr ⟨hn, hw, hc, hd, ha.trans ho⟩

end Stream

/-! ## Reassembly -/

namespace Compile

/-- Compiled code is written from well-formed items and the closing instruction. -/
theorem exists_shaped {input : Bytes} {functions : UInt32} {settings : Settings} {c : Compiled}
    (h : compile input functions settings = .ok c) :
    ∃ items : List Stream.Item, (∀ item ∈ items, item.Shaped) ∧ c.image.code = Stream.encode items := by
  obtain ⟨d, o, e, hd, hopt, hw⟩ := compile_ok h
  have hwell := wellFormed_items hopt hw
  have hcode : c.image.code = Emission.codeOf e.items := by
    have he := (Emission.ofChains_ok_iff.mp hw.emitted).2.2.2
    rw [hw.image, he]
    rfl
  rw [hcode, Emission.codeOf]
  split
  · exact ⟨[], by simp, rfl⟩
  · refine ⟨e.items ++ [.plain .done], fun item hi => ?_, ?_⟩
    · rcases List.mem_append.mp hi with hi | hi
      · exact (hwell item hi).toShaped
      · rw [List.mem_singleton.mp hi]
        exact ⟨rfl, rfl, rfl⟩
    · exact (Stream.Script.encode_closing ⟨e.items, true⟩).symm

end Compile

namespace Assembly

variable {code : Bytes} {d : Stream.Decoded}

theorem assemble_listing (hl : code.length ≤ 16777216) (hd : Stream.decode code Stream.maxFunctions = .ok d) :
    assemble (cutColumn (String.ofList (Listing.ofLines (listingLines d)))) = .ok d.script.encode := by
  obtain ⟨-, hw, -, hdone, ha⟩ := Stream.decode_script_iff.mp hd
  have hcode : d.script.encode.length ≤ 16777216 := by
    rw [ha.length_eq.1, ← ha.length_eq.2]
    exact hl
  have hitems : (Stream.encode d.items).length ≤ d.script.encode.length := by
    rw [Stream.Script.encode, List.length_append]
    exact Nat.le_add_right _ _
  rw [Stream.length_encode] at hitems
  have hoffset : ∀ offset, d.doneAt = some offset → offset < 16777216 := by
    intro offset ho
    rw [hdone, Stream.Script.doneFrom_zero] at ho
    split at ho
    · rename_i hclosed
      have hpos : 0 < d.script.encode.length := by
        rw [Stream.Script.encode, hclosed]
        simp
      cases ho
      omega
    · cases ho
  rw [assemble, parse_listing hw (by omega) hoffset]
  exact congrArg Except.ok d.script.encode_closing

/-- The listing of a stream, without its offsets, assembles to a stream that is read the same. It is the stream itself
    just where the bits that reading ignores are clear, and so wherever the stream was assembled or compiled. -/
theorem disassemble_reassembles (hl : code.length ≤ 16777216) (hd : Stream.decode code Stream.maxFunctions = .ok d) :
    ∃ text code', disassemble code = .ok text ∧ assemble (cutColumn text) = .ok code' ∧
      code'.length = code.length ∧ Stream.decode code' Stream.maxFunctions = .ok d ∧
      (∀ other, Stream.decode other Stream.maxFunctions = .ok d ↔ Bytes.Agree d.script.loose code other) ∧
      (code' = code ↔ Bytes.Clear d.script.loose code) ∧
      (∀ source, assemble source = .ok code → code' = code) ∧
      ∀ input functions settings c, compile input functions settings = .ok c → c.image.code = code → code' = code := by
  obtain ⟨hn, hw, hc, hdone, ha⟩ := Stream.decode_script_iff.mp hd
  have hshaped {items : List Stream.Item} (hi : ∀ item ∈ items, item.Shaped) (e : code = Stream.encode items) :
      d.script.encode = code := by
    rw [e] at ha ⊢
    exact Stream.Script.eq_encode_of_shaped hw hi ha
  refine ⟨_, d.script.encode, ?_, assemble_listing hl hd, ?_, ?_, fun other => Stream.decode_eq_iff_agree hd, ⟨?_, ?_⟩,
    fun source hs => ?_, fun input functions settings c h e => ?_⟩
  · rw [disassemble, hd]
    rfl
  · rw [ha.length_eq.1, ha.length_eq.2]
  · exact (Stream.decode_eq_iff_agree hd).mpr ha.symm
  · intro e
    rw [← e]
    exact Stream.Script.clear_encode hw
  · intro hclear
    exact Stream.Script.eq_encode_of_clear hw ha hclear
  · obtain ⟨items, hp, hs⟩ := Emission.bind_ok hs
    cases hs
    exact hshaped (shaped_of_parse hp) rfl
  · obtain ⟨items, hi, hitems⟩ := Compile.exists_shaped h
    exact hshaped hi (e.symm.trans hitems)

theorem wellFormed_chainScript_all : Stream.chainScript.WellFormed Stream.maxFunctions := by
  have h := Stream.wellFormed_chainScript
  exact ⟨Nat.le_refl _, h.items, fun c hc => Nat.lt_of_lt_of_le (h.known c hc) (by decide), h.agree⟩

theorem disassemble_reassembles_chain : Stream.chainStream.length ≤ 16777216 ∧
    ∃ d, Stream.decode Stream.chainStream Stream.maxFunctions = .ok d ∧
      ∃ text code', disassemble Stream.chainStream = .ok text ∧ assemble (cutColumn text) = .ok code' ∧
        code'.length = Stream.chainStream.length ∧ Stream.decode code' Stream.maxFunctions = .ok d := by
  have hs : Stream.chainScript.Spells Stream.chainStream := by
    unfold Stream.Script.Spells
    decide
  obtain ⟨d, hd, -⟩ := Stream.Script.decode_of_spells wellFormed_chainScript_all hs
  have hl : Stream.chainStream.length ≤ 16777216 := by decide
  obtain ⟨text, code', ht, ha, hlen, hdec, -⟩ := disassemble_reassembles hl hd
  exact ⟨hl, d, hd, text, code', ht, ha, hlen, hdec⟩

end Assembly

end LaneScript
