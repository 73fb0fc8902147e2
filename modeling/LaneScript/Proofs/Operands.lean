/-
  LaneScript.Proofs.Operands — the operands of an instruction survive being written as
  text and read.

  A number ends where no digit follows (`Stops`); every separator stops one. Each reader
  takes the text of what it reads off the front and leaves the rest, so the operands of a
  well-shaped instruction are read back from their text (`instruction_operandText`).
  Whatever is read from a text is well shaped (`wellShaped_of_instruction`).
-/
import LaneScript.Proofs.Emission
import LaneScript.Proofs.Text

namespace LaneScript

@[simp] theorem Source.text_reg (r : UInt16) : (Source.reg r).text = 'r' :: Numeral.decimal r.toNat := rfl

@[simp] theorem Dest.text_reg (r : UInt16) : (Dest.reg r).text = 'r' :: Numeral.decimal r.toNat := rfl

@[simp] theorem Instruction.address_field (o : Opcode) (d f : UInt16) (ss : List Source) (ds : List Dest) :
    Instruction.address ⟨o, .field d f, ss, ds⟩ = (d, f) := rfl

namespace Assembly

open Text (solid_decimal commaList commaList_cons behindCommas behindCommas_nil behindCommas_cons)

/-! ## Tokens -/

@[simp] theorem ok_bind {α β : Type} (a : α) (f : α → Except Problem β) : (Except.ok a >>= f) = f a := rfl

def Stops (rest : List Char) : Prop := ∀ c, rest.head? = some c → Numeral.isDigit c = false

@[simp] theorem stops_nil : Stops [] := by simp [Stops]

@[simp] theorem stops_cons {c : Char} {rest : List Char} : Stops (c :: rest) ↔ Numeral.isDigit c = false := by
  simp [Stops]

theorem stops_behindCommas (items : List (List Char)) {rest : List Char} (h : Stops rest) :
    Stops (behindCommas items ++ rest) := by
  cases items with
  | nil => exact h
  | cons x items => exact stops_cons.mpr (by decide)

/-- Digits up to the next stop are read as the number they spell. -/
theorem number_digits {digits rest : List Char} {w : UInt16} (hd : ∀ c ∈ digits, Numeral.isDigit c = true)
    (hw : Numeral.word? digits = some w) (h : Stops rest) : number (digits ++ rest) = .ok (w, rest) := by
  have hstart : Text.trimStart (digits ++ rest) = digits ++ rest := by
    cases digits with
    | nil => cases hw
    | cons c digits => exact Text.trimStart_cons (Text.isBlank_of_isDigit (hd c List.mem_cons_self)) _
  have hstop : rest.takeWhile Numeral.isDigit = [] ∧ rest.dropWhile Numeral.isDigit = rest := by
    cases rest with
    | nil => exact ⟨rfl, rfl⟩
    | cons c rest => simp [stops_cons.mp h]
  simp only [number, hstart, List.takeWhile_append_of_pos hd, List.dropWhile_append_of_pos hd, hstop, List.append_nil, hw]

@[simp] theorem number_decimal (w : UInt16) {rest : List Char} (h : Stops rest) :
    number (Numeral.decimal w.toNat ++ rest) = .ok (w, rest) :=
  number_digits (fun _ hc => Numeral.isDigit_of_mem_decimal hc) (Numeral.word?_decimal w) h

@[simp] theorem number_end (w : UInt16) : number (Numeral.decimal w.toNat) = .ok (w, []) := by
  simpa using number_decimal w stops_nil

theorem expect_token {token : String} {c : Char} (h : token.toList = [c]) (hb : Text.isBlank c = false)
    (rest : List Char) : expect token (c :: rest) = .ok rest := by
  rw [expect, eat?, Text.trimStart_cons hb, h]
  simp [Text.after?]

@[simp] theorem expect_comma (rest : List Char) : expect "," (',' :: rest) = .ok rest := expect_token rfl rfl rest

@[simp] theorem expect_dot (rest : List Char) : expect "." ('.' :: rest) = .ok rest := expect_token rfl rfl rest

@[simp] theorem register_text (r : UInt16) {rest : List Char} (h : Stops rest) :
    register ('r' :: (Numeral.decimal r.toNat ++ rest)) = .ok (r, rest) := number_decimal r h

@[simp] theorem register_end (r : UInt16) : register ('r' :: Numeral.decimal r.toNat) = .ok (r, []) := number_end r

@[simp] theorem register_space (text : List Char) : register (' ' :: text) = register text := rfl

@[simp] theorem dataset_text (ds : UInt16) {rest : List Char} (h : Stops rest) :
    dataset ('d' :: 's' :: (Numeral.decimal ds.toNat ++ rest)) = .ok (ds, rest) := number_decimal ds h

@[simp] theorem dataset_end (ds : UInt16) : dataset ('d' :: 's' :: Numeral.decimal ds.toNat) = .ok (ds, []) :=
  number_end ds

@[simp] theorem dataset_space (text : List Char) : dataset (' ' :: text) = dataset text := rfl

@[simp] theorem source_text (s : Source) {rest : List Char} (h : Stops rest) :
    source (s.text ++ rest) = .ok (s, rest) := by
  cases s with
  | reg r =>
    have hacc : eat? "acc" ((Source.reg r).text ++ rest) = none := rfl
    have hconst : eat? "c" ((Source.reg r).text ++ rest) = none := rfl
    have hr : register ((Source.reg r).text ++ rest) = .ok (r, rest) := register_text r h
    simp only [source, hacc, hconst, hr, ok_bind]
  | const c =>
    have hacc : eat? "acc" ((Source.const c).text ++ rest) = none := rfl
    have hconst : eat? "c" ((Source.const c).text ++ rest) = some (Numeral.decimal c.toNat ++ rest) := rfl
    simp only [source, hacc, hconst, number_decimal c h, ok_bind]
  | acc => rfl

@[simp] theorem source_end (s : Source) : source s.text = .ok (s, []) := by
  simpa using source_text s stops_nil

@[simp] theorem source_space (text : List Char) : source (' ' :: text) = source text := rfl

theorem dest_text (d : Dest) {rest : List Char} (h : Stops rest) : dest (d.text ++ rest) = .ok (d, rest) := by
  cases d with
  | reg r =>
    have hacc : eat? "acc" ((Dest.reg r).text ++ rest) = none := rfl
    have hr : register ((Dest.reg r).text ++ rest) = .ok (r, rest) := register_text r h
    simp only [dest, hacc, hr, ok_bind]
  | acc => rfl

/-! ## Lists of operands -/

theorem commaSources_text (ss : List Source) :
    commaSources ss.length (behindCommas (ss.map Source.text)) = .ok (ss, []) := by
  induction ss with
  | nil => rfl
  | cons s ss ih =>
    have hs := source_text s (stops_behindCommas (ss.map Source.text) stops_nil)
    rw [List.append_nil] at hs
    simp only [List.length_cons, List.map_cons, behindCommas_cons, commaSources, expect_comma, source_space, hs, ih, ok_bind]

theorem callSources_space (rounds : Nat) (text : List Char) :
    callSources (rounds + 1) (' ' :: text) = callSources (rounds + 1) text := rfl

theorem registers_space (rounds : Nat) (text : List Char) :
    registers (rounds + 1) (' ' :: text) = registers (rounds + 1) text := rfl

theorem callSources_text (s : Source) (ss : List Source) (rest : List Char) {rounds : Nat} (h : ss.length ≤ rounds) :
    callSources (rounds + 1) (s.text ++ (behindCommas (ss.map Source.text) ++ ')' :: rest)) = .ok (s :: ss, rest) := by
  have hstop : Stops (')' :: rest) := stops_cons.mpr (by decide)
  induction ss generalizing s rounds with
  | nil =>
    have hclose : eat? ")" (')' :: rest) = some rest := rfl
    simp only [callSources, List.map_nil, behindCommas_nil, List.nil_append, source_text s hstop, hclose, ok_bind]
  | cons t ss ih =>
    obtain ⟨rounds, rfl⟩ : ∃ n, rounds = n + 1 := Nat.exists_eq_succ_of_ne_zero (by rw [List.length_cons] at h; omega)
    have hs := source_text s (stops_behindCommas ((t :: ss).map Source.text) hstop)
    have hclose (text : List Char) : eat? ")" (',' :: text) = none := rfl
    have hmore := ih t (Nat.le_of_succ_le_succ h)
    rw [← callSources_space] at hmore
    simp only [List.map_cons, behindCommas_cons, List.cons_append, List.append_assoc] at hs ⊢
    rw [callSources]
    simp only [hs, hclose, expect_comma, hmore, ok_bind]

theorem registers_text (r : UInt16) (rs : List UInt16) {rounds : Nat} (h : rs.length ≤ rounds) :
    registers (rounds + 1) ('r' :: (Numeral.decimal r.toNat ++ behindCommas (rs.map (Dest.reg · |>.text)))) =
      .ok (r :: rs, []) := by
  induction rs generalizing r rounds with
  | nil =>
    have hend : eat? "," [] = none := rfl
    simp only [registers, List.map_nil, behindCommas_nil, register_text r stops_nil, hend, ok_bind]
  | cons q rs ih =>
    obtain ⟨rounds, rfl⟩ : ∃ n, rounds = n + 1 := Nat.exists_eq_succ_of_ne_zero (by rw [List.length_cons] at h; omega)
    have hcomma (text : List Char) : eat? "," (',' :: text) = some text := rfl
    have hr (text : List Char) : register ('r' :: (Numeral.decimal r.toNat ++ ',' :: text)) = .ok (r, ',' :: text) :=
      register_text r (stops_cons.mpr (by decide))
    have hmore := ih q (Nat.le_of_succ_le_succ h)
    rw [← registers_space] at hmore
    rw [List.map_cons, behindCommas_cons, Dest.text, List.cons_append, registers]
    simp only [hr, hcomma, hmore, ok_bind]

def resultText : List UInt16 → List Char
  | [] => []
  | r :: rs => ' ' :: '-' :: '>' :: ' ' :: 'r' :: (Numeral.decimal r.toNat ++ behindCommas (rs.map (Dest.reg · |>.text)))

theorem length_le_behindCommas (items : List (List Char)) : items.length ≤ (behindCommas items).length := by
  induction items with
  | nil => exact Nat.le_refl 0
  | cons x items ih =>
    simp only [behindCommas_cons, List.length_cons, List.length_append]
    omega

/-- The bracket does not close before a source. -/
theorem eat?_close_commaList (s : Source) (ss : List Source) (rest : List Char) :
    eat? ")" (commaList ((s :: ss).map Source.text) ++ rest) = none := by
  rw [List.map_cons, commaList_cons]
  cases s <;> rfl

theorem callSources_commaList (s : Source) (ss : List Source) (rest : List Char) :
    callSources ((commaList ((s :: ss).map Source.text) ++ ')' :: rest).length + 1)
      (commaList ((s :: ss).map Source.text) ++ ')' :: rest) = .ok (s :: ss, rest) := by
  rw [List.map_cons, commaList_cons, List.append_assoc]
  apply callSources_text
  have := length_le_behindCommas (ss.map Source.text)
  simp only [List.length_map, List.length_append] at this ⊢
  omega

/-- The text of results is empty, or an arrow and registers. -/
theorem resultText_read (rs : List UInt16) :
    rs = [] ∧ eat? "->" (resultText rs) = none ∨
      ∃ rest, eat? "->" (resultText rs) = some rest ∧ registers (rest.length + 1) rest = .ok (rs, []) := by
  cases rs with
  | nil => exact .inl ⟨rfl, rfl⟩
  | cons r rs =>
    refine .inr ⟨_, rfl, ?_⟩
    rw [registers_space]
    apply registers_text
    have := length_le_behindCommas (rs.map (Dest.reg · |>.text))
    simp only [List.length_map, List.length_append, List.length_cons] at this ⊢
    omega

def callText (f : UInt16) (ss : List Source) (rs : List UInt16) : List Char :=
  'f' :: (Numeral.decimal f.toNat ++ ' ' :: '(' :: (commaList (ss.map Source.text) ++ ')' :: resultText rs))

theorem callOperands_text {f : UInt16} {ss : List Source} {rs : List UInt16} (hs : ss.length ≤ 255)
    (hr : rs.length ≤ 255) : callOperands (callText f ss rs) = .ok (⟨.call, .call f, ss, rs.map .reg⟩, []) := by
  have hf (rest : List Char) : marked "f" ('f' :: (Numeral.decimal f.toNat ++ ' ' :: rest)) = .ok (f, ' ' :: rest) :=
    number_decimal f (stops_cons.mpr (by decide))
  have hopen (rest : List Char) : expect "(" (' ' :: '(' :: rest) = .ok rest := rfl
  have hcount : ¬(255 < ss.length ∨ 255 < rs.length) := by omega
  simp only [callOperands, callText, hf, hopen, ok_bind]
  cases ss with
  | nil =>
    have hclose : eat? ")" (commaList (([] : List Source).map Source.text) ++ ')' :: resultText rs) =
      some (resultText rs) := rfl
    rcases resultText_read rs with ⟨rfl, hnone⟩ | ⟨rest, hsome, hread⟩
    · simp only [hclose, hnone, if_neg hcount]
      rfl
    · simp only [hclose, hsome, hread, ok_bind, if_neg hcount]
  | cons s ss =>
    rcases resultText_read rs with ⟨rfl, hnone⟩ | ⟨rest, hsome, hread⟩
    · simp only [eat?_close_commaList, callSources_commaList, hnone, ok_bind, if_neg hcount]
      rfl
    · simp only [eat?_close_commaList, callSources_commaList, hsome, hread, ok_bind, if_neg hcount]

/-- A call's destinations are registers. -/
theorem exists_registers {ds : List Dest} (h : .acc ∉ ds) : ∃ rs : List UInt16, ds = rs.map .reg := by
  induction ds with
  | nil => exact ⟨[], rfl⟩
  | cons d ds ih =>
    obtain ⟨hd, hds⟩ := not_or.mp (mt List.mem_cons.mpr h)
    obtain ⟨rs, rfl⟩ := ih hds
    cases d with
    | reg r => exact ⟨r :: rs, rfl⟩
    | acc => exact absurd rfl hd

theorem operandText_call (f : UInt16) (ss : List Source) (rs : List UInt16) :
    Instruction.operandText ⟨.call, .call f, ss, rs.map .reg⟩ = callText f ss rs := by
  cases rs with
  | nil => simp [Instruction.operandText, Instruction.function, callText, resultText]
  | cons r rs =>
    simp [Instruction.operandText, Instruction.function, callText, resultText, commaList_cons, Function.comp_def]

theorem operands_operandText {i : Instruction} (h : i.WellShaped) : operands i.opcode i.operandText = .ok (i, []) := by
  obtain ⟨opcode, payload, ss, ds⟩ := i
  -- Where the operands are fixed in number, the tokens are read off one by one; every separator stops the number before it.
  cases opcode with
  | compute f =>
    obtain ⟨rfl, hl, hd⟩ := h
    obtain ⟨d, rfl⟩ := List.length_eq_one_iff.mp hd
    have hdest := dest_text d (stops_behindCommas (ss.map Source.text) stops_nil)
    rw [List.append_nil] at hdest
    change ss.length = f.arity at hl
    simp [operands, Instruction.operandText, commaList_cons, hdest, ← hl, commaSources_text]
  | input e a =>
    obtain ⟨⟨d, f, rfl⟩, rfl, r, rfl⟩ := h
    simp [operands, Instruction.operandText, commaList_cons, Numeral.isDigit]
  | output e =>
    obtain ⟨⟨d, f, rfl⟩, ⟨r, s, rfl⟩, rfl⟩ := h
    have left := @expect_token "[" '[' rfl rfl
    have right := @expect_token "]" ']' rfl rfl
    simp [operands, Instruction.operandText, Numeral.isDigit, left, right]
  | acquireIndex =>
    obtain ⟨⟨d, rfl⟩, hl, r, rfl⟩ := h
    obtain ⟨s, rfl⟩ := List.length_eq_one_iff.mp hl
    simp [operands, Instruction.operandText, commaList_cons, Numeral.isDigit]
  | updateId =>
    obtain ⟨⟨d, rfl⟩, ⟨a, b, rfl⟩, rfl⟩ := h
    simp [operands, Instruction.operandText, commaList_cons, Numeral.isDigit]
  | acquireId =>
    obtain ⟨⟨d, rfl⟩, rfl, a, b, rfl⟩ := h
    simp [operands, Instruction.operandText, commaList_cons, Numeral.isDigit]
  | call =>
    obtain ⟨⟨f, rfl⟩, hs, hd, hacc⟩ := h
    obtain ⟨rs, rfl⟩ := exists_registers hacc
    rw [operandText_call]
    exact callOperands_text hs (by simpa using hd)
  | enterScope =>
    obtain ⟨⟨id, rfl⟩, rfl, rfl⟩ := h
    simp [operands, Instruction.operandText]
  | execIndex =>
    obtain ⟨rfl, rfl, r, rfl⟩ := h
    simp [operands, Instruction.operandText, commaList_cons]
  | fused => exact h.elim
  | done | nop | exitScope =>
    obtain ⟨rfl, rfl, rfl⟩ := h
    rfl

/-- An instruction is read back from the text of its operands. -/
theorem instruction_operandText {i : Instruction} (h : i.WellShaped) : instruction i.opcode i.operandText = .ok i := by
  rw [instruction, operands_operandText h]
  rfl

/-! ## What can be read -/

theorem length_of_commaSources {count : Nat} {text rest : List Char} {ss : List Source}
    (h : commaSources count text = .ok (ss, rest)) : ss.length = count := by
  induction count generalizing text ss with
  | zero =>
    cases h
    rfl
  | succ count ih =>
    obtain ⟨text, -, h⟩ := Emission.bind_ok h
    obtain ⟨⟨s, text⟩, -, h⟩ := Emission.bind_ok h
    obtain ⟨⟨more, text⟩, hm, h⟩ := Emission.bind_ok h
    cases h
    rw [List.length_cons, ih hm]

/-- Whatever text they are read from, the operands are those that the opcode asks for. -/
theorem wellShaped_of_operands {opcode : Opcode} {text rest : List Char} {i : Instruction}
    (h : operands opcode text = .ok (i, rest)) : i.WellShaped := by
  cases opcode with
  | compute f =>
    obtain ⟨⟨d, text⟩, -, h⟩ := Emission.bind_ok h
    obtain ⟨⟨ss, text⟩, hs, h⟩ := Emission.bind_ok h
    cases h
    exact ⟨rfl, length_of_commaSources hs, rfl⟩
  | input e a =>
    obtain ⟨⟨r, text⟩, -, h⟩ := Emission.bind_ok h
    obtain ⟨text, -, h⟩ := Emission.bind_ok h
    obtain ⟨⟨d, text⟩, -, h⟩ := Emission.bind_ok h
    obtain ⟨text, -, h⟩ := Emission.bind_ok h
    obtain ⟨⟨f, text⟩, -, h⟩ := Emission.bind_ok h
    cases h
    exact ⟨⟨d, f, rfl⟩, rfl, r, rfl⟩
  | output e =>
    obtain ⟨⟨d, text⟩, -, h⟩ := Emission.bind_ok h
    obtain ⟨text, -, h⟩ := Emission.bind_ok h
    obtain ⟨⟨r, text⟩, -, h⟩ := Emission.bind_ok h
    obtain ⟨text, -, h⟩ := Emission.bind_ok h
    obtain ⟨text, -, h⟩ := Emission.bind_ok h
    obtain ⟨⟨f, text⟩, -, h⟩ := Emission.bind_ok h
    obtain ⟨text, -, h⟩ := Emission.bind_ok h
    obtain ⟨⟨s, text⟩, -, h⟩ := Emission.bind_ok h
    cases h
    exact ⟨⟨d, f, rfl⟩, ⟨r, s, rfl⟩, rfl⟩
  | acquireIndex =>
    obtain ⟨⟨r, text⟩, -, h⟩ := Emission.bind_ok h
    obtain ⟨text, -, h⟩ := Emission.bind_ok h
    obtain ⟨⟨d, text⟩, -, h⟩ := Emission.bind_ok h
    obtain ⟨text, -, h⟩ := Emission.bind_ok h
    obtain ⟨⟨s, text⟩, -, h⟩ := Emission.bind_ok h
    cases h
    exact ⟨⟨d, rfl⟩, rfl, r, rfl⟩
  | updateId =>
    obtain ⟨⟨d, text⟩, -, h⟩ := Emission.bind_ok h
    obtain ⟨text, -, h⟩ := Emission.bind_ok h
    obtain ⟨⟨a, text⟩, -, h⟩ := Emission.bind_ok h
    obtain ⟨text, -, h⟩ := Emission.bind_ok h
    obtain ⟨⟨b, text⟩, -, h⟩ := Emission.bind_ok h
    cases h
    exact ⟨⟨d, rfl⟩, ⟨a, b, rfl⟩, rfl⟩
  | acquireId =>
    obtain ⟨⟨a, text⟩, -, h⟩ := Emission.bind_ok h
    obtain ⟨text, -, h⟩ := Emission.bind_ok h
    obtain ⟨⟨b, text⟩, -, h⟩ := Emission.bind_ok h
    obtain ⟨text, -, h⟩ := Emission.bind_ok h
    obtain ⟨⟨d, text⟩, -, h⟩ := Emission.bind_ok h
    cases h
    exact ⟨⟨d, rfl⟩, rfl, a, b, rfl⟩
  | call =>
    obtain ⟨⟨f, text⟩, -, h⟩ := Emission.bind_ok h
    obtain ⟨text, -, h⟩ := Emission.bind_ok h
    have finish (ss : List Source) (rs : List UInt16) (text : List Char)
        (h : (if 255 < ss.length ∨ 255 < rs.length then Except.error Problem.callOperands
          else .ok (⟨.call, .call f, ss, rs.map .reg⟩, text)) = .ok (i, rest)) : i.WellShaped := by
      split at h
      · cases h
      · rename_i hcount
        cases h
        obtain ⟨hs, hr⟩ := not_or.mp hcount
        refine ⟨⟨f, rfl⟩, Nat.le_of_not_lt hs, ?_, ?_⟩
        · simpa using Nat.le_of_not_lt hr
        · simp
    -- Sources stand between the brackets or not, results behind an arrow or not.
    dsimp only at h
    split at h
    · dsimp only [ok_bind] at h
      split at h
      · obtain ⟨⟨rs, text⟩, -, h⟩ := Emission.bind_ok h
        exact finish _ _ _ h
      · exact finish _ _ _ h
    · obtain ⟨⟨ss, text⟩, -, h⟩ := Emission.bind_ok h
      dsimp only at h
      split at h
      · obtain ⟨⟨rs, text⟩, -, h⟩ := Emission.bind_ok h
        exact finish _ _ _ h
      · exact finish _ _ _ h
  | enterScope =>
    obtain ⟨⟨id, text⟩, -, h⟩ := Emission.bind_ok h
    cases h
    exact ⟨⟨id, rfl⟩, rfl, rfl⟩
  | execIndex =>
    obtain ⟨⟨r, text⟩, -, h⟩ := Emission.bind_ok h
    cases h
    exact ⟨rfl, rfl, r, rfl⟩
  | fused => cases h
  | done | nop | exitScope =>
    cases h
    exact ⟨rfl, rfl, rfl⟩

theorem wellShaped_of_instruction {opcode : Opcode} {text : List Char} {i : Instruction}
    (h : instruction opcode text = .ok i) : i.WellShaped := by
  obtain ⟨⟨j, rest⟩, hj, h⟩ := Emission.bind_ok h
  dsimp only at h
  split at h
  · cases h
    exact wellShaped_of_operands hj
  · cases h

end Assembly

end LaneScript
