/-
  LaneScript.Proofs.Drafting — assembling by way of builders, which never refuse.

  Source text can be assembled without keeping items: each instruction goes to a builder as
  soon as its operands are read, before the end of its line is looked at, and the steps of
  an open group go to a builder of their own. A builder refuses a call or a group with more
  parts than a count byte holds. No text brings it to that: the draft is at every line what
  the items so far are written as (`line_of`), so it ends as assembling ends, with the same
  stream or the same error (`draft_eq`).
-/
import LaneScript.Proofs.Listing
import LaneScript.Stream.Builder

namespace LaneScript

namespace Stream.Builder

def put (b : Builder) (i : Instruction) : Except Error Builder :=
  if i.opcode = .call then b.call i.function i.sources i.writes else .ok (b.emit i)

/-- A builder takes every instruction that has as many operands as its opcode asks for. -/
theorem put_of_wellShaped (b : Builder) {i : Instruction} (h : i.WellShaped) : b.put i = .ok (b.emit i) := by
  unfold put
  by_cases ho : i.opcode = .call
  · rw [if_pos ho]
    obtain ⟨opcode, payload, ss, ds⟩ := i
    obtain rfl : opcode = .call := ho
    obtain ⟨⟨f, rfl⟩, hs, hd, hacc⟩ := h
    obtain ⟨rs, rfl⟩ := Assembly.exists_registers hacc
    have hwrites : Instruction.writes ⟨.call, .call f, ss, rs.map .reg⟩ = rs := by
      simp [Instruction.writes, Dest.reg?, List.filterMap_map, Function.comp_def]
    have hs : ¬255 < ss.length := Nat.not_lt.mpr hs
    have hd : ¬255 < rs.length := by simpa using hd
    rw [hwrites, call, if_neg hs, if_neg hd]
    rfl
  · rw [if_neg ho]

end Stream.Builder

namespace Assembly

/-- The streams written so far, of the text and of a group still open. -/
structure Draft where
  out : Stream.Builder := {}
  /-- The line that opened a group still open, and its steps. -/
  opened : Option (Nat × Stream.Builder) := none

namespace Draft

def close (d : Draft) : Except (Problem ⊕ Stream.Builder.Error) Draft :=
  match d.opened with
  | none => .error (.inl .strayClose)
  | some (_, steps) =>
    if 255 < steps.count then .error (.inl .groupTooLong)
    else do .ok ⟨← (d.out.group steps).mapError .inr, none⟩

def openAt (d : Draft) (line : Nat) (rest : List Char) : Except (Problem ⊕ Stream.Builder.Error) Draft :=
  if d.opened.isSome then .error (.inl .nestedGroup)
  else if rest.getLast? = some '\x7b' then .ok { d with opened := some (line, {}) }
  else .error (.inl .missingOpen)

def add (d : Draft) (i : Instruction) : Except (Problem ⊕ Stream.Builder.Error) Draft :=
  match d.opened with
  | none => do .ok { d with out := ← (d.out.put i).mapError .inr }
  | some (line, steps) => do .ok { d with opened := some (line, ← (steps.put i).mapError .inr) }

def read (d : Draft) (opcode : Opcode) (text : List Char) : Except (Problem ⊕ Stream.Builder.Error) Draft := do
  let (i, rest) ← (operands opcode text).mapError .inl
  let d ← d.add i
  let rest := Text.trimStart rest
  if rest.isEmpty then .ok d else .error (.inl (.trailing (String.ofList rest)))

def line (d : Draft) (number : Nat) (raw : List Char) : Except (Problem ⊕ Stream.Builder.Error) Draft :=
  match stripped raw with
  | [] => .ok d
  | ['\x7d'] => d.close
  | text =>
    let (mnemonic, rest) := splitMnemonic text
    let name := String.ofList mnemonic
    if name = "fused" then d.openAt number rest
    else
      match Opcode.ofMnemonic? name with
      | none => .error (.inl (.unknownMnemonic name))
      | some opcode => d.read opcode rest

def lines (d : Draft) : (number : Nat) → List (List Char) → Except (Error ⊕ Stream.Builder.Error) Draft
  | _, [] => .ok d
  | number, raw :: more =>
    match d.line number raw with
    | .error (.inl p) => .error (.inl ⟨number, p⟩)
    | .error (.inr e) => .error (.inr e)
    | .ok d => d.lines (number + 1) more

end Draft

/-- Assembles by way of builders: the stream, or an error of the text, or the refusal of a builder. -/
def draft (source : String) : Except (Error ⊕ Stream.Builder.Error) Bytes :=
  match ({} : Draft).lines 1 (Text.lines source.toList) with
  | .error e => .error e
  | .ok ⟨_, some (line, _)⟩ => .error (.inl ⟨line, .unterminated⟩)
  | .ok ⟨out, none⟩ => .ok out.code

/-! ## Drafts of states -/

namespace Draft

def ofSteps (steps : List Instruction) : Stream.Builder := ⟨steps.reverse.flatMap Instruction.encode, steps.length⟩

def of (st : State) : Draft where
  out := ⟨Stream.encode st.items.reverse, st.items.length⟩
  opened := st.opened.map (Prod.map id ofSteps)

variable (st : State) (n : Nat)

theorem add_of {i : Instruction} (h : i.WellShaped) : (of st).add i = .ok (of (st.add i)) := by
  obtain ⟨items, opened⟩ := st
  cases opened with
  | none =>
    have hcode : Stream.encode (Stream.Item.plain i :: items).reverse = Stream.encode items.reverse ++ i.encode := by
      simp [Stream.encode, Stream.Item.encode]
    simp only [add, of, Option.map_none, Stream.Builder.put_of_wellShaped _ h, State.add, hcode]
    rfl
  | some o =>
    have hcode : (i :: o.2).reverse.flatMap Instruction.encode = o.2.reverse.flatMap Instruction.encode ++ i.encode := by
      simp
    simp only [add, of, Option.map_some, Prod.map, Stream.Builder.put_of_wellShaped _ h, State.add, ofSteps, hcode]
    rfl

theorem close_of : (of st).close = (st.close.map of).mapError .inl := by
  obtain ⟨items, opened⟩ := st
  cases opened with
  | none => rfl
  | some o =>
    obtain ⟨line, steps⟩ := o
    have hcount : (ofSteps steps).count = steps.length := rfl
    by_cases hlen : 255 < steps.length
    · simp only [close, of, State.close, Option.map_some, Prod.map, hcount, if_pos hlen]
      rfl
    · have hcode : Stream.encode (Stream.Item.group steps.reverse :: items).reverse = Stream.encode items.reverse ++
          Opcode.fused.byte :: UInt8.ofNat steps.length :: steps.reverse.flatMap Instruction.encode := by
        simp [Stream.encode, Stream.Item.encode]
      simp only [close, of, State.close, Option.map_some, Prod.map, Stream.Builder.group, hcount, if_neg hlen, Except.map, hcode]
      rfl

theorem openAt_of (rest : List Char) : (of st).openAt n rest = ((st.openAt n rest).map of).mapError .inl := by
  obtain ⟨items, opened⟩ := st
  cases opened with
  | some o => rfl
  | none =>
    by_cases hlast : rest.getLast? = some '\x7b'
    · simp [openAt, of, State.openAt, hlast, Except.map, Except.mapError, ofSteps]
    · simp [openAt, of, State.openAt, hlast, Except.map, Except.mapError]

theorem read_of (opcode : Opcode) (text : List Char) :
    (of st).read opcode text = ((st.add <$> instruction opcode text).map of).mapError .inl := by
  unfold read instruction
  cases hread : operands opcode text with
  | error p => rfl
  | ok parts =>
    obtain ⟨i, rest⟩ := parts
    have hadd := add_of st (wellShaped_of_operands hread)
    show (of st).add i >>= _ = _
    rw [hadd]
    show (if (Text.trimStart rest).isEmpty then _ else _) = _
    by_cases hend : (Text.trimStart rest).isEmpty = true
    · simp only [ok_bind, if_pos hend]
      rfl
    · simp only [ok_bind, if_neg hend]
      rfl

/-- A line does to the draft what it does to the state. -/
theorem line_of (raw : List Char) : (of st).line n raw = ((st.line n raw).map of).mapError .inl := by
  unfold line
  split
  · rename_i e
    simp only [State.line, e]
    rfl
  · rename_i e
    simp only [State.line, e]
    exact close_of st
  · rename_i hempty hbrace
    rw [State.line_eq st n hempty hbrace]
    dsimp only
    by_cases hname : String.ofList (splitMnemonic (stripped raw)).1 = "fused"
    · rw [if_pos hname, if_pos hname]
      exact openAt_of st n _
    · rw [if_neg hname, if_neg hname]
      cases Opcode.ofMnemonic? (String.ofList (splitMnemonic (stripped raw)).1) with
      | none => rfl
      | some opcode => exact read_of st opcode _

theorem lines_of (raws : List (List Char)) : (of st).lines n raws = ((st.lines n raws).map of).mapError .inl := by
  induction raws generalizing st n with
  | nil => rfl
  | cons raw raws ih =>
    rw [lines, State.lines, line_of]
    cases st.line n raw with
    | error p => rfl
    | ok next => exact ih next (n + 1)

end Draft

/-- Assembling by way of builders ends as assembling ends: no builder ever refuses. -/
theorem draft_eq (source : String) : draft source = (assemble source).mapError .inl := by
  have hstart : Draft.of {} = {} := rfl
  unfold draft assemble parse
  rw [← hstart, Draft.lines_of]
  cases State.lines {} 1 (Text.lines source.toList) with
  | error e => rfl
  | ok st =>
    obtain ⟨items, opened⟩ := st
    cases opened with
    | none => rfl
    | some o => rfl

end Assembly

end LaneScript
