/-
  LaneScript.Assembly — source text to streams.

  One instruction stands on a line; `;` and `#` start a comment. The lines between
  an opening `fused` line and a closing brace are the steps of one group. The first
  line with a problem is the answer; a group that is never closed is reported at the
  line that opened it.
-/
import LaneScript.Assembly.Operands
import LaneScript.Stream

namespace LaneScript.Assembly

structure Error where
  /-- Counted from 1. -/
  line : Nat
  problem : Problem
  deriving DecidableEq, Repr

def Error.message (e : Error) : String := "line " ++ toString e.line ++ ": " ++ e.problem.message

structure State where
  /-- Finished items, newest first. -/
  items : List Stream.Item := []
  /-- The line that opened a group still open and its steps, newest first. -/
  opened : Option (Nat × List Instruction) := none
  deriving DecidableEq, Repr, Inhabited

/-- A line without its comment and without blanks at its ends. -/
def stripped (raw : List Char) : List Char := Text.trim (raw.takeWhile fun c => c != ';' && c != '#')

/-- The mnemonic of a stripped line and the text behind the blank that ends it. -/
def splitMnemonic (text : List Char) : List Char × List Char :=
  (text.takeWhile (!Text.isBlank ·), (text.dropWhile (!Text.isBlank ·)).tail)

def State.close (st : State) : Except Problem State :=
  match st.opened with
  | none => .error .strayClose
  | some (_, steps) =>
    if 255 < steps.length then .error .groupTooLong
    else .ok ⟨.group steps.reverse :: st.items, none⟩

def State.openAt (st : State) (line : Nat) (rest : List Char) : Except Problem State :=
  if st.opened.isSome then .error .nestedGroup
  else if rest.getLast? = some '\x7b' then .ok { st with opened := some (line, []) }
  else .error .missingOpen

def State.add (st : State) (i : Instruction) : State :=
  match st.opened with
  | none => { st with items := .plain i :: st.items }
  | some (line, steps) => { st with opened := some (line, i :: steps) }

def State.line (st : State) (number : Nat) (raw : List Char) : Except Problem State :=
  match stripped raw with
  | [] => .ok st
  | ['\x7d'] => st.close
  | text =>
    let (mnemonic, rest) := splitMnemonic text
    let name := String.ofList mnemonic
    if name = "fused" then st.openAt number rest
    else
      match Opcode.ofMnemonic? name with
      | none => .error (.unknownMnemonic name)
      | some opcode => do .ok (st.add (← instruction opcode rest))

def State.lines (st : State) : (number : Nat) → List (List Char) → Except Error State
  | _, [] => .ok st
  | number, raw :: more =>
    match st.line number raw with
    | .error p => .error ⟨number, p⟩
    | .ok st => st.lines (number + 1) more

def parse (text : List Char) : Except Error (List Stream.Item) :=
  match ({} : State).lines 1 (Text.lines text) with
  | .error e => .error e
  | .ok ⟨_, some (line, _)⟩ => .error ⟨line, .unterminated⟩
  | .ok ⟨items, none⟩ => .ok items.reverse

def assemble (source : String) : Except Error Bytes := do .ok (Stream.encode (← parse source.toList))

end LaneScript.Assembly
