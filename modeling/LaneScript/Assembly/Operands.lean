/-
  LaneScript.Assembly.Operands — reading the operands of one line of source text.

  A reader takes a text and gives what it read and the text after it. Blanks in
  front of a token are skipped; a complaint quotes the text at which it arose.
-/
import LaneScript.Instruction
import LaneScript.Text.Blank

namespace LaneScript.Assembly

inductive Problem where
  | expected (token text : String)
  | number (text : String)
  | trailing (text : String)
  | callOperands
  | strayClose
  | groupTooLong
  | nestedGroup
  | missingOpen
  | unknownMnemonic (name : String)
  | notWritable (name : String)
  | unterminated
  deriving DecidableEq, Repr

def Problem.message : Problem → String
  | .expected token text => "expected `" ++ token ++ "` at `" ++ text ++ "`"
  | .number text => "expected a 16-bit number at `" ++ text ++ "`"
  | .trailing text => "unexpected trailing text `" ++ text ++ "`"
  | .callOperands => "at most 255 call operands per side"
  | .strayClose => "`\x7d` without `fused \x7b`"
  | .groupTooLong => "more than 255 steps in one `fused` block"
  | .nestedGroup => "nested `fused` block"
  | .missingOpen => "expected `\x7b` after `fused`"
  | .unknownMnemonic name => "unknown mnemonic `" ++ name ++ "`"
  | .notWritable name => "`" ++ name ++ "` cannot be written directly"
  | .unterminated => "unterminated `fused` block"

abbrev Reader (α : Type) := List Char → Except Problem (α × List Char)

def eat? (token : String) (text : List Char) : Option (List Char) :=
  Text.after? token.toList (Text.trimStart text)

def expect (token : String) (text : List Char) : Except Problem (List Char) :=
  match eat? token text with
  | some rest => .ok rest
  | none => .error (.expected token (String.ofList (Text.trimStart text)))

/-- The longest run of decimal digits, as a number below 65536. -/
def number : Reader UInt16 := fun text =>
  let text := Text.trimStart text
  match Numeral.word? (text.takeWhile Numeral.isDigit) with
  | some n => .ok (n, text.dropWhile Numeral.isDigit)
  | none => .error (.number (String.ofList text))

/-- A number behind a mark such as `r` or `ds`. -/
def marked (mark : String) : Reader UInt16 := fun text => do number (← expect mark text)

def register : Reader UInt16 := marked "r"

def dataset : Reader UInt16 := marked "ds"

def source : Reader Source := fun text =>
  match eat? "acc" text with
  | some rest => .ok (.acc, rest)
  | none =>
    match eat? "c" text with
    | some rest => do
      let (c, rest) ← number rest
      .ok (.const c, rest)
    | none => do
      let (r, rest) ← register text
      .ok (.reg r, rest)

def dest : Reader Dest := fun text =>
  match eat? "acc" text with
  | some rest => .ok (.acc, rest)
  | none => do
    let (r, rest) ← register text
    .ok (.reg r, rest)

def commaSources : (count : Nat) → Reader (List Source)
  | 0, text => .ok ([], text)
  | count + 1, text => do
    let (s, rest) ← source (← expect "," text)
    let (more, rest) ← commaSources count rest
    .ok (s :: more, rest)

/-- Sources with commas between them up to the closing bracket; a round reads one and takes a character at least. -/
def callSources : (rounds : Nat) → Reader (List Source)
  | 0, text => .error (.expected "r" (String.ofList text))
  | rounds + 1, text => do
    let (s, rest) ← source text
    match eat? ")" rest with
    | some rest => .ok ([s], rest)
    | none => do
      let (more, rest) ← callSources rounds (← expect "," rest)
      .ok (s :: more, rest)

/-- Registers with commas between them, as long as commas follow. -/
def registers : (rounds : Nat) → Reader (List UInt16)
  | 0, text => .error (.expected "r" (String.ofList text))
  | rounds + 1, text => do
    let (r, rest) ← register text
    match eat? "," rest with
    | none => .ok ([r], rest)
    | some rest => do
      let (more, rest) ← registers rounds rest
      .ok (r :: more, rest)

/-- The operands of a call: `fN (sources)` and, if it has results, `-> registers`. -/
def callOperands : Reader Instruction := fun text => do
  let (function, rest) ← marked "f" text
  let rest ← expect "(" rest
  let (sources, rest) ←
    match eat? ")" rest with
    | some rest => .ok ([], rest)
    | none => callSources (rest.length + 1) rest
  let (dests, rest) ←
    match eat? "->" rest with
    | some rest => registers (rest.length + 1) rest
    | none => .ok ([], rest)
  if 255 < sources.length ∨ 255 < dests.length then .error .callOperands
  else .ok (⟨.call, .call function, sources, dests.map .reg⟩, rest)

def operands (opcode : Opcode) : Reader Instruction := fun text =>
  match opcode with
  | .compute f => do
    let (d, rest) ← dest text
    let (sources, rest) ← commaSources f.arity rest
    .ok (⟨opcode, .none, sources, [d]⟩, rest)
  | .input .. => do
    let (r, rest) ← register text
    let (ds, rest) ← dataset (← expect "," rest)
    let (field, rest) ← number (← expect "." rest)
    .ok (⟨opcode, .field ds field, [], [.reg r]⟩, rest)
  | .output _ => do
    let (ds, rest) ← dataset text
    let (index, rest) ← register (← expect "[" rest)
    let rest ← expect "]" rest
    let (field, rest) ← number (← expect "." rest)
    let (s, rest) ← source (← expect "," rest)
    .ok (⟨opcode, .field ds field, [.reg index, s], []⟩, rest)
  | .acquireIndex => do
    let (r, rest) ← register text
    let (ds, rest) ← dataset (← expect "," rest)
    let (s, rest) ← source (← expect "," rest)
    .ok (⟨opcode, .field ds 0, [s], [.reg r]⟩, rest)
  | .updateId => do
    let (ds, rest) ← dataset text
    let (id, rest) ← register (← expect "," rest)
    let (index, rest) ← register (← expect "," rest)
    .ok (⟨opcode, .field ds 0, [.reg id, .reg index], []⟩, rest)
  | .acquireId => do
    let (id, rest) ← register text
    let (tag, rest) ← register (← expect "," rest)
    let (ds, rest) ← dataset (← expect "," rest)
    .ok (⟨opcode, .field ds 0, [], [.reg id, .reg tag]⟩, rest)
  | .call => callOperands text
  | .enterScope => do
    let (id, rest) ← number text
    .ok (⟨opcode, .scope id, [], []⟩, rest)
  | .execIndex => do
    let (r, rest) ← register text
    .ok (⟨opcode, .none, [], [.reg r]⟩, rest)
  | .exitScope | .nop | .done => .ok (⟨opcode, .none, [], []⟩, text)
  | .fused => .error (.notWritable opcode.mnemonic)

def instruction (opcode : Opcode) (text : List Char) : Except Problem Instruction := do
  let (i, rest) ← operands opcode text
  let rest := Text.trimStart rest
  if rest.isEmpty then .ok i else .error (.trailing (String.ofList rest))

end LaneScript.Assembly
