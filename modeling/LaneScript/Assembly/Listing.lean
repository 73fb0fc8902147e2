/-
  LaneScript.Assembly.Listing — streams as text.

  Each line is an offset in hexadecimal, two blanks and the instruction as source
  text; a fused group is a block with its steps indented.
-/
import LaneScript.Stream
import LaneScript.Text.Blank

namespace LaneScript

namespace Instruction

def operandText (i : Instruction) : List Char :=
  let (ds, field) := i.address
  let sources := i.sources.map Source.text
  let dests := i.dests.map Dest.text
  let datasetText := ['d', 's'] ++ Numeral.decimal ds.toNat
  let fieldText := '.' :: Numeral.decimal field.toNat
  match i.opcode with
  | .compute _ => Text.commaList (dests ++ sources)
  | .input .. => Text.commaList dests ++ [',', ' '] ++ datasetText ++ fieldText
  | .output _ =>
    let (index, value) := match sources with
      | [index, value] => (index, value)
      | _ => ([], [])
    datasetText ++ '[' :: index ++ ']' :: fieldText ++ [',', ' '] ++ value
  | .acquireIndex => Text.commaList dests ++ [',', ' '] ++ datasetText ++ [',', ' '] ++ Text.commaList sources
  | .updateId => datasetText ++ [',', ' '] ++ Text.commaList sources
  | .acquireId => Text.commaList dests ++ [',', ' '] ++ datasetText
  | .call =>
    let results := if dests.isEmpty then [] else [' ', '-', '>', ' '] ++ Text.commaList dests
    'f' :: Numeral.decimal i.function.toNat ++ [' ', '('] ++ Text.commaList sources ++ ')' :: results
  | .enterScope | .exitScope =>
    match i.payload with
    | .scope id => Numeral.decimal id.toNat
    | _ => []
  | .done | .nop | .execIndex | .fused => Text.commaList dests

def text (i : Instruction) : List Char :=
  let operands := i.operandText
  i.opcode.mnemonic.toList ++ if operands.isEmpty then [] else ' ' :: operands

end Instruction

namespace Assembly

def offsetText (offset : Nat) : List Char := Numeral.hex 4 offset ++ [' ', ' ']

/-- One line for each instruction, back to back from `offset` on. -/
def stepLines (indent : List Char) : (offset : Nat) → List Instruction → List (List Char)
  | _, [] => []
  | offset, i :: rest => (offsetText offset ++ indent ++ i.text) :: stepLines indent (offset + i.width) rest

def itemLines (offset : Nat) : Stream.Item → List (List Char)
  | .plain i => stepLines [] offset [i]
  | .group steps =>
    (offsetText offset ++ "fused ".toList ++ Numeral.decimal steps.length ++ [' ', '\x7b']) ::
      stepLines [' ', ' ', ' ', ' '] (offset + 2) steps ++ ["      \x7d".toList]

def listingLines (d : Stream.Decoded) : List (List Char) :=
  let (lines, _) := d.items.foldl
    (fun (lines, offset) item => (lines ++ (itemLines offset item).toArray, offset + item.width)) (#[], 0)
  lines.toList ++ (d.doneAt.map fun offset => offsetText offset ++ "done".toList).toList

def Listing.ofLines (lines : List (List Char)) : List Char := lines.flatMap (· ++ ['\n'])

/-- The text of a stream, whatever functions its host has. -/
def disassemble (code : Bytes) : Except Stream.Error String := do
  let d ← Stream.decode code Stream.maxFunctions
  .ok (String.ofList (Listing.ofLines (listingLines d)))

end Assembly

end LaneScript
