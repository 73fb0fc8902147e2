/-
  LaneScript.Stream — instruction streams as lists of items.

  An item is a plain instruction or a fused group, a run of steps that hand their
  results on through the accumulator: the first step only stores it, each middle
  step reads it once and stores it, the last reads it once and stores to a register
  or an output. `decode` reads a stream item by item up to its end or a `done`, and
  keeps the one shape each external function is called with.
-/
import LaneScript.Fault
import LaneScript.Instruction.Encoding

namespace LaneScript

namespace Stream

inductive Item where
  | plain (i : Instruction)
  | group (steps : List Instruction)
  deriving DecidableEq, Repr, Inhabited

namespace Item

def instructions : Item → List Instruction
  | .plain i => [i]
  | .group steps => steps

/-- A group is written as the opcode `fused`, the number of its steps and the steps. -/
def encode : Item → Bytes
  | .plain i => i.encode
  | .group steps => Opcode.fused.byte :: UInt8.ofNat steps.length :: steps.flatMap Instruction.encode

def width : Item → Nat
  | .plain i => i.width
  | .group steps => 2 + total (steps.map Instruction.width)

end Item

/-! ## Faults of a stream -/

inductive Error where
  /-- An unknown opcode, a missing byte or an operand that its place does not allow. -/
  | malformed
  /-- Something follows the `done` at this offset. -/
  | trailing (offset : Nat)
  /-- A step of the group at this offset breaks its chain. -/
  | brokenGroup (offset step : Nat)
  /-- A call of a function outside the host's table. -/
  | unknownFunction (function : UInt16)
  /-- A call with other operand counts than an earlier call of the function. -/
  | shapeConflict (function : UInt16)
  /-- The host's table is larger than a function number can address. -/
  | tableTooLarge
  deriving DecidableEq, Repr

def Error.fault : Error → Fault
  | .malformed | .trailing _ | .brokenGroup .. => .fatal .bytecode
  | .unknownFunction _ | .shapeConflict _ => .fatal .externalFunction
  | .tableTooLarge => .fatal (.externalFunction ||| .overflow)

/-! ## Fused groups -/

inductive Place where
  | first
  | middle
  | last
  deriving DecidableEq, Repr

namespace Place

/-- The place of step `pos` when `after` steps follow it. -/
def of (pos after : Nat) : Place :=
  if pos = 0 then .first else if after = 0 then .last else .middle

def admits (place : Place) (i : Instruction) : Bool :=
  match place with
  | .first => i.sources.count .acc == 0 && i.storesAcc
  | .middle => i.sources.count .acc == 1 && i.storesAcc
  | .last => i.sources.count .acc == 1 && !i.storesAcc

end Place

/-- Only computations and outputs can be steps of a group. -/
def stepOpcode? (b : UInt8) : Option Opcode :=
  match Opcode.ofByte? b with
  | some (.compute f) => some (.compute f)
  | some (.output e) => some (.output e)
  | _ => none

def step? (bytes : Bytes) : Option (Instruction × Bytes) := do
  let (b, rest) ← Bytes.byte? bytes
  let opcode ← stepOpcode? b
  Instruction.body? opcode true rest

/-- The steps from position `pos` on of the group at `offset`, `count` of them. -/
def steps (offset : Nat) : (count pos : Nat) → Bytes → Except Error (List Instruction × Bytes)
  | 0, _, bytes => .ok ([], bytes)
  | count + 1, pos, bytes =>
    match step? bytes with
    | none => .error .malformed
    | some (i, rest) =>
      if (Place.of pos count).admits i then do
        let (more, rest) ← steps offset count (pos + 1) rest
        .ok (i :: more, rest)
      else .error (.brokenGroup offset pos)

def group (offset : Nat) (bytes : Bytes) : Except Error (Item × Bytes) :=
  match Bytes.byte? bytes with
  | none => .error .malformed
  | some (count, rest) =>
    if count.toNat < 2 then .error .malformed
    else do
      let (is, rest) ← steps offset count.toNat 0 rest
      .ok (.group is, rest)

/-! ## Calls -/

structure CallShape where
  sources : Nat
  dests : Nat
  deriving DecidableEq, Repr, Inhabited

/-- The shape seen for each function of the host's table so far. -/
abbrev CallTable := Array (Option CallShape)

/-- The largest table that a function number can address. -/
def maxFunctions : Nat := 65536

/-- Enters the shape of a call, which must agree with that of earlier calls of the function. -/
def CallTable.record (table : CallTable) (function : UInt16) (shape : CallShape) : Except Error CallTable :=
  match table[function.toNat]? with
  | none => .error (.unknownFunction function)
  | some none => .ok (table.set! function.toNat (some shape))
  | some (some seen) => if seen = shape then .ok table else .error (.shapeConflict function)

/-- The table after an item; only a plain call changes it. -/
def CallTable.visit (table : CallTable) : Item → Except Error CallTable
  | .plain i =>
    match i.payload with
    | .call f => table.record f ⟨i.sources.length, i.dests.length⟩
    | _ => .ok table
  | .group _ => .ok table

/-! ## Whole streams -/

structure Decoded where
  items : List Item
  /-- The shape of each function that is called. -/
  calls : CallTable
  /-- Where the closing `done` stands, if there is one. -/
  doneAt : Option Nat
  deriving DecidableEq, Repr

inductive Front where
  | done
  | item (item : Item) (rest : Bytes)

def front (offset : Nat) : Bytes → Except Error Front
  | [] => .error .malformed
  | b :: rest =>
    match Opcode.ofByte? b with
    | none => .error .malformed
    | some .done => if rest.isEmpty then .ok .done else .error (.trailing offset)
    | some .fused => do
      let (item, rest) ← group offset rest
      .ok (.item item rest)
    | some opcode =>
      match Instruction.body? opcode false rest with
      | none => .error .malformed
      | some (i, rest) => .ok (.item (.plain i) rest)

/-- Reads items until the bytes end; each takes a byte at least, so as many rounds as bytes suffice. -/
def readFrom : (rounds offset : Nat) → Bytes → (items : List Item) → CallTable → Except Error Decoded
  | _, _, [], items, calls => .ok ⟨items.reverse, calls, none⟩
  | 0, _, _ :: _, _, _ => .error .malformed
  | rounds + 1, offset, bytes, items, calls =>
    match front offset bytes with
    | .error e => .error e
    | .ok .done => .ok ⟨items.reverse, calls, some offset⟩
    | .ok (.item item rest) =>
      match calls.visit item with
      | .error e => .error e
      | .ok calls => readFrom rounds (offset + item.width) rest (item :: items) calls

def decode (code : Bytes) (functions : Nat) : Except Error Decoded :=
  if maxFunctions < functions then .error .tableTooLarge
  else readFrom code.length 0 code [] (Array.replicate functions none)

def encode (items : List Item) : Bytes := items.flatMap Item.encode

end Stream

end LaneScript
