/-
  LaneScript.Compile.Renumbering — dense numbers for everything that emitted
  instructions refer to.

  The instructions are read in the order in which they are emitted, the sources of
  each before its destinations, and whatever is met for the first time gets the next
  number. Registers and constants have one table each. Fields of an input data set
  are numbered together, those read afresh for every instance before those that stay
  at the first; every output instruction gets a slot of its own. What nothing refers
  to gets no number.
-/
import LaneScript.Numbering
import LaneScript.Program.Chain

namespace LaneScript

/-- The fields of one input data set, in order of first use. -/
structure InputFields where
  advancing : Numbering := {}
  still : Numbering := {}
  deriving Inhabited

/-- Something there are too many of to number. -/
inductive Space where
  | registers
  | constants
  | inputs
  | outputs
  deriving DecidableEq, Repr

def Space.fault : Space → Fault
  | .registers | .outputs => .fatal (.ssaRemap ||| .overflow)
  | .constants => .fatal (.constRemap ||| .overflow)
  | .inputs => .fatal (.inputMergeBuffer ||| .overflow)

structure OutputSlot where
  dataset : UInt16
  element : UInt8
  field : UInt16
  deriving DecidableEq, Repr, Inhabited

namespace Renumbering

structure Scan where
  registers : Numbering := {}
  constants : Numbering := {}
  inputs : Array InputFields := #[]
  /-- The fields written in each output data set. -/
  outputs : Array Numbering := #[]
  slots : Array OutputSlot := #[]
  /-- The slot of each node that is an output. -/
  slotOf : Array (Option UInt16)
  deriving Inhabited

def grow (xs : Array α) (size : Nat) (fill : α) : Array α := xs ++ Array.replicate (size - xs.size) fill

def Scan.register (s : Scan) (r : UInt16) : Scan :=
  let ⟨registers, constants, inputs, outputs, slots, slotOf⟩ := s
  ⟨registers.add r.toNat, constants, inputs, outputs, slots, slotOf⟩

def Scan.constant (s : Scan) (c : UInt16) : Scan :=
  let ⟨registers, constants, inputs, outputs, slots, slotOf⟩ := s
  ⟨registers, constants.add c.toNat, inputs, outputs, slots, slotOf⟩

def Scan.source (s : Scan) : Source → Scan
  | .reg r => s.register r
  | .const c => s.constant c
  | .acc => s

def Scan.dest (l : Liveness) (node : Nat) (s : Scan) : Dest × Nat → Scan
  | (.reg r, pos) => if l.isUnread node pos then s else s.register r
  | (.acc, _) => s

def Scan.input (s : Scan) (dataset field : UInt16) (advance : Bool) : Scan :=
  let ⟨registers, constants, inputs, outputs, slots, slotOf⟩ := s
  let inputs := (grow inputs (dataset.toNat + 1) {}).modify dataset.toNat fun ⟨advancing, still⟩ =>
    if advance then ⟨advancing.add field.toNat, still⟩ else ⟨advancing, still.add field.toNat⟩
  ⟨registers, constants, inputs, outputs, slots, slotOf⟩

def Scan.output (s : Scan) (node : Nat) (dataset field : UInt16) (element : Element) : Scan :=
  let ⟨registers, constants, inputs, outputs, slots, slotOf⟩ := s
  let slot := UInt16.ofNat slots.size
  let outputs := (grow outputs (dataset.toNat + 1) {}).modify dataset.toNat (·.add field.toNat)
  ⟨registers, constants, inputs, outputs, slots.push ⟨dataset, element.byte, field⟩, slotOf.setIfInBounds node (some slot)⟩

def Scan.visit (p : Program) (l : Liveness) (s : Scan) (node : Nat) : Scan :=
  match p[node]? with
  | none => s
  | some n =>
    let i := n.instr
    let s := i.sources.foldl Scan.source s
    let s := i.dests.zipIdx.foldl (Scan.dest l node) s
    let (dataset, field) := i.address
    match i.opcode with
    | .input _ advance => s.input dataset field advance
    | .output element => s.output node dataset field element
    | _ => s

/-- The key of a field that stays at the first instance, in a data set's table. -/
def stillKey (field : Nat) : Nat := field + 65536

end Renumbering

structure Renumbering where
  registers : Numbering
  constants : Numbering
  /-- For each input data set its fields, advancing ones first; see `Renumbering.stillKey`. -/
  inputs : Array Numbering
  /-- For each output data set its fields. -/
  outputs : Array Numbering
  slots : List OutputSlot
  slotOf : Array (Option UInt16)
  /-- For each input data set where its advancing and its other fields begin, and at last the end. -/
  inputOffsets : List UInt16
  /-- The fields of all input data sets. -/
  inputFields : List UInt16
  stillCount : Nat
  deriving Inhabited

namespace Renumbering

def words (n : Numbering) : List UInt16 := n.keys.toList.map UInt16.ofNat

def nextBound : Array Nat × Nat → Nat → Array Nat × Nat
  | (starts, stop), n => (starts.push stop, stop + n)

/-- Where lists of these lengths begin when they stand back to back, and where the last ends. -/
def bounds (lengths : List Nat) : List Nat :=
  let (starts, stop) := lengths.foldl nextBound (#[], 0)
  starts.toList ++ [stop]

def inputTable (fields : InputFields) : Numbering :=
  (fields.still.keys.toList.map stillKey).foldl Numbering.add fields.advancing

/-- Constant slots that the host has to provide: one more than the largest number used. -/
def allocatedConstants (constants : Numbering) : Nat := constants.keys.foldl (fun top c => max top (c + 1)) 0

def outputFieldCount (outputs : Array Numbering) : Nat := total (outputs.toList.map Numbering.size)

def Scan.finish (s : Scan) : Except Space Renumbering :=
  let sections := s.inputs.toList.flatMap fun fields => [words fields.advancing, words fields.still]
  let lengths := sections.map List.length
  if 65536 < s.slots.size then .error .outputs
  else if 65535 < allocatedConstants s.constants then .error .constants
  else if 65535 < s.inputs.size ∨ 65535 < total lengths then .error .inputs
  else if 65535 < outputFieldCount s.outputs then .error .outputs
  else .ok {
    registers := s.registers
    constants := s.constants
    inputs := s.inputs.map inputTable
    outputs := s.outputs
    slots := s.slots.toList
    slotOf := s.slotOf
    inputOffsets := if s.inputs.isEmpty then [] else (bounds lengths).map UInt16.ofNat
    inputFields := sections.flatten
    stillCount := total (s.inputs.toList.map fun fields => fields.still.size) }

def ofOrder (p : Program) (l : Liveness) (order : List Nat) : Except Space Renumbering :=
  (order.foldl (Scan.visit p l) { slotOf := Array.replicate p.size none }).finish

def inputSlot? (r : Renumbering) (dataset field : UInt16) (advance : Bool) : Option UInt16 :=
  match r.inputs[dataset.toNat]? with
  | none => none
  | some table => table.get? (if advance then field.toNat else stillKey field.toNat)

end Renumbering

end LaneScript
