/-
  LaneScript.Image.Layout — where everything stands in a packed image.

  The header takes 64 bytes: 46 of counts, eight of hash and ten of padding. The eight
  sections follow in a fixed order, each on a multiple of 16, with sizes that the
  header's counts give; offsets are never stored. Positions are 64-bit words, as the
  counts of any header leave them far below where such a word wraps.
-/
import LaneScript.Image

namespace LaneScript

/-- Bytes of the header's counts; the hash follows. -/
def Header.countBytes : Nat := 46
def Header.fieldBytes : Nat := 54
def Header.totalBytes : Nat := 64

namespace Header

def encode (h : Header) : Bytes :=
  Bytes.le 4 h.codeLength.toNat ++ Bytes.le 4 h.outputDatasets.toNat ++ Bytes.le 2 h.allocatedConstants.toNat ++
  Bytes.le 4 h.registers.toNat ++ Bytes.le 2 h.constants.toNat ++ Bytes.le 2 h.inputs.toNat ++
  Bytes.le 2 h.outputFields.toNat ++ Bytes.le 2 h.stillInputs.toNat ++ Bytes.le 2 h.inputDatasets.toNat ++
  Bytes.le 2 h.outputs.toNat ++ Bytes.le 4 h.functions.toNat ++ Bytes.le 4 h.callRegisters.toNat ++
  Bytes.le 4 h.spareRegisters.toNat ++ Bytes.le 4 h.lastFunction.toUInt32.toNat ++ Bytes.le 4 h.flags.toNat

def fieldAt (buffer : Bytes) (offset width : Nat) : Nat := Bytes.ofLe ((buffer.drop offset).take width)

/-- Stores the counts at the front of a buffer and leaves the rest of it. -/
def writeTo (h : Header) (buffer : Bytes) : Bytes := h.encode ++ buffer.drop countBytes

def read? (buffer : Bytes) : Option Header :=
  if buffer.length < totalBytes then none
  else
    let word offset := UInt16.ofNat (fieldAt buffer offset 2)
    let long offset := UInt32.ofNat (fieldAt buffer offset 4)
    some {
      codeLength := long 0
      outputDatasets := long 4
      allocatedConstants := word 8
      registers := long 10
      constants := word 14
      inputs := word 16
      outputFields := word 18
      stillInputs := word 20
      inputDatasets := word 22
      outputs := word 24
      functions := long 26
      callRegisters := long 30
      spareRegisters := long 34
      lastFunction := (long 38).toInt32
      flags := long 42 }

def storedHash (buffer : Bytes) : UInt64 := UInt64.ofNat (fieldAt buffer countBytes 8)

end Header

/-! ## Sections -/

/-- The sections, in the order in which they stand. -/
inductive Section where
  | code
  | constants
  | inputs
  | inputOffsets
  | outputDatasets
  | outputTypes
  | outputFields
  | functions
  deriving DecidableEq, Repr

namespace Section

def all : List Section :=
  [.code, .constants, .inputs, .inputOffsets, .outputDatasets, .outputTypes, .outputFields, .functions]

def name : Section → String
  | .code => "bytecode"
  | .constants => "const_remap"
  | .inputs => "input_remap"
  | .inputOffsets => "input_dataset_offsets"
  | .outputDatasets => "output_dataset_idx"
  | .outputTypes => "output_data_type"
  | .outputFields => "output_dest"
  | .functions => "ext_fn_table"

def size (h : Header) : Section → UInt64
  | .code => h.codeLength.toUInt64
  | .constants => 2 * h.constants.toUInt64
  | .inputs => 2 * h.inputs.toUInt64
  | .inputOffsets => 2 * UInt64.ofNat h.offsetEntries
  | .outputDatasets => 2 * h.outputs.toUInt64
  | .outputTypes => h.outputs.toUInt64
  | .outputFields => 2 * h.outputs.toUInt64
  | .functions => 16 * h.functions.toUInt64

end Section

/-- The next multiple of 16, in 64-bit arithmetic. -/
def align16 (n : UInt64) : UInt64 := (n / 16 + if n % 16 = 0 then 0 else 1) * 16

structure Span where
  offset : UInt64
  size : UInt64
  deriving DecidableEq, Repr, Inhabited

def Span.stop (s : Span) : UInt64 := s.offset + s.size

def Span.slice (s : Span) (buffer : Bytes) : Bytes := (buffer.drop s.offset.toNat).take s.size.toNat

structure Layout where
  spans : List Span
  total : UInt64
  deriving DecidableEq, Repr, Inhabited

namespace Layout

/-- Places sizes one behind the other, each on a multiple of 16, after `stop`. -/
def place : (stop : UInt64) → (sizes : List UInt64) → Layout
  | stop, [] => ⟨[], align16 stop⟩
  | stop, size :: rest =>
    let span : Span := ⟨align16 stop, size⟩
    let layout := place span.stop rest
    { layout with spans := span :: layout.spans }

def ofHeader (h : Header) : Layout := place (UInt64.ofNat Header.totalBytes) (Section.all.map (Section.size h))

end Layout

end LaneScript
