/-
  LaneScript.Image — what a host needs to run an optimised script: the counts of the
  header and eight arrays.

  Six counts of the header restate lengths of arrays; `Image.synced` writes them
  there, cut to the width of their fields. An image is `isPackable` when nothing is
  lost that way and the arrays agree with one another.
-/
import LaneScript.Bytes

namespace LaneScript

structure ExternalFn where
  /-- The callable's slot, filled in by the host; zero in an image. -/
  slot : UInt64 := 0
  sources : UInt16 := 0
  dests : UInt16 := 0
  /-- How many registers a call touches. -/
  registers : UInt32 := 0
  deriving DecidableEq, Repr, Inhabited

/-- The counts of an image, in the order in which they are stored. -/
structure Header where
  codeLength : UInt32 := 0
  /-- One more than the largest output data set written. -/
  outputDatasets : UInt32 := 0
  /-- Constants that the host has to provide. -/
  allocatedConstants : UInt16 := 0
  registers : UInt32 := 0
  constants : UInt16 := 0
  inputs : UInt16 := 0
  /-- Distinct pairs of output data set and field. -/
  outputFields : UInt16 := 0
  /-- Input fields that stay at the first instance. -/
  stillInputs : UInt16 := 0
  inputDatasets : UInt16 := 0
  outputs : UInt16 := 0
  functions : UInt32 := 0
  /-- The most registers that one call touches. -/
  callRegisters : UInt32 := 0
  /-- The most throw-away registers that one call needs. -/
  spareRegisters : UInt32 := 0
  /-- The largest function called, -1 if none is. -/
  lastFunction : Int32 := -1
  flags : UInt32 := 0
  deriving DecidableEq, Repr, Inhabited

namespace Header

/-- Entries in the table of input offsets: two for each data set and the end. -/
def offsetEntries (h : Header) : Nat := if h.inputDatasets = 0 then 0 else 2 * h.inputDatasets.toNat + 1

end Header

inductive Trait where
  | externalCalls
  | statScopes
  | idBuffers
  | indexGenerators
  | fusedGroups
  | random
  | execIndex
  deriving DecidableEq, Repr

def Trait.bit : Trait → UInt32
  | .externalCalls => 0x1
  | .statScopes => 0x2
  | .idBuffers => 0x4
  | .indexGenerators => 0x8
  | .fusedGroups => 0x10
  | .random => 0x20
  | .execIndex => 0x40

structure Image where
  header : Header := {}
  code : Bytes := []
  /-- The host's number of each constant. -/
  constants : List UInt16 := []
  /-- The fields of each input data set, advancing ones first. -/
  inputs : List UInt16 := []
  inputOffsets : List UInt16 := []
  /-- Data set, element type and field of each output slot. -/
  outputDatasets : List UInt16 := []
  outputTypes : List UInt8 := []
  outputFields : List UInt16 := []
  functions : List ExternalFn := []
  deriving DecidableEq, Repr, Inhabited

namespace Image

def synced (m : Image) : Header :=
  { m.header with
    codeLength := UInt32.ofNat m.code.length
    constants := UInt16.ofNat m.constants.length
    inputs := UInt16.ofNat m.inputs.length
    outputs := UInt16.ofNat m.outputDatasets.length
    functions := UInt32.ofNat m.functions.length
    inputDatasets := UInt16.ofNat (m.inputOffsets.length / 2) }

def isPackable (m : Image) : Bool :=
  let offsets := m.inputOffsets.length
  m.code.length < 4294967296 && m.functions.length < 4294967296 && m.constants.length < 65536 &&
    m.inputs.length < 65536 && m.outputDatasets.length < 65536 &&
    (offsets == 0 || (offsets % 2 == 1 && offsets / 2 < 65536)) &&
    m.outputTypes.length == m.outputDatasets.length && m.outputFields.length == m.outputDatasets.length

end Image

end LaneScript
