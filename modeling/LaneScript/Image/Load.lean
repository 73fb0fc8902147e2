/-
  LaneScript.Image.Load — reading a packed image.

  `load` checks a buffer from the outside in: length, hash, padding, and then that
  the sections agree with the header. What it accepts has views of exactly the sizes
  that the header gives and can be indexed without further checks.
-/
import LaneScript.Fault
import LaneScript.Image.Pack
import LaneScript.Image.View
import LaneScript.Opcode

namespace LaneScript

inductive Rejection where
  | short
  | length
  | hash
  | padding
  | functionSlot
  | functionRange
  | inputs
  | outputs
  deriving DecidableEq, Repr

namespace Rejection

/-- The word for it, before it is marked fatal. -/
def kind : Rejection → Fault
  | .short | .hash | .padding => .bytecode
  | .length => .optimizedBytecode
  | .functionSlot | .functionRange => .externalFunction
  | .inputs | .outputs => .instructions

def fault (r : Rejection) : Fault := .fatal r.kind

def reason : Rejection → String
  | .short => "shorter than header"
  | .length => "length does not match header"
  | .hash => "content hash mismatch"
  | .padding => "non-zero padding"
  | .functionSlot => "serialized function slot"
  | .functionRange => "function index out of range"
  | .inputs => "inconsistent input offsets"
  | .outputs => "inconsistent output tables"

end Rejection

structure Loaded where
  header : Header
  hash : UInt64
  code : Bytes
  constants : View UInt16
  inputs : View UInt16
  inputOffsets : View UInt16
  outputDatasets : View UInt16
  outputTypes : View UInt8
  outputFields : View UInt16
  functions : View ExternalFn
  buffer : Bytes
  deriving DecidableEq, Repr

namespace Loaded

/-- Where the fields of an input data set stand: those that advance and those that stay. -/
def inputRanges? (m : Loaded) (dataset : UInt16) : Option ((Nat × Nat) × (Nat × Nat)) := do
  let base := 2 * dataset.toUInt64
  let start ← m.inputOffsets.get? base
  let split ← m.inputOffsets.get? (base + 1)
  let stop ← m.inputOffsets.get? (base + 2)
  some ((start.toNat, split.toNat), (split.toNat, stop.toNat))

def outputType? (m : Loaded) (slot : UInt64) : Option Element := (m.outputTypes.get? slot).bind Element.ofByte?

def toImage (m : Loaded) : Image where
  header := m.header
  code := m.code
  constants := m.constants.toList
  inputs := m.inputs.toList
  inputOffsets := m.inputOffsets.toList
  outputDatasets := m.outputDatasets.toList
  outputTypes := m.outputTypes.toList
  outputFields := m.outputFields.toList
  functions := m.functions.toList

end Loaded

namespace Load

def isZero (bytes : Bytes) : Bool := bytes.all (· == 0)

/-- Whether the bytes outside all spans from `stop` on are zero. -/
def gapsZero (buffer : Bytes) : (stop : Nat) → List Span → Bool
  | stop, [] => isZero (buffer.drop stop)
  | stop, s :: rest =>
    isZero ((buffer.drop stop).take (s.offset.toNat - stop)) && gapsZero buffer s.stop.toNat rest

def paddingOk (buffer : Bytes) (layout : Layout) : Bool :=
  isZero ((buffer.drop Header.fieldBytes).take (Header.totalBytes - Header.fieldBytes)) &&
    gapsZero buffer Header.totalBytes layout.spans

def sectionBytes (buffer : Bytes) (layout : Layout) (s : Section) : Bytes :=
  match (Section.all.zip layout.spans).find? (·.1 == s) with
  | some (_, span) => span.slice buffer
  | none => []

def isSorted : List UInt16 → Bool
  | a :: b :: rest => a ≤ b && isSorted (b :: rest)
  | _ => true

/-- How many fields stay, counted on from `count`: every second stretch between the offsets holds such fields. -/
def stillTotal : (count : Nat) → List UInt16 → Nat
  | count, _ :: split :: stop :: rest => stillTotal (count + (stop.toNat - split.toNat)) (stop :: rest)
  | count, _ => count

def functionsOk (m : Loaded) : Except Rejection Unit :=
  if m.functions.toList.any (·.slot != 0) then .error .functionSlot
  else
    let last := m.header.lastFunction.toInt
    if last < -1 ∨ (m.header.functions.toNat : Int) ≤ last then .error .functionRange else .ok ()

def inputsOk (m : Loaded) : Bool :=
  match m.inputOffsets.toList with
  | [] => m.header.inputs == 0 && m.header.stillInputs == 0
  | offsets =>
    offsets.head? == some 0 && isSorted offsets && offsets.getLast? == some m.header.inputs &&
      stillTotal 0 offsets == m.header.stillInputs.toNat

def outputsOk (m : Loaded) : Bool :=
  m.outputTypes.toList.all (fun t => (Element.ofByte? t).isSome) &&
    m.outputDatasets.toList.all (fun d => d.toNat < m.header.outputDatasets.toNat)

def view (buffer : Bytes) (h : Header) : Loaded :=
  let layout := Layout.ofHeader h
  let bytes := sectionBytes buffer layout
  { header := h
    hash := Header.storedHash buffer
    code := bytes .code
    constants := ⟨bytes .constants⟩
    inputs := ⟨bytes .inputs⟩
    inputOffsets := ⟨bytes .inputOffsets⟩
    outputDatasets := ⟨bytes .outputDatasets⟩
    outputTypes := ⟨bytes .outputTypes⟩
    outputFields := ⟨bytes .outputFields⟩
    functions := ⟨bytes .functions⟩
    buffer }

end Load

def load (buffer : Bytes) : Except Rejection Loaded :=
  match Header.read? buffer with
  | none => .error .short
  | some h =>
    let layout := Layout.ofHeader h
    if layout.total.toNat ≠ buffer.length then .error .length
    else if contentHash? buffer ≠ some (Header.storedHash buffer) then .error .hash
    else if !Load.paddingOk buffer layout then .error .padding
    else
      let m := Load.view buffer h
      match Load.functionsOk m with
      | .error e => .error e
      | .ok _ =>
        if !Load.inputsOk m then .error .inputs
        else if !Load.outputsOk m then .error .outputs
        else .ok m

end LaneScript
