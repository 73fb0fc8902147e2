/-
  LaneScript.Stream.Builder — streams put together piece by piece.

  Every piece but raw bytes counts as one instruction, a fused group as a whole. A
  call or a group with more parts than a count byte holds is refused.
-/
import LaneScript.Stream

namespace LaneScript.Stream

structure Builder where
  code : Bytes := []
  /-- Instructions so far, a group counted once. -/
  count : Nat := 0
  deriving DecidableEq, Repr, Inhabited

namespace Builder

inductive Error where
  | callSources
  | callDests
  | groupSteps
  deriving DecidableEq, Repr

def Error.message : Error → String
  | .callSources => "Too many external-call inputs in one instruction (max 255)"
  | .callDests => "Too many external-call outputs in one instruction (max 255)"
  | .groupSteps => "Too many fused steps in one instruction (max 255)"

def raw (b : Builder) (bytes : Bytes) : Builder := { b with code := b.code ++ bytes }

def emit (b : Builder) (i : Instruction) : Builder := ⟨b.code ++ i.encode, b.count + 1⟩

def call (b : Builder) (function : UInt16) (sources : List Source) (dests : List UInt16) : Except Error Builder :=
  if 255 < sources.length then .error .callSources
  else if 255 < dests.length then .error .callDests
  else .ok (b.emit ⟨.call, .call function, sources, dests.map .reg⟩)

def group (b steps : Builder) : Except Error Builder :=
  if 255 < steps.count then .error .groupSteps
  else .ok ⟨b.code ++ Opcode.fused.byte :: UInt8.ofNat steps.count :: steps.code, b.count + 1⟩

end Builder

end LaneScript.Stream
