/-
  LaneScript.Instruction — one instruction: an opcode, what it addresses besides
  registers (`Payload`), its sources and its destinations.

  The record does not force the operands to fit the opcode's category. What a
  stream can hold is `WellShaped`; other records still have an encoding and a text.
-/
import LaneScript.Opcode
import LaneScript.Operand

namespace LaneScript

/-- What an instruction addresses besides registers and constants. -/
inductive Payload where
  | none
  /-- A field of a data set; field 0 where only the data set matters. -/
  | field (dataset field : UInt16)
  /-- A function of the host's table. -/
  | call (function : UInt16)
  /-- The id of a measured scope. -/
  | scope (id : UInt16)
  deriving DecidableEq, Repr, Inhabited

structure Instruction where
  opcode : Opcode
  payload : Payload := .none
  sources : List Source := []
  dests : List Dest := []
  deriving DecidableEq, Repr, Inhabited

namespace Instruction

def category (i : Instruction) : Category := i.opcode.category

def reads (i : Instruction) : List (Nat × UInt16) :=
  i.sources.zipIdx.filterMap fun (s, pos) => s.reg?.map (pos, ·)

def writes (i : Instruction) : List UInt16 := i.dests.filterMap Dest.reg?

def readsAcc (i : Instruction) : Bool := i.sources.contains .acc

def storesAcc (i : Instruction) : Bool := i.dests.contains .acc

/-- Nothing outside the registers notices whether it runs. -/
def isPure (i : Instruction) : Bool :=
  match i.category with
  | .compute | .input => true
  | _ => i.opcode == .execIndex || i.opcode == .nop

def datasetField? (i : Instruction) : Option (UInt16 × UInt16) :=
  match i.payload with
  | .field d f => some (d, f)
  | _ => none

/-- The data set and field it addresses, zeros if none. -/
def address (i : Instruction) : UInt16 × UInt16 := i.datasetField?.getD (0, 0)

/-- The function it calls, zero if none. -/
def function (i : Instruction) : UInt16 :=
  match i.payload with
  | .call f => f
  | _ => 0

/-- Operand counts and payload are those that the opcode asks for. -/
def WellShaped (i : Instruction) : Prop :=
  match i.opcode with
  | .done | .nop | .exitScope => i.payload = .none ∧ i.sources = [] ∧ i.dests = []
  | .fused => False
  | .execIndex => i.payload = .none ∧ i.sources = [] ∧ ∃ r, i.dests = [.reg r]
  | .compute f => i.payload = .none ∧ i.sources.length = f.arity ∧ i.dests.length = 1
  | .input .. => (∃ d f, i.payload = .field d f) ∧ i.sources = [] ∧ ∃ r, i.dests = [.reg r]
  | .output _ => (∃ d f, i.payload = .field d f) ∧ (∃ r s, i.sources = [.reg r, s]) ∧ i.dests = []
  | .acquireIndex => (∃ d, i.payload = .field d 0) ∧ i.sources.length = 1 ∧ ∃ r, i.dests = [.reg r]
  | .updateId => (∃ d, i.payload = .field d 0) ∧ (∃ a b, i.sources = [.reg a, .reg b]) ∧ i.dests = []
  | .acquireId => (∃ d, i.payload = .field d 0) ∧ i.sources = [] ∧ ∃ a b, i.dests = [.reg a, .reg b]
  | .call => (∃ f, i.payload = .call f) ∧ i.sources.length ≤ 255 ∧ i.dests.length ≤ 255 ∧ .acc ∉ i.dests
  | .enterScope => (∃ id, i.payload = .scope id) ∧ i.sources = [] ∧ i.dests = []

end Instruction

end LaneScript
