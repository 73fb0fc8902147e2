/-
  LaneScript.Compile.Emission — the new stream.

  Every chain becomes one item: a plain instruction, or a group if it has more than
  one step. Operands are replaced by their new numbers; the unread results of a call
  go to registers above all numbered ones, counted afresh for each call.
-/
import LaneScript.Compile.Renumbering

namespace LaneScript

namespace Emission

inductive Error where
  | overflow (space : Space)
  /-- An operand has no number. -/
  | unnumbered
  /-- A chain has more steps than a count byte holds. -/
  | chainTooLong
  | streamTooLong
  deriving DecidableEq, Repr

def Error.fault : Error → Fault
  | .overflow space => space.fault
  | .unnumbered => .fatal .instructions
  | .chainTooLong => .fatal .instructionReorder
  | .streamTooLong => .fatal (.optimizedBytecode ||| .overflow)

def numbered (n : Numbering) (old : UInt16) : Except Error UInt16 :=
  match n.get? old.toNat with
  | some new => .ok new
  | none => .error .unnumbered

def source (r : Renumbering) : Source → Except Error Source
  | .reg old => do .ok (.reg (← numbered r.registers old))
  | .const old => do .ok (.const (← numbered r.constants old))
  | .acc => .ok .acc

/-- The destinations from position `pos` on, when `spare` unread ones went before. -/
def dests (r : Renumbering) (l : Liveness) (node : Nat) : (pos spare : Nat) → List Dest → Except Error (List Dest)
  | _, _, [] => .ok []
  | pos, spare, .acc :: rest => do .ok (.acc :: (← dests r l node (pos + 1) spare rest))
  | pos, spare, .reg old :: rest =>
    if l.isUnread node pos then
      let new := r.registers.size + spare
      if 65535 < new then .error (.overflow .registers)
      else do .ok (.reg (UInt16.ofNat new) :: (← dests r l node (pos + 1) (spare + 1) rest))
    else do
      let new ← numbered r.registers old
      .ok (.reg new :: (← dests r l node (pos + 1) spare rest))

def payload (r : Renumbering) (node : Nat) (i : Instruction) : Except Error Payload :=
  match i.payload, i.opcode with
  | .field dataset field, .input _ advance =>
    match r.inputSlot? dataset field advance with
    | some slot => .ok (.field dataset slot)
    | none => .error .unnumbered
  | .field dataset _, .output _ =>
    match r.slotOf.getD node none with
    | some slot => .ok (.field dataset slot)
    | none => .error .unnumbered
  | other, _ => .ok other

def instruction (r : Renumbering) (l : Liveness) (node : Nat) (i : Instruction) : Except Error Instruction := do
  let sources ← i.sources.mapM (source r)
  let dests ← dests r l node 0 0 i.dests
  let payload ← payload r node i
  .ok { i with payload, sources, dests }

def steps (r : Renumbering) (l : Liveness) (p : Program) : List Nat → Except Error (List Instruction)
  | [] => .ok []
  | node :: rest =>
    match p[node]? with
    | none => .error .unnumbered
    | some n => do
      let i ← instruction r l node n.instr
      .ok (i :: (← steps r l p rest))

def item (r : Renumbering) (l : Liveness) (p : Program) (chain : List Nat) : Except Error Stream.Item :=
  if 255 < chain.length then .error .chainTooLong
  else do
    match ← steps r l p chain with
    | [i] => .ok (.plain i)
    | is => .ok (.group is)

def stepOffsets : (offset : Nat) → List Instruction → List Nat
  | _, [] => []
  | offset, i :: rest => offset :: stepOffsets (offset + i.width) rest

def itemOffsets (offset : Nat) : Stream.Item → List Nat
  | .plain i => stepOffsets offset [i]
  | .group is => stepOffsets (offset + 2) is

def placements (size : Nat) (chains : List (List Nat)) (items : List Stream.Item) : Array (Option Nat) :=
  ((chains.zip items).foldl (fun (placed, offset) (chain, item) =>
    ((chain.zip (itemOffsets offset item)).foldl (fun placed (node, place) => placed.setIfInBounds node (some place)) placed,
      offset + item.width)) (Array.replicate size none, 0)).1

end Emission

structure Emission where
  code : Bytes
  items : List Stream.Item
  /-- The offset of every emitted node in the new stream. -/
  placed : Array (Option Nat)
  deriving Inhabited

namespace Emission

def groups (e : Emission) : Nat :=
  e.items.countP fun
    | .group _ => true
    | .plain _ => false

/-- Writes the chains; a stream with anything in it ends with `done`. -/
def ofChains (p : Program) (l : Liveness) (r : Renumbering) (chains : List (List Nat)) : Except Error Emission :=
  if 65535 < r.registers.size then .error (.overflow .registers)
  else do
    let items ← chains.mapM (item r l p)
    let code := if items.isEmpty then [] else Stream.encode items ++ [Opcode.done.byte]
    if 4294967295 < code.length then .error .streamTooLong
    else .ok ⟨code, items, placements p.size chains items⟩

end Emission

end LaneScript
