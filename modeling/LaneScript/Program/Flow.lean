/-
  LaneScript.Program.Flow — which node's value each source reads.

  A register may be stored to many times, so a read belongs to the last store before
  it. One pass over the program finds, for every source, the node it reads from
  (`producers`), for every node the sources that read it (`readers`), and for every
  register the nodes that store to it (`writers`). A register that is read before
  anything was stored in it has no value, and the program no flow.
-/
import LaneScript.Program
import Std.Data.TreeMap

namespace LaneScript

structure Flow where
  /-- For each node and source, the node read from; `none` for constants and the accumulator. -/
  producers : Array (List (Option Nat)) := #[]
  /-- For each node, the sources that read it: node and position, in order. -/
  readers : Array (Array (Nat × Nat)) := #[]
  /-- For each register, the nodes that store to it, in order. -/
  writers : Std.TreeMap UInt16 (Array Nat) := ∅
  deriving Inhabited

namespace Flow

structure UnwrittenRead where
  node : Nat
  register : UInt16
  deriving DecidableEq, Repr

def UnwrittenRead.fault (_ : UnwrittenRead) : Fault := .fatal .instructions

structure Scan where
  /-- The node that last stored to each register. -/
  last : Std.TreeMap UInt16 Nat := ∅
  producers : Array (List (Option Nat)) := #[]
  readers : Array (Array (Nat × Nat))
  writers : Std.TreeMap UInt16 (Array Nat) := ∅

def producer (last : Std.TreeMap UInt16 Nat) (node : Nat) : Source → Except UnwrittenRead (Option Nat)
  | .reg r =>
    match last[r]? with
    | some w => .ok (some w)
    | none => .error ⟨node, r⟩
  | .const _ | .acc => .ok none

/-- Notes the sources of `node` from position `pos` on with the nodes they read. -/
def addReaders (readers : Array (Array (Nat × Nat))) (node : Nat) :
    (pos : Nat) → List (Option Nat) → Array (Array (Nat × Nat))
  | _, [] => readers
  | pos, none :: rest => addReaders readers node (pos + 1) rest
  | pos, some w :: rest => addReaders (readers.modify w (·.push (node, pos))) node (pos + 1) rest

/-- Notes a store, once for each node. -/
def addWriter (writers : Std.TreeMap UInt16 (Array Nat)) (node : Nat) (r : UInt16) : Std.TreeMap UInt16 (Array Nat) :=
  writers.alter r fun
    | none => some #[node]
    | some ws => some (if ws.back? = some node then ws else ws.push node)

def Scan.visit (s : Scan) (node : Nat) (i : Instruction) : Except UnwrittenRead Scan :=
  let ⟨last, producers, readers, writers⟩ := s
  match i.sources.mapM (producer last node) with
  | .error e => .error e
  | .ok found =>
    .ok {
      last := i.writes.foldl (fun last r => last.insert r node) last
      producers := producers.push found
      readers := addReaders readers node 0 found
      writers := i.writes.foldl (fun writers r => addWriter writers node r) writers }

def Scan.visitAll (s : Scan) : (node : Nat) → List Node → Except UnwrittenRead Scan
  | _, [] => .ok s
  | node, n :: rest =>
    match s.visit node n.instr with
    | .error e => .error e
    | .ok s => s.visitAll (node + 1) rest

/-- The flow of a program, if it reads only what was stored. -/
def ofProgram (p : Program) : Except UnwrittenRead Flow := do
  let s ← ({ readers := Array.replicate p.size #[] } : Scan).visitAll 0 p.toList
  .ok ⟨s.producers, s.readers, s.writers⟩

end Flow

end LaneScript
