/-
  LaneScript.Compile — from a stream to an image.

  The stream is read, its flow found, what does not matter dropped, single-use
  results folded into their readers, everything renumbered and written anew. Each
  stage that can fail has its own error; the word that reports it is `Error.fault`.
-/
import LaneScript.Compile.Emission
import LaneScript.Image
import LaneScript.Program.Fold
import LaneScript.Program.Pressure
import LaneScript.Settings

namespace LaneScript

namespace Compile

inductive Error where
  | stream (e : Stream.Error)
  | unwritten (e : Flow.UnwrittenRead)
  | links (e : Program.LinkError)
  | registerLimit (inFlight limit : Nat)
  | renumbering (space : Space)
  | emission (e : Emission.Error)
  deriving DecidableEq, Repr

def Error.fault : Error → Fault
  | .stream e => e.fault
  | .unwritten e => e.fault
  | .links e => e.fault
  | .registerLimit .. => .fatal (.overflow ||| .registerUsage)
  | .renumbering space => space.fault
  | .emission e => e.fault

structure Stats where
  decoded : Nat := 0
  /-- Instructions in the new stream, a group counted once. -/
  emitted : Nat := 0
  removed : Nat := 0
  folded : Nat := 0
  groups : Nat := 0
  inFlight : Nat := 0
  bytesIn : Nat := 0
  bytesOut : Nat := 0
  deriving DecidableEq, Repr, Inhabited

namespace Stats

/-- Instructions that no longer stand on their own. -/
def eliminated (s : Stats) : Nat := s.removed + s.folded

/-- Size of the new stream in sizes of the old one; 1 for an empty one. -/
def sizeRatio (s : Stats) : Float :=
  if s.bytesIn = 0 then 1 else Float.ofNat s.bytesOut / Float.ofNat s.bytesIn

end Stats

/-! ## The optimised program -/

/-- A program after dropping and folding, before anything is renumbered. -/
structure Optimized where
  program : Program
  live : Liveness
  calls : Stream.CallTable
  /-- The nodes dropped, in the order of the program. -/
  removed : List Nat
  /-- The folds made, in order: the node and its reader. -/
  folds : List (Nat × Nat)
  deriving Inhabited

def Optimized.order (o : Optimized) : List Nat := o.program.emissionOrder o.live

def drop (settings : Settings) (p : Program) (l : Liveness) : Liveness × List Nat :=
  if settings.prune then
    let (l, pruned) := l.prune p
    (l, pruned.removed)
  else (l, [])

def optimize (settings : Settings) (d : Stream.Decoded) (flow : Flow) : Optimized :=
  let p := d.program
  let (l, removed) := drop settings p (Liveness.ofFlow flow p)
  if settings.fold then
    let f := p.fold l settings.groupLimit.toNat {}
    ⟨f.program, l, d.calls, removed, f.folds.reverse⟩
  else ⟨p, l, d.calls, removed, []⟩

def read (code : Bytes) (functions : UInt32) (settings : Settings) : Except Error Optimized :=
  match Stream.decode code functions.toNat with
  | .error e => .error (.stream e)
  | .ok d =>
    match Flow.ofProgram d.program with
    | .error e => .error (.unwritten e)
    | .ok flow => .ok (optimize settings d flow)

/-! ## The header -/

def traitsOf (n : Node) : List Trait :=
  let folded := if n.isFolded then [Trait.fusedGroups] else []
  folded ++ match n.instr.opcode with
    | .call => [.externalCalls]
    | .enterScope | .exitScope => [.statScopes]
    | .updateId | .acquireId => [.idBuffers]
    | .acquireIndex => [.indexGenerators]
    | .compute .random => [.random]
    | .execIndex => [.execIndex]
    | _ => []

def traits (nodes : List Node) : UInt32 :=
  (nodes.flatMap traitsOf).foldl (fun flags t => flags ||| t.bit) 0

def functionRow : Option Stream.CallShape → ExternalFn
  | none => {}
  | some shape =>
    { sources := UInt16.ofNat shape.sources, dests := UInt16.ofNat shape.dests,
      registers := UInt32.ofNat (shape.sources + shape.dests) }

/-- The functions called by the nodes of an order, with the throw-away registers each call needs. -/
def callsOf (p : Program) (l : Liveness) (order : List Nat) : List (UInt16 × Nat) :=
  order.filterMap fun node =>
    match p[node]? with
    | none => none
    | some n =>
      match n.instr.payload with
      | .call f => some (f, (l.unread.getD node []).length)
      | _ => none

def lastFunction (calls : List (UInt16 × Nat)) : Int :=
  calls.foldl (fun top (f, _) => max top (f.toNat : Int)) (-1)

def callRegisters (table : Stream.CallTable) (calls : List (UInt16 × Nat)) : Nat :=
  calls.foldl (fun top (f, _) =>
    match table.getD f.toNat none with
    | some shape => max top (shape.sources + shape.dests)
    | none => top) 0

def spareRegisters (calls : List (UInt16 × Nat)) : Nat := calls.foldl (fun top (_, n) => max top n) 0

end Compile

structure Compiled where
  /-- All nodes that were read, dropped and folded ones included. -/
  program : Program
  /-- The offset of every emitted node in the new stream. -/
  placed : Array (Option Nat)
  renumbering : Renumbering
  image : Image
  /-- What is worth mentioning though nothing failed. -/
  flags : Fault
  stats : Compile.Stats
  deriving Inhabited

namespace Compile

def headerOf (o : Optimized) (order : List Nat) (r : Renumbering) : Header :=
  let calls := callsOf o.program o.live order
  { outputDatasets := UInt32.ofNat r.outputs.size
    allocatedConstants := UInt16.ofNat (Renumbering.allocatedConstants r.constants)
    registers := UInt32.ofNat r.registers.size
    outputFields := UInt16.ofNat (Renumbering.outputFieldCount r.outputs)
    stillInputs := UInt16.ofNat r.stillCount
    callRegisters := UInt32.ofNat (callRegisters o.calls calls)
    spareRegisters := UInt32.ofNat (spareRegisters calls)
    lastFunction := Int32.ofInt (lastFunction calls)
    flags := traits (order.filterMap (o.program[·]?)) }

def imageOf (o : Optimized) (order : List Nat) (r : Renumbering) (e : Emission) : Image :=
  let m : Image := {
    header := headerOf o order r
    code := e.code
    constants := Renumbering.words r.constants
    inputs := r.inputFields
    inputOffsets := r.inputOffsets
    outputDatasets := r.slots.map OutputSlot.dataset
    outputTypes := r.slots.map OutputSlot.element
    outputFields := r.slots.map OutputSlot.field
    functions := o.calls.toList.map functionRow }
  { m with header := m.synced }

def write (bytesIn : Nat) (settings : Settings) (o : Optimized) : Except Error Compiled :=
  match o.program.checkLinks o.live with
  | .error e => .error (.links e)
  | .ok _ =>
    let chains := o.program.chains o.live
    let order := chains.flatten
    let inFlight := o.program.inFlight o.live order
    if settings.registerLimit.toNat < inFlight then .error (.registerLimit inFlight settings.registerLimit.toNat)
    else
      match Renumbering.ofOrder o.program o.live order with
      | .error space => .error (.renumbering space)
      | .ok r =>
        match Emission.ofChains o.program o.live r chains with
        | .error e => .error (.emission e)
        | .ok e =>
          .ok {
            program := o.program
            placed := e.placed
            renumbering := r
            image := imageOf o order r e
            flags := if o.removed.isEmpty then .clear else .redundantInstruction
            stats := {
              decoded := o.program.size
              emitted := e.items.length
              removed := o.removed.length
              folded := o.folds.length
              groups := e.groups
              inFlight
              bytesIn
              bytesOut := e.code.length } }

end Compile

def compile (code : Bytes) (functions : UInt32) (settings : Settings) : Except Compile.Error Compiled :=
  match Compile.read code functions settings with
  | .error e => .error e
  | .ok o => Compile.write code.length settings o

end LaneScript
