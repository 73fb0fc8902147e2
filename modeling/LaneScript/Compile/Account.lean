/-
  LaneScript.Compile.Account — a compile told step by step.

  The account goes through the stages of a compile once more and records what each
  came upon, up to the stage that failed.
-/
import LaneScript.Compile
import LaneScript.Log

namespace LaneScript

open Log (Record)

def Stream.Error.account : Stream.Error → List Record
  | .trailing offset => [⟨.trace, "trailing bytes after done", [("offset", toString offset)]⟩]
  | .brokenGroup offset step =>
    [⟨.trace, "inconsistent fused chain", [("offset", toString offset), ("step", toString step)]⟩]
  | _ => []

namespace Compile

def unwrittenRecord (e : Flow.UnwrittenRead) : Record :=
  ⟨.trace, "read of a register that was never written",
    [("instruction", toString e.node), ("register", toString e.register.toNat)]⟩

def removedRecord (p : Program) (node : Nat) : Record :=
  ⟨.trace, "removed dead instruction",
    [("instruction", toString node), ("opcode", (p.getD node default).instr.opcode.mnemonic)]⟩

/-- The dropped nodes as they were found, from the last to the first, and a warning if there were any. -/
def removedRecords (o : Optimized) : List Record :=
  if o.removed.isEmpty then []
  else
    o.removed.reverse.map (removedRecord o.program) ++
      [⟨.warn, "script contains instructions whose results are never read",
        [("removed", toString o.removed.length), ("flags", Fault.redundantInstruction.render)]⟩]

def foldRecord (fold : Nat × Nat) : Record :=
  ⟨.trace, "merged producer into consumer", [("producer", toString fold.1), ("consumer", toString fold.2)]⟩

def renumberedRecord (r : Renumbering) : Record :=
  ⟨.debug, "remapped indices",
    [("temporaries", toString r.registers.size), ("constants", toString r.constants.size),
     ("inputs", toString r.inputFields.length), ("outputs", toString r.slots.length)]⟩

def compiledRecord (s : Stats) : Record :=
  ⟨.debug, "compiled script",
    [("decoded", toString s.decoded), ("emitted", toString s.emitted), ("dead", toString s.removed),
     ("merged", toString s.folded), ("fused", toString s.groups), ("bytes_in", toString s.bytesIn),
     ("bytes_out", toString s.bytesOut)]⟩

def writeRecords (o : Optimized) : Except Error Compiled → List Record
  | .ok c => [renumberedRecord c.renumbering, compiledRecord c.stats]
  | .error (.links (.foldedRead node producer)) =>
    [⟨.trace, "reads the register of a merged instruction",
      [("instruction", toString node), ("producer", toString producer)]⟩]
  | .error (.registerLimit inFlight limit) =>
    [⟨.debug, "register limit exceeded", [("in_flight", toString inFlight), ("limit", toString limit)]⟩]
  | .error (.emission _) =>
    match Renumbering.ofOrder o.program o.live o.order with
    | .ok r => [renumberedRecord r]
    | .error _ => []
  | .error _ => []

end Compile

def compileTold (code : Bytes) (functions : UInt32) (settings : Settings) :
    List Record × Except Compile.Error Compiled :=
  match Compile.read code functions settings with
  | .error (.stream e) => (e.account, .error (.stream e))
  | .error (.unwritten e) => ([Compile.unwrittenRecord e], .error (.unwritten e))
  | .error e => ([], .error e)
  | .ok o =>
    let result := Compile.write code.length settings o
    (Compile.removedRecords o ++ o.folds.map Compile.foldRecord ++ Compile.writeRecords o result, result)

/-- Telling changes nothing. -/
theorem compileTold_snd (code : Bytes) (functions : UInt32) (settings : Settings) :
    (compileTold code functions settings).2 = compile code functions settings := by
  unfold compileTold compile
  cases Compile.read code functions settings with
  | ok o => rfl
  | error e => cases e <;> rfl

end LaneScript
