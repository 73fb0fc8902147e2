/-
  LaneScript.Cli — what the commands do.

  A command reads the files it names (`Command.paths`), and asks for at most one file
  to be written, last of all. So what it does is a function of the files' contents:
  `Command.plan` gives the log, the output and the file to write, and `Plan.outcome`
  completes it once the host has tried to write that file.
-/
import LaneScript.Assembly
import LaneScript.Assembly.Listing
import LaneScript.Cli.Arguments
import LaneScript.Cli.Path
import LaneScript.Compile.Account
import LaneScript.Image.Load
import LaneScript.Settings.File
import LaneScript.Text.Quoted

namespace LaneScript.Cli

open Log (Record)

/-- The contents of a file, or the host's words for why it cannot be read. -/
abbrev Files := String → Except String Bytes

structure Plan where
  log : List Record := []
  /-- Text for the standard output. -/
  out : String := ""
  failed : Bool := false
  /-- A file to write, by path and contents. -/
  write : Option (String × Bytes) := none
  deriving DecidableEq, Repr

structure Outcome where
  status : Nat
  out : String
  log : List String
  deriving DecidableEq, Repr

/-! ## Steps -/

/-- A step that tells what it came upon and may fail with a message. -/
abbrev Step (α : Type) := ExceptT String (StateM (List Record)) α

namespace Step

/-- Adds records; they are kept newest first. -/
def tell (records : List Record) : Step Unit := modify fun log => records.reverse ++ log

def fail (message : String) : Step α := throw message

def plan (step : Step Plan) : Plan :=
  match step.run.run [] with
  | (.ok p, log) => { p with log := log.reverse }
  | (.error message, log) => { log := log.reverse ++ [⟨.error, message, []⟩], failed := true }

end Step

def utf8? (bytes : Bytes) : Option String := String.fromUTF8? ⟨bytes.toArray⟩

def readFile (files : Files) (path : String) : Step Bytes :=
  match files path with
  | .ok bytes => pure bytes
  | .error reason => Step.fail ("Failed to read " ++ path ++ ": " ++ reason)

/-- A stream from a file, which is assembled if its extension says so. -/
def readStream (files : Files) (path : String) : Step Bytes := do
  let bytes ← readFile files path
  if Path.extension? path = some "vasm" then
    match utf8? bytes with
    | none => Step.fail (path ++ " is not valid UTF-8")
    | some source =>
      match Assembly.assemble source with
      | .ok code => pure code
      | .error e => Step.fail (path ++ ":" ++ e.message)
  else pure bytes

def readSettings (files : Files) : Option String → Step Settings
  | none => pure {}
  | some path =>
    let unreadable reason := "failed to read config file " ++ path ++ ": " ++ reason
    match files path with
    | .error reason => Step.fail (unreadable reason)
    | .ok bytes =>
      match utf8? bytes with
      | none => Step.fail (unreadable "stream did not contain valid UTF-8")
      | some text =>
        match Settings.parse text.toList with
        | .ok settings => pure settings
        | .error e => Step.fail e.message

def listing (code : Bytes) : Step (Except Stream.Error String) :=
  match Assembly.disassemble code with
  | .ok text => pure (.ok text)
  | .error e => do
    Step.tell e.account
    pure (.error e)

/-! ## Commands -/

def summary (m : Loaded) : String :=
  let h := m.header
  let n (x : Nat) := toString x
  let line (label rest : String) := label ++ rest ++ "\n"
  line "=== frozen context (" (n m.buffer.length ++ " bytes) ===") ++
  line "content hash         " (String.ofList (Numeral.hex 16 m.hash.toNat)) ++
  line "bytecode             " (n h.codeLength.toNat ++ " bytes") ++
  line "temporaries          " (n h.registers.toNat) ++
  line "dummy registers      " (n h.spareRegisters.toNat) ++
  line "constants            "
    (n h.constants.toNat ++ " remapped / " ++ n h.allocatedConstants.toNat ++ " allocated") ++
  line "inputs               "
    (n h.inputs.toNat ++ " (" ++ n h.stillInputs.toNat ++ " no-advance) over " ++ n h.inputDatasets.toNat ++
      " data sets") ++
  line "outputs              "
    (n h.outputs.toNat ++ " instructions, " ++ n h.outputFields.toNat ++ " fields, data sets < " ++
      n h.outputDatasets.toNat) ++
  line "external functions   "
    (n h.functions.toNat ++ " (max used " ++ toString h.lastFunction.toInt ++ ", max registers " ++
      n h.callRegisters.toNat ++ ")") ++
  line "flags                " ("0x" ++ String.ofList (Numeral.hex 1 h.flags.toNat)) ++
  "\n=== code ===\n"

def assemblePlan (files : Files) (input : String) (output : Option String) : Step Plan := do
  let code ← readStream files input
  pure { write := some (output.getD (Path.withExtension input "vbc"), code) }

def compilePlan (files : Files) (input : String) (functions : UInt32) (config output : Option String) :
    Step Plan := do
  let settings ← readSettings files config
  let code ← readStream files input
  let (records, result) := compileTold code functions settings
  Step.tell records
  match result with
  | .error e => Step.fail ("Compilation failed: " ++ e.fault.render)
  | .ok c =>
    if !c.flags.isEmpty then Step.tell [⟨.warn, input ++ ": " ++ c.flags.render, []⟩]
    Step.tell [⟨.info, toString c.stats.decoded ++ " -> " ++ toString c.stats.emitted ++ " instructions (" ++
      toString c.stats.removed ++ " removed, " ++ toString c.stats.folded ++ " merged)", []⟩]
    let buffer := c.image.pack
    Step.tell [⟨.trace, "froze context",
      [("bytes", toString buffer.length), ("hash", toString (Header.storedHash buffer).toNat)]⟩]
    pure { write := some (output.getD (Path.withExtension input "vfz"), buffer) }

def inspectPlan (files : Files) (input : String) : Step Plan := do
  match load (← readFile files input) with
  | .error r => do
    Step.tell [⟨.trace, "rejected packed buffer",
      [("flags", r.kind.render), ("reason", Text.quoted r.reason)]⟩]
    Step.fail (input ++ ": " ++ r.fault.render)
  | .ok m =>
    match ← listing m.code with
    | .ok text => pure { out := summary m ++ text }
    | .error e => do
      Step.tell [⟨.warn, "Stored bytecode does not decode: " ++ e.fault.render, []⟩]
      pure { out := summary m }

def disassemblePlan (files : Files) (input : String) : Step Plan := do
  let code ← readStream files input
  match ← listing code with
  | .ok text => pure { out := text }
  | .error e => Step.fail (input ++ ": " ++ e.fault.render)

def Command.paths : Command → List String
  | .assemble input _ | .inspect input | .disassemble input => [input]
  | .compile input _ config _ => config.toList ++ [input]

def Command.plan (files : Files) (c : Command) : Plan :=
  Step.plan <| match c with
    | .assemble input output => assemblePlan files input output
    | .compile input functions config output => compilePlan files input functions config output
    | .inspect input => inspectPlan files input
    | .disassemble input => disassemblePlan files input

/-- The end of a run; `trouble` is why the plan's file could not be written. -/
def Plan.outcome (p : Plan) (verbosity : Nat) (trouble : Option String) : Outcome :=
  let written := match p.write, trouble with
    | none, _ => []
    | some (path, _), some reason => [⟨.error, "Failed to write " ++ path ++ ": " ++ reason, []⟩]
    | some (path, bytes), none => [⟨.info, "Wrote " ++ toString bytes.length ++ " bytes to " ++ path, []⟩]
  let failed := p.failed || (p.write.isSome && trouble.isSome)
  { status := if failed then 1 else 0
    out := p.out
    log := ((p.log ++ written).filter (Record.isShown verbosity)).map Record.text }

def versionText : String := "vectron 0.1.0\n"

def helpText : String :=
  "Optimize vector bytecode and pack it into frozen contexts\n\nUsage: vectron [-v]... <COMMAND>\n\nCommands:\n" ++
  "  asm <INPUT> [-o OUTPUT]\n" ++
  "  compile <INPUT> [--ext-fns N] [--config FILE] [-o OUTPUT]\n" ++
  "  inspect <INPUT>\n" ++
  "  disasm <INPUT>\n"

end LaneScript.Cli
