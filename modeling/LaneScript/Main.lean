/-
  LaneScript.Main — the program: arguments, files and the standard streams.
-/
import LaneScript.Cli

namespace LaneScript.Cli

/-- The host's words for a failure, a missing file by its number. -/
def hostWords (e : IO.Error) : String :=
  match e with
  | .noFileOrDirectory .. => "No such file or directory (os error 2)"
  | e => toString e

def readHost (path : String) : IO (Except String Bytes) := do
  try
    let bytes ← IO.FS.readBinFile path
    return .ok bytes.toList
  catch e => return .error (hostWords e)

def writeHost (path : String) (bytes : Bytes) : IO (Option String) := do
  try
    IO.FS.writeBinFile path ⟨bytes.toArray⟩
    return none
  catch e => return some (hostWords e)

def carryOut (verbosity : Nat) (command : Command) : IO Outcome := do
  let contents ← command.paths.mapM fun path => do return (path, ← readHost path)
  let files : Files := fun path => (contents.lookup path).getD (.error "not read")
  let plan := command.plan files
  let trouble ← match plan.write with
    | some (path, bytes) => writeHost path bytes
    | none => pure none
  return plan.outcome verbosity trouble

def execute (args : List String) : IO UInt32 := do
  match request? args with
  | none =>
    IO.eprint helpText
    return 2
  | some .version =>
    IO.print versionText
    return 0
  | some .help =>
    IO.print helpText
    return 0
  | some (.run verbosity command) =>
    let outcome ← carryOut verbosity command
    IO.print outcome.out
    outcome.log.forM IO.eprintln
    return UInt32.ofNat outcome.status

end LaneScript.Cli

def main (args : List String) : IO UInt32 := LaneScript.Cli.execute args
