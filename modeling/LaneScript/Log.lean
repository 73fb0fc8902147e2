/-
  LaneScript.Log — records of what a run came upon.
-/
import LaneScript.Text.Numeral

namespace LaneScript

namespace Log

inductive Level where
  | error
  | warn
  | info
  | debug
  | trace
  deriving DecidableEq, Repr

def Level.rank : Level → Nat
  | .error => 0
  | .warn => 1
  | .info => 2
  | .debug => 3
  | .trace => 4

def Level.name : Level → String
  | .error => "ERROR"
  | .warn => "WARN"
  | .info => "INFO"
  | .debug => "DEBUG"
  | .trace => "TRACE"

structure Record where
  level : Level
  message : String
  /-- Names and values, in order. -/
  fields : List (String × String) := []
  deriving DecidableEq, Repr

/-- Characters that steer a terminal are written by their code points; line ends and tabs are not among them. -/
def disarm (c : Char) : List Char :=
  if c = '\x07' ∨ c = '\x08' ∨ c = '\x0c' ∨ c = '\x1b' ∨ c = '\x7f' then ['\\', 'x'] ++ Numeral.hex 2 c.toNat
  else if 0x80 ≤ c.toNat ∧ c.toNat ≤ 0x9F then ['\\', 'u', '\x7b'] ++ Numeral.hex 1 c.toNat ++ ['\x7d']
  else [c]

def Record.text (r : Record) : String :=
  r.level.name ++ " " ++ String.ofList (r.message.toList.flatMap disarm) ++
    String.join (r.fields.map fun (name, value) => " " ++ name ++ "=" ++ value)

/-- Warnings are always shown; each step of verbosity shows one level more. -/
def Record.isShown (verbosity : Nat) (r : Record) : Bool := r.level.rank ≤ verbosity + 1

end Log

end LaneScript
