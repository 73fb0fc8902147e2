/-
  LaneScript.Cli.Arguments — reading the command line.

  A command line is options of the program, the name of a command, and the command's
  own options and input. Short options may be written together; a value may follow
  its option as the next argument, after an equals sign or, for a short option, at
  once. Two dashes end the options. Each option with a value may be given once.
-/
import LaneScript.Text.Numeral

namespace LaneScript.Cli

inductive Command where
  /-- Assemble a text. -/
  | assemble (input : String) (output : Option String)
  /-- Compile a stream or a text and pack the image. -/
  | compile (input : String) (functions : UInt32) (config output : Option String)
  /-- Describe a packed image. -/
  | inspect (input : String)
  /-- List a stream. -/
  | disassemble (input : String)
  deriving DecidableEq, Repr

inductive Request where
  | run (verbosity : Nat) (command : Command)
  | version
  | help
  deriving DecidableEq, Repr

inductive Halt where
  /-- The command line is none. -/
  | usage
  | help
  | version
  deriving DecidableEq, Repr

inductive Flag where
  | verbose
  | help
  | version
  | output
  | functions
  | config
  deriving DecidableEq, Repr

def Flag.long : Flag → String
  | .verbose => "verbose"
  | .help => "help"
  | .version => "version"
  | .output => "output"
  | .functions => "ext-fns"
  | .config => "config"

def Flag.short? : Flag → Option Char
  | .verbose => some 'v'
  | .help => some 'h'
  | .version => some 'V'
  | .output => some 'o'
  | .functions | .config => none

inductive Verb where
  | assemble
  | compile
  | inspect
  | disassemble
  deriving DecidableEq, Repr

def Verb.all : List Verb := [.assemble, .compile, .inspect, .disassemble]

def Verb.name : Verb → String
  | .assemble => "asm"
  | .compile => "compile"
  | .inspect => "inspect"
  | .disassemble => "disasm"

def programFlags : List Flag := [.verbose, .help, .version]

def Verb.flags : Verb → List Flag
  | .assemble => [.verbose, .help, .output]
  | .compile => [.verbose, .help, .output, .functions, .config]
  | .inspect | .disassemble => [.verbose, .help]

structure Given where
  verbosity : Nat := 0
  input : Option String := none
  output : Option String := none
  functions : Option UInt32 := none
  config : Option String := none

/-- A number with an optional sign that fits 32 bits. -/
def functionCount? (value : String) : Option UInt32 :=
  let (negative, digits) := match value.toList with
    | '-' :: rest => (true, rest)
    | '+' :: rest => (false, rest)
    | rest => (false, rest)
  if digits.isEmpty || !digits.all Numeral.isDigit then none
  else
    let n := Numeral.value digits
    if (negative ∧ n ≠ 0) ∨ 4294967295 < n then none else some (UInt32.ofNat n)

def setPath (old : Option String) (value : String) : Except Halt (Option String) :=
  if old.isSome || value.isEmpty then .error .usage else .ok (some value)

def Given.setValue (g : Given) (value : String) : Flag → Except Halt Given
  | .output => do .ok { g with output := ← setPath g.output value }
  | .config => do .ok { g with config := ← setPath g.config value }
  | .functions =>
    match g.functions, functionCount? value with
    | none, some n => .ok { g with functions := some n }
    | _, _ => .error .usage
  | _ => .error .usage

/-- Notes an option; the result names it if its value is still to come. -/
def Given.note (g : Given) : Flag → Except Halt (Given × Option Flag)
  | .verbose => .ok ({ g with verbosity := g.verbosity + 1 }, none)
  | .help => .error .help
  | .version => .error .version
  | flag => .ok (g, some flag)

def shorts (flags : List Flag) : List Char → Given → Except Halt (Given × Option Flag)
  | [], g => .ok (g, none)
  | c :: rest, g =>
    match flags.find? (·.short? == some c) with
    | none => .error .usage
    | some flag => do
      match ← g.note flag with
      | (g, none) => shorts flags rest g
      | (g, some flag) =>
        match rest with
        | [] => .ok (g, some flag)
        | '=' :: value => do .ok (← g.setValue (String.ofList value) flag, none)
        | value => do .ok (← g.setValue (String.ofList value) flag, none)

def long (flags : List Flag) (text : List Char) (g : Given) : Except Halt (Given × Option Flag) :=
  let name := text.takeWhile (· ≠ '=')
  match flags.find? (·.long.toList == name), text.drop name.length with
  | none, _ => .error .usage
  | some .verbose, _ :: _ | some .help, _ :: _ | some .version, _ :: _ => .error .usage
  | some flag, [] => g.note flag
  | some flag, _ :: value => do .ok (← g.setValue (String.ofList value) flag, none)

/-- Whether an argument begins like an option; a single dash does not. -/
def looksLikeFlag (arg : String) : Bool :=
  match arg.toList with
  | '-' :: _ :: _ => true
  | _ => false

def Given.setInput (g : Given) (value : String) : Except Halt Given := do
  .ok { g with input := ← setPath g.input value }

def arguments (flags : List Flag) : List String → Given → Except Halt Given
  | [], g => .ok g
  | arg :: rest, g =>
    match arg.toList with
    | ['-', '-'] => rest.foldlM Given.setInput g
    | '-' :: c :: cs => do
      let (g, awaiting) ← if c = '-' then long flags cs g else shorts flags (c :: cs) g
      match awaiting, rest with
      | none, rest => arguments flags rest g
      | some _, [] => .error .usage
      | some flag, value :: rest =>
        if looksLikeFlag value then .error .usage
        else do arguments flags rest (← g.setValue value flag)
    | _ => do arguments flags rest (← g.setInput arg)

def Verb.command (v : Verb) (g : Given) : Except Halt Command :=
  match g.input with
  | none => .error .usage
  | some input =>
    .ok <| match v with
      | .assemble => .assemble input g.output
      | .compile => .compile input (g.functions.getD 0) g.config g.output
      | .inspect => .inspect input
      | .disassemble => .disassemble input

def helpName : String := "help"

/-- Whether arguments behind `help` are those of a request for it: none, or the name of a command. -/
def asksForHelp : List String → Bool
  | [] => true
  | [arg] => arg == helpName || Verb.all.any (·.name == arg)
  | _ => false

/-- The arguments up to and including the name of a command; the count behind it wins over the one before it. -/
def program : List String → Given → Except Halt Request
  | [], _ => .error .usage
  | arg :: rest, g =>
    match arg.toList with
    | ['-', '-'] => .error .usage
    | '-' :: c :: cs => do
      let (g, _) ← if c = '-' then long programFlags cs g else shorts programFlags (c :: cs) g
      program rest g
    | _ =>
      match Verb.all.find? (·.name == arg) with
      | some v => do
        let own ← arguments v.flags rest {}
        let command ← v.command own
        .ok (.run (if own.verbosity = 0 then g.verbosity else own.verbosity) command)
      | none => .error (if arg = helpName ∧ asksForHelp rest then .help else .usage)

def request? (args : List String) : Option Request :=
  match program args {} with
  | .ok r => some r
  | .error .help => some .help
  | .error .version => some .version
  | .error .usage => none

end LaneScript.Cli
