/-
  LaneScript.Fault — the 32-bit word in which the pipeline reports what went wrong.

  Each bit names one kind of trouble; `fatal` marks a word that stands in place of
  a result, and a word without it only accompanies one. Bits without a name are
  kept, and `render` shows them last in hexadecimal.
-/
import LaneScript.Text.Numeral

namespace LaneScript

structure Fault where
  bits : UInt32
  deriving DecidableEq, Repr, Inhabited

namespace Fault

instance : OrOp Fault := ⟨fun a b => ⟨a.bits ||| b.bits⟩⟩

def clear : Fault := ⟨0⟩

def outOfMemory : Fault := ⟨0x1⟩
/-- A count is too large for its field. -/
def overflow : Fault := ⟨0x2⟩
/-- A stream or an image is malformed. -/
def bytecode : Fault := ⟨0x4⟩
def registerUsage : Fault := ⟨0x8⟩
def constRemap : Fault := ⟨0x10⟩
def ssaRemap : Fault := ⟨0x20⟩
def instructions : Fault := ⟨0x40⟩
def inputMergeBuffer : Fault := ⟨0x80⟩
def instructionReorder : Fault := ⟨0x100⟩
/-- The optimised stream or the image has the wrong size. -/
def optimizedBytecode : Fault := ⟨0x200⟩
def externalFunction : Fault := ⟨0x400⟩
/-- Dead instructions were dropped; never fatal. -/
def redundantInstruction : Fault := ⟨0x800⟩
/-- No result was produced. -/
def fatalBit : Fault := ⟨0x80000000⟩

def named : List (Fault × String) :=
  [(outOfMemory, "OutOfMemory"), (overflow, "Overflow"), (bytecode, "Bytecode"), (registerUsage, "RegisterUsage"),
   (constRemap, "ConstRemap"), (ssaRemap, "SSARemap"), (instructions, "Instructions"),
   (inputMergeBuffer, "InputMergeBuffer"), (instructionReorder, "InstructionReOrder"),
   (optimizedBytecode, "OptimizedBytecode"), (externalFunction, "ExternalFunction"),
   (redundantInstruction, "RedundantInstruction"), (fatalBit, "Fatal")]

def fatal (f : Fault) : Fault := f ||| fatalBit

def isEmpty (f : Fault) : Bool := f.bits == 0

/-- Every bit of `g` is set in `f`. -/
def contains (f g : Fault) : Bool := f.bits &&& g.bits == g.bits

def intersects (f g : Fault) : Bool := f.bits &&& g.bits != 0

def isFatal (f : Fault) : Bool := f.contains fatalBit

def names (f : Fault) : List String := (named.filter fun n => f.contains n.1).map (·.2)

def nameless (f : Fault) : UInt32 := f.bits &&& ~~~(named.foldl (fun acc n => acc ||| n.1.bits) 0)

/-- The names of the set bits, lowest first, then the nameless bits; `none` for the clear word. -/
def render (f : Fault) : String :=
  let rest := if f.nameless == 0 then [] else ["0x" ++ String.ofList (Numeral.hex 8 f.nameless.toNat)]
  if f.isEmpty then "none" else " | ".intercalate (f.names ++ rest)

end Fault

end LaneScript
