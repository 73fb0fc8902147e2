/-
  LaneScript.Opcode — the instruction set.

  A category fixes how an instruction's operands are laid out. The lane functions
  (`Compute`) differ only in their byte, their name, how many sources they take and
  the element type they work on, so they share one constructor of `Opcode`; inputs
  and outputs are told apart by their element type, and inputs also by whether they
  move from instance to instance.
-/

namespace LaneScript

inductive Element where
  | float
  | int
  | half
  deriving DecidableEq, Repr, Inhabited

namespace Element

def byte : Element → UInt8
  | .float => 0
  | .int => 1
  | .half => 2

def ofByte? : UInt8 → Option Element
  | 0 => some .float
  | 1 => some .int
  | 2 => some .half
  | _ => none

def name : Element → String
  | .float => "float"
  | .int => "int"
  | .half => "half"

def all : List Element := [.float, .int, .half]

end Element

inductive Category where
  /-- A function of its sources, one result. -/
  | compute
  | input
  | output
  /-- A call of a host function. -/
  | call
  /-- Hands out output slots. -/
  | indexGenerator
  /-- Reads or writes the table of persistent ids. -/
  | idBuffer
  /-- Brackets a measured stretch. -/
  | scope
  | control
  deriving DecidableEq, Repr, Inhabited

inductive Compute where
  | neg | abs | rcp | rsqrt | sqrt | exp | exp2 | log | log2 | sin | cos | tan | asin | acos | atan | ceil
  | floor | frac | trunc | round | sign | random | add | sub | mul | div | min | max | pow | atan2 | fmod
  | step | cmpLt | cmpLe | cmpGt | cmpGe | cmpEq | cmpNeq | mad | lerp | clamp | select | addI | subI | mulI
  | divI | minI | maxI | absI | negI | signI | bitAnd | bitOr | bitXor | bitNot | bitLshift | bitRshift
  | logicAnd | logicOr | logicXor | logicNot | f2I | i2F | f2B | b2F | i2B | b2I
  deriving DecidableEq, Repr, Inhabited

structure Compute.Row where
  byte : UInt8
  name : String
  /-- How many sources it takes. -/
  arity : Nat
  element : Element

namespace Compute

def row : Compute → Row
  | .neg => ⟨0x10, "neg", 1, .float⟩
  | .abs => ⟨0x11, "abs", 1, .float⟩
  | .rcp => ⟨0x12, "rcp", 1, .float⟩
  | .rsqrt => ⟨0x13, "rsqrt", 1, .float⟩
  | .sqrt => ⟨0x14, "sqrt", 1, .float⟩
  | .exp => ⟨0x15, "exp", 1, .float⟩
  | .exp2 => ⟨0x16, "exp2", 1, .float⟩
  | .log => ⟨0x17, "log", 1, .float⟩
  | .log2 => ⟨0x18, "log2", 1, .float⟩
  | .sin => ⟨0x19, "sin", 1, .float⟩
  | .cos => ⟨0x1a, "cos", 1, .float⟩
  | .tan => ⟨0x1b, "tan", 1, .float⟩
  | .asin => ⟨0x1c, "asin", 1, .float⟩
  | .acos => ⟨0x1d, "acos", 1, .float⟩
  | .atan => ⟨0x1e, "atan", 1, .float⟩
  | .ceil => ⟨0x1f, "ceil", 1, .float⟩
  | .floor => ⟨0x20, "floor", 1, .float⟩
  | .frac => ⟨0x21, "frac", 1, .float⟩
  | .trunc => ⟨0x22, "trunc", 1, .float⟩
  | .round => ⟨0x23, "round", 1, .float⟩
  | .sign => ⟨0x24, "sign", 1, .float⟩
  | .random => ⟨0x25, "random", 1, .float⟩
  | .add => ⟨0x30, "add", 2, .float⟩
  | .sub => ⟨0x31, "sub", 2, .float⟩
  | .mul => ⟨0x32, "mul", 2, .float⟩
  | .div => ⟨0x33, "div", 2, .float⟩
  | .min => ⟨0x34, "min", 2, .float⟩
  | .max => ⟨0x35, "max", 2, .float⟩
  | .pow => ⟨0x36, "pow", 2, .float⟩
  | .atan2 => ⟨0x37, "atan2", 2, .float⟩
  | .fmod => ⟨0x38, "fmod", 2, .float⟩
  | .step => ⟨0x39, "step", 2, .float⟩
  | .cmpLt => ⟨0x3a, "cmplt", 2, .float⟩
  | .cmpLe => ⟨0x3b, "cmple", 2, .float⟩
  | .cmpGt => ⟨0x3c, "cmpgt", 2, .float⟩
  | .cmpGe => ⟨0x3d, "cmpge", 2, .float⟩
  | .cmpEq => ⟨0x3e, "cmpeq", 2, .float⟩
  | .cmpNeq => ⟨0x3f, "cmpneq", 2, .float⟩
  | .mad => ⟨0x40, "mad", 3, .float⟩
  | .lerp => ⟨0x41, "lerp", 3, .float⟩
  | .clamp => ⟨0x42, "clamp", 3, .float⟩
  | .select => ⟨0x43, "select", 3, .float⟩
  | .addI => ⟨0x50, "addi", 2, .int⟩
  | .subI => ⟨0x51, "subi", 2, .int⟩
  | .mulI => ⟨0x52, "muli", 2, .int⟩
  | .divI => ⟨0x53, "divi", 2, .int⟩
  | .minI => ⟨0x54, "mini", 2, .int⟩
  | .maxI => ⟨0x55, "maxi", 2, .int⟩
  | .absI => ⟨0x56, "absi", 1, .int⟩
  | .negI => ⟨0x57, "negi", 1, .int⟩
  | .signI => ⟨0x58, "signi", 1, .int⟩
  | .bitAnd => ⟨0x59, "bit_and", 2, .int⟩
  | .bitOr => ⟨0x5a, "bit_or", 2, .int⟩
  | .bitXor => ⟨0x5b, "bit_xor", 2, .int⟩
  | .bitNot => ⟨0x5c, "bit_not", 1, .int⟩
  | .bitLshift => ⟨0x5d, "bit_lshift", 2, .int⟩
  | .bitRshift => ⟨0x5e, "bit_rshift", 2, .int⟩
  | .logicAnd => ⟨0x5f, "logic_and", 2, .int⟩
  | .logicOr => ⟨0x60, "logic_or", 2, .int⟩
  | .logicXor => ⟨0x61, "logic_xor", 2, .int⟩
  | .logicNot => ⟨0x62, "logic_not", 1, .int⟩
  | .f2I => ⟨0x63, "f2i", 1, .int⟩
  | .i2F => ⟨0x64, "i2f", 1, .float⟩
  | .f2B => ⟨0x65, "f2b", 1, .int⟩
  | .b2F => ⟨0x66, "b2f", 1, .float⟩
  | .i2B => ⟨0x67, "i2b", 1, .int⟩
  | .b2I => ⟨0x68, "b2i", 1, .int⟩

def byte (f : Compute) : UInt8 := f.row.byte
def name (f : Compute) : String := f.row.name
def arity (f : Compute) : Nat := f.row.arity
def element (f : Compute) : Element := f.row.element

def all : List Compute :=
  [.neg, .abs, .rcp, .rsqrt, .sqrt, .exp, .exp2, .log, .log2, .sin, .cos, .tan, .asin, .acos, .atan, .ceil,
   .floor, .frac, .trunc, .round, .sign, .random, .add, .sub, .mul, .div, .min, .max, .pow, .atan2, .fmod,
   .step, .cmpLt, .cmpLe, .cmpGt, .cmpGe, .cmpEq, .cmpNeq, .mad, .lerp, .clamp, .select, .addI, .subI, .mulI,
   .divI, .minI, .maxI, .absI, .negI, .signI, .bitAnd, .bitOr, .bitXor, .bitNot, .bitLshift, .bitRshift,
   .logicAnd, .logicOr, .logicXor, .logicNot, .f2I, .i2F, .f2B, .b2F, .i2B, .b2I]

end Compute

inductive Opcode where
  /-- Ends a stream. -/
  | done
  | nop
  /-- Stores the lane's instance number. -/
  | execIndex
  /-- Opens a group of steps that share an accumulator. -/
  | fused
  | compute (f : Compute)
  /-- Reads a field; without `advance` every lane sees the first instance. -/
  | input (element : Element) (advance : Bool)
  | output (element : Element)
  | acquireIndex
  | updateId
  | acquireId
  | call
  | enterScope
  | exitScope
  deriving DecidableEq, Repr, Inhabited

namespace Opcode

def all : List Opcode :=
  [.done, .nop, .execIndex, .fused] ++ Compute.all.map .compute ++ Element.all.map (.input · true) ++
    Element.all.map (.input · false) ++ Element.all.map .output ++
    [.acquireIndex, .updateId, .acquireId, .call, .enterScope, .exitScope]

def byte : Opcode → UInt8
  | .done => 0x00
  | .nop => 0x01
  | .execIndex => 0x02
  | .fused => 0x0f
  | .compute f => f.byte
  | .input e true => 0x70 + e.byte
  | .input e false => 0x73 + e.byte
  | .output e => 0x80 + e.byte
  | .acquireIndex => 0x90
  | .updateId => 0xa0
  | .acquireId => 0xa1
  | .call => 0xb0
  | .enterScope => 0xc0
  | .exitScope => 0xc1

def mnemonic : Opcode → String
  | .done => "done"
  | .nop => "nop"
  | .execIndex => "exec_index"
  | .fused => "fused"
  | .compute f => f.name
  | .input e true => "input_" ++ e.name
  | .input e false => "input_noadvance_" ++ e.name
  | .output e => "output_" ++ e.name
  | .acquireIndex => "acquire_index"
  | .updateId => "update_id"
  | .acquireId => "acquire_id"
  | .call => "external_call"
  | .enterScope => "enter_stat_scope"
  | .exitScope => "exit_stat_scope"

def category : Opcode → Category
  | .done | .nop | .execIndex | .fused => .control
  | .compute _ => .compute
  | .input .. => .input
  | .output _ => .output
  | .acquireIndex => .indexGenerator
  | .updateId | .acquireId => .idBuffer
  | .call => .call
  | .enterScope | .exitScope => .scope

/-- How many sources the opcode takes; 0 where the instruction says it itself. -/
def sourceCount : Opcode → Nat
  | .compute f => f.arity
  | .output _ | .updateId => 2
  | .acquireIndex => 1
  | _ => 0

def destCount : Opcode → Nat
  | .execIndex | .compute _ | .input .. | .acquireIndex => 1
  | .acquireId => 2
  | _ => 0

def element? : Opcode → Option Element
  | .compute f => some f.element
  | .input e _ | .output e => some e
  | .execIndex | .acquireIndex | .updateId | .acquireId => some .int
  | _ => none

/-- An input that shows every lane the first instance. -/
def isStill : Opcode → Bool
  | .input _ false => true
  | _ => false

def hasKinds (o : Opcode) : Bool :=
  match o.category with
  | .compute | .output | .indexGenerator => true
  | _ => false

/-- Bytes an instruction with this opcode takes; `none` where it depends on the instruction. -/
def width? : Opcode → Option Nat
  | .compute f => some (2 + 2 * (f.arity + 1))
  | .input .. | .updateId | .acquireId => some 7
  | .output _ => some 10
  | .acquireIndex => some 8
  | .enterScope | .execIndex => some 3
  | .done | .nop | .exitScope => some 1
  | .call | .fused => none

def ofByte? (b : UInt8) : Option Opcode := all.find? (·.byte == b)

def ofMnemonic? (name : String) : Option Opcode := all.find? (·.mnemonic == name)

theorem mem_all (o : Opcode) : o ∈ all := by
  rcases o with _ | _ | _ | _ | f | ⟨e, a⟩ | e | _ | _ | _ | _ | _ | _
  case compute => cases f <;> decide
  case input => cases e <;> cases a <;> decide
  case output => cases e <;> decide
  all_goals decide

/-- A byte names at most one opcode, and every opcode has one. -/
@[simp] theorem ofByte?_byte (o : Opcode) : ofByte? o.byte = some o := by
  rcases o with _ | _ | _ | _ | f | ⟨e, a⟩ | e | _ | _ | _ | _ | _ | _
  case compute => cases f <;> rfl
  case input => cases e <;> cases a <;> rfl
  case output => cases e <;> rfl
  all_goals rfl

theorem byte_of_ofByte? {b : UInt8} {o : Opcode} (h : ofByte? b = some o) : o.byte = b := by
  have := List.find?_some h
  simpa using this

end Opcode

end LaneScript
