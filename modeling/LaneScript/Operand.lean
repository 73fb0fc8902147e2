/-
  LaneScript.Operand — what an instruction reads and where it stores.

  A source is a register, a constant of the host's table or the accumulator of a
  fused group; a destination is a register or the accumulator. In a stream a source
  is a two-bit kind and a word (`Source.kind`, `Source.index`); the word of an
  accumulator operand is written as zero and ignored when read.
-/
import LaneScript.Text.Numeral

namespace LaneScript

inductive Source where
  | reg (r : UInt16)
  | const (c : UInt16)
  /-- The result of the step before, inside a fused group. -/
  | acc
  deriving DecidableEq, Repr, Inhabited

inductive Dest where
  | reg (r : UInt16)
  /-- Kept for the next step of a fused group. -/
  | acc
  deriving DecidableEq, Repr, Inhabited

namespace Source

def reg? : Source → Option UInt16
  | .reg r => some r
  | _ => none

def const? : Source → Option UInt16
  | .const c => some c
  | _ => none

def kind : Source → Nat
  | .reg _ => 0
  | .const _ => 1
  | .acc => 2

def index : Source → UInt16
  | .reg i | .const i => i
  | .acc => 0

def ofParts? (kind : Nat) (index : UInt16) : Option Source :=
  match kind with
  | 0 => some (.reg index)
  | 1 => some (.const index)
  | 2 => some .acc
  | _ => none

def text : Source → List Char
  | .reg r => 'r' :: Numeral.decimal r.toNat
  | .const c => 'c' :: Numeral.decimal c.toNat
  | .acc => ['a', 'c', 'c']

@[simp] theorem ofParts?_kind_index (s : Source) : ofParts? s.kind s.index = some s := by
  cases s <;> rfl

end Source

namespace Dest

def reg? : Dest → Option UInt16
  | .reg r => some r
  | .acc => none

def index : Dest → UInt16
  | .reg r => r
  | .acc => 0

def text : Dest → List Char
  | .reg r => 'r' :: Numeral.decimal r.toNat
  | .acc => ['a', 'c', 'c']

end Dest

end LaneScript
