/-
  LaneScript.Image.View — a section of a packed image as a list of values.

  A value takes a fixed number of bytes, low byte first. Indexing is the arithmetic
  of 64-bit words: a product that does not fit gives nothing, and neither does a
  range whose end wrapped around.
-/
import LaneScript.Image

namespace LaneScript

class Stored (α : Type) where
  width : Nat
  read : Bytes → α

instance : Stored UInt8 := ⟨1, fun bytes => bytes.headD 0⟩

instance : Stored UInt16 := ⟨2, fun bytes => UInt16.ofNat (Bytes.ofLe bytes)⟩

instance : Stored ExternalFn where
  width := 16
  read bytes := {
    slot := UInt64.ofNat (Bytes.ofLe (bytes.take 8))
    sources := UInt16.ofNat (Bytes.ofLe ((bytes.drop 8).take 2))
    dests := UInt16.ofNat (Bytes.ofLe ((bytes.drop 10).take 2))
    registers := UInt32.ofNat (Bytes.ofLe ((bytes.drop 12).take 4)) }

structure View (α : Type) where
  bytes : Bytes
  deriving DecidableEq, Repr

namespace View

variable {α : Type} [Stored α]

def size (v : View α) : Nat := v.bytes.length / Stored.width α

def isEmpty (v : View α) : Bool := v.bytes.isEmpty

/-- The first `count` values, in front of which stand `before`, newest first. -/
def readFrom : (count : Nat) → Bytes → (before : List α) → List α
  | 0, _, before => before.reverse
  | count + 1, bytes, before =>
    readFrom count (bytes.drop (Stored.width α)) (Stored.read (bytes.take (Stored.width α)) :: before)

def toList (v : View α) : List α := readFrom v.size v.bytes []

def get? (v : View α) (index : UInt64) : Option α :=
  let start := index.toNat * Stored.width α
  if UInt64.size ≤ start then none
  else
    let stop := (start + Stored.width α) % UInt64.size
    if start ≤ stop ∧ stop ≤ v.bytes.length then some (Stored.read ((v.bytes.drop start).take (stop - start)))
    else none

end View

end LaneScript
