/-
  LaneScript.Numbering — dense new numbers in order of first use.

  The first key gets 0, each further one the next number; a key keeps its number. A
  number is a word, so a table holds 65536 keys at most and a full one takes no more.
-/
import Std.Data.TreeMap

namespace LaneScript

structure Numbering where
  /-- The keys in the order of their numbers. -/
  keys : Array Nat := #[]
  numbers : Std.TreeMap Nat UInt16 := ∅
  deriving Inhabited

namespace Numbering

def capacity : Nat := 65536

def size (n : Numbering) : Nat := n.keys.size

def isEmpty (n : Numbering) : Bool := n.keys.isEmpty

def get? (n : Numbering) (key : Nat) : Option UInt16 := n.numbers[key]?

def key? (n : Numbering) (number : UInt16) : Option Nat := n.keys[number.toNat]?

/-- Gives a key a number unless it has one; a full table stays as it is. -/
def add (n : Numbering) (key : Nat) : Numbering :=
  let ⟨keys, numbers⟩ := n
  let next := keys.size
  if numbers.contains key ∨ capacity ≤ next then ⟨keys, numbers⟩
  else ⟨keys.push key, numbers.insert key (UInt16.ofNat next)⟩

/-- The number of a key, given one if need be; `none` if the table is full. -/
def number? (n : Numbering) (key : Nat) : Option (UInt16 × Numbering) :=
  let n := n.add key
  (n.get? key).map (·, n)

/-- A table with the given keys in this order; `none` if they are too many. -/
def ofKeys? (keys : List Nat) : Option Numbering :=
  keys.foldlM (fun n key => (n.number? key).map (·.2)) {}

def pairs (n : Numbering) : List (Nat × Nat) := n.keys.toList.zipIdx

def isIdentity (n : Numbering) : Bool := n.pairs.all fun (key, number) => key == number

end Numbering

end LaneScript
