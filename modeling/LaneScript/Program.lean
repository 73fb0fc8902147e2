/-
  LaneScript.Program — the instructions of a stream, numbered from 0, with the links
  that tie the steps of a fused group together.

  A node `feeds` the node that takes its result through the accumulator, and is
  `fedBy` the node whose result it takes. Links are plain numbers: nothing in the
  type says that they name a node, that the two directions agree or that they run
  forwards; `Program.Chain` checks all of that.
-/
import LaneScript.Stream

namespace LaneScript

structure Node where
  instr : Instruction
  /-- Bytes before it in the stream it was read from. -/
  offset : Nat
  /-- The node that takes its result; a negative number names none. -/
  feeds : Option Int := none
  /-- The node whose result it takes. -/
  fedBy : Option Nat := none
  deriving DecidableEq, Repr, Inhabited

namespace Node

/-- Whether the node is a step that hands its result on, and so is not emitted on its own. -/
def isFolded (n : Node) : Bool := n.feeds.isSome

/-- The node it feeds, if the link is a node number at all. -/
def target? (n : Node) : Option Nat := n.feeds.bind Int.toNat?

end Node

abbrev Program := Array Node

namespace Program

/-- Appends instructions that stand back to back from `offset` on, each feeding the next. -/
def pushSteps (p : Program) (offset : Nat) (fedBy : Option Nat) : List Instruction → Program
  | [] => p
  | i :: rest =>
    let node := p.size
    let feeds := if rest.isEmpty then none else some (node + 1 : Int)
    pushSteps (p.push ⟨i, offset, feeds, fedBy⟩) (offset + i.width) (some node) rest

/-- A group's steps begin after its two header bytes. -/
def pushItem (p : Program) (offset : Nat) : Stream.Item → Program
  | .plain i => p.pushSteps offset none [i]
  | .group steps => p.pushSteps (offset + 2) none steps

def ofItems (items : List Stream.Item) : Program :=
  (items.foldl (fun (p, offset) item => (pushItem p offset item, offset + item.width)) (#[], 0)).1

end Program

def Stream.Decoded.program (d : Stream.Decoded) : Program := Program.ofItems d.items

end LaneScript
