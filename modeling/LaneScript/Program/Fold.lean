/-
  LaneScript.Program.Fold — folding results into the nodes that read them.

  A computation whose one result has one live reader can hand it on through the
  accumulator, if the reader is a computation or an output's value and takes no
  other result that way. The node and everything already folded into it then move to
  the root of the reader's chain; that is only sound while no register they read is
  stored to in between. Nodes are visited from the last to the first, so of two
  results for one reader the nearer is folded, and visiting is repeated until a round
  folds nothing.
-/
import LaneScript.Program.Chain

namespace LaneScript.Program

inductive Verdict where
  | fold (reader pos : Nat)
  | unfit
  /-- A register that the moved nodes read is stored to before the root. -/
  | blockedByStore
  /-- The chain would have too many steps. -/
  | blockedByLength
  deriving DecidableEq, Repr

/-- The reader into which a node may be folded, and the position that reads it. -/
def foldTarget? (p : Program) (l : Liveness) (node : Nat) (n : Node) : Option (Nat × Nat) :=
  match n.instr.category, n.instr.dests, l.liveReaders node with
  | .compute, [.reg r], [(reader, pos)] =>
    match p[reader]? with
    | none => none
    | some m =>
      let free := m.instr.sources[pos]? == some (.reg r) && m.fedBy.isNone && !m.instr.readsAcc
      let fits := match m.instr.category with
        | .compute => true
        | .output => pos == 1
        | _ => false
      if !n.isFolded && l.isLive node && free && fits then some (reader, pos) else none
  | _, _, _ => none

/-- Whether a register that `node` reads is stored to between it and `root`. -/
def losesSource (p : Program) (l : Liveness) (root node : Nat) : Bool :=
  match p[node]? with
  | some n => n.instr.reads.any fun (_, r) => l.storedBetween p r node root
  | none => false

def verdict (p : Program) (l : Liveness) (limit node : Nat) : Verdict :=
  match p[node]? with
  | none => .unfit
  | some n =>
    match p.foldTarget? l node n with
    | none => .unfit
    | some (reader, pos) =>
      let root := p.root reader
      let moved := p.chain node
      let above := (p.chain root).dropWhile (· ≠ reader)
      if limit < moved.length + above.length then .blockedByLength
      else if moved.any (p.losesSource l root) then .blockedByStore
      else .fold reader pos

/-- Hands the result of `node` to source `pos` of `reader` through the accumulator. -/
def link (p : Program) (node reader pos : Nat) : Program :=
  let p := p.modify node fun n =>
    { n with feeds := some reader, instr := { n.instr with dests := n.instr.dests.set 0 .acc } }
  p.modify reader fun n =>
    { n with fedBy := some node, instr := { n.instr with sources := n.instr.sources.set pos .acc } }

structure FoldStats where
  folded : Nat := 0
  rounds : Nat := 0
  blockedByStore : Nat := 0
  blockedByLength : Nat := 0
  deriving DecidableEq, Repr, Inhabited

/-- A program on the way, with the folds made, newest first. -/
structure Folding where
  program : Program
  stats : FoldStats := {}
  folds : List (Nat × Nat) := []
  deriving Inhabited

def Folding.visit (l : Liveness) (limit : Nat) (f : Folding) (node : Nat) : Folding :=
  match f.program.verdict l limit node with
  | .fold reader pos =>
    ⟨f.program.link node reader pos, { f.stats with folded := f.stats.folded + 1 }, (node, reader) :: f.folds⟩
  | .unfit => f
  | .blockedByStore => { f with stats := { f.stats with blockedByStore := f.stats.blockedByStore + 1 } }
  | .blockedByLength => { f with stats := { f.stats with blockedByLength := f.stats.blockedByLength + 1 } }

def Folding.round (l : Liveness) (limit : Nat) (f : Folding) : Folding :=
  let f := { f with stats := { f.stats with rounds := f.stats.rounds + 1 } }
  (List.range f.program.size).reverse.foldl (Folding.visit l limit) f

/-- Rounds until one folds nothing; each fold leaves one node fewer to fold. -/
def Folding.run (l : Liveness) (limit : Nat) : (rounds : Nat) → Folding → Folding
  | 0, f => f
  | rounds + 1, f =>
    let g := f.round l limit
    if g.stats.folded = f.stats.folded then g else run l limit rounds g

def fold (p : Program) (l : Liveness) (limit : Nat) (stats : FoldStats) : Folding :=
  Folding.run l limit (p.size + 1) ⟨p, stats, []⟩

end LaneScript.Program
