/-
  LaneScript.Workbench — the passes one at a time.

  A bench holds a program, what is known of it and the running counts of a pruner and
  a folder. Links and operands can be set by hand, which the analysis does not follow;
  an action then may come upon a link that leaves the program, and answers `stray`.
-/
import LaneScript.Program.Fold

namespace LaneScript

structure PruneStats where
  removed : Nat := 0
  redirected : Nat := 0
  widest : Nat := 0
  deriving DecidableEq, Repr, Inhabited

def PruneStats.add (s : PruneStats) (p : Liveness.Pruned) : PruneStats :=
  ⟨s.removed + p.removed.length, s.redirected + p.redirected, max s.widest p.widest⟩

/-- Dropping anything is worth mentioning. -/
def PruneStats.flags (s : PruneStats) : Fault := if s.removed = 0 then .clear else .redundantInstruction

structure Workbench where
  program : Program
  live : Liveness
  pruned : PruneStats := {}
  groupLimit : Nat := 16
  folded : Program.FoldStats := {}
  deriving Inhabited

namespace Workbench

/-- A link that leaves the program. -/
inductive Stray where
  | stray
  deriving DecidableEq, Repr

def ofProgram (p : Program) : Except Flow.UnwrittenRead Workbench := do
  let flow ← Flow.ofProgram p
  .ok { program := p, live := Liveness.ofFlow flow p }

/-- Finds the flow again; marks are forgotten. -/
def analyze (b : Workbench) : Except Flow.UnwrittenRead Workbench := do
  let flow ← Flow.ofProgram b.program
  .ok { b with live := Liveness.ofFlow flow b.program }

def feedsStray (p : Program) : Bool :=
  p.any fun n => n.instr.isPure && n.target?.any (p.size ≤ ·)

def prune (b : Workbench) (stats : PruneStats) : Except Stray (Workbench × PruneStats) :=
  if feedsStray b.program then .error .stray
  else
    let (live, pruned) := b.live.prune b.program
    .ok ({ b with live }, stats.add pruned)

def pruneOn (b : Workbench) : Except Stray (Workbench × PruneStats) := do
  let (b, stats) ← b.prune b.pruned
  .ok ({ b with pruned := stats }, stats)

def withLimit (b : Workbench) (limit : Nat) : Workbench := { b with groupLimit := limit, folded := {} }

/-- Whether the chains that decide on folding a node stay in the program. -/
def foldStays (p : Program) (l : Liveness) (node : Nat) : Bool :=
  match p[node]? with
  | none => true
  | some n =>
    match p.foldTarget? l node n with
    | none => true
    | some (reader, _) =>
      let root := p.root reader
      root < p.size && (p.chain node).all (· < p.size) && (p.chain root).all (· < p.size)

/-- Visits a node, unless deciding on it would leave the program. -/
def visit (l : Liveness) (limit : Nat) (f : Program.Folding) (node : Nat) : Except Stray Program.Folding :=
  if foldStays f.program l node then .ok (f.visit l limit node) else .error .stray

def round (l : Liveness) (limit : Nat) (f : Program.Folding) : Except Stray Program.Folding :=
  (List.range f.program.size).reverse.foldlM (visit l limit)
    { f with stats := { f.stats with rounds := f.stats.rounds + 1 } }

def rounds (l : Liveness) (limit : Nat) : (count : Nat) → Program.Folding → Except Stray Program.Folding
  | 0, f => .ok f
  | count + 1, f => do
    let g ← round l limit f
    if g.stats.folded = f.stats.folded then .ok g else rounds l limit count g

def fold (b : Workbench) : Except Stray Workbench := do
  let f ← rounds b.live b.groupLimit (b.program.size + 1) ⟨b.program, b.folded, []⟩
  .ok { b with program := f.program, folded := f.stats }

/-- What is wrong with the links of a node, if anything; its chain is walked last. -/
def linkTrouble? (b : Workbench) (node : Nat) (n : Node) : Option (Except Stray Program.LinkError) :=
  if !b.live.isLive node then none
  else
    match b.program.foldedRead? b.live node n.instr with
    | some w => some (.ok (.foldedRead node w))
    | none =>
      if !(b.program.forwardOk b.live node n && b.program.backwardOk node n) then some (.ok .broken)
      else if !n.isFolded && (b.program.chain node).any (b.program.size ≤ ·) then some (.error .stray)
      else if !b.program.lengthOk node n then some (.ok .broken)
      else none

def checkLinks (b : Workbench) : Except Stray (Option Program.LinkError) :=
  let first : Option (Except Stray Program.LinkError) :=
    b.program.toList.zipIdx.findSome? fun (n, node) => b.linkTrouble? node n
  match first with
  | none => .ok none
  | some (.ok e) => .ok (some e)
  | some (.error e) => .error e

def within (b : Workbench) (nodes : List Nat) : Except Stray (List Nat) :=
  if nodes.all (· < b.program.size) then .ok nodes else .error .stray

def order (b : Workbench) : Except Stray (List Nat) := b.within (b.program.emissionOrder b.live)

def roots (b : Workbench) : Except Stray (List Nat) :=
  b.within ((List.range b.program.size).map b.program.root)

def members (b : Workbench) (root : Nat) : Except Stray (List Nat) := b.within (b.program.chain root)

def liveReaders (b : Workbench) (node : Nat) : Except Stray (List (Nat × Nat)) :=
  if node < b.program.size then .ok (b.live.liveReaders node) else .error .stray

def isUnread (b : Workbench) (node pos : Nat) : Except Stray Bool :=
  if node < b.program.size then .ok (b.live.isUnread node pos) else .error .stray

def stores (b : Workbench) (node : Nat) (r : UInt16) : Except Stray Bool :=
  if node < b.program.size then .ok (b.live.stores b.program r node) else .error .stray

def storedBetween (b : Workbench) (r : UInt16) (after before : Nat) : Bool :=
  b.live.storedBetween b.program r after before

/-! ## Changes by hand -/

def setDead (b : Workbench) (node : Nat) (dead : Bool) : Except Stray Workbench :=
  if node < b.program.size then .ok { b with live := { b.live with dead := b.live.dead.setIfInBounds node dead } }
  else .error .stray

def change (b : Workbench) (node : Nat) (f : Node → Option Node) : Except Stray Workbench :=
  match b.program[node]? with
  | none => .error .stray
  | some n =>
    match f n with
    | none => .error .stray
    | some n => .ok { b with program := b.program.setIfInBounds node n }

def setFeeds (b : Workbench) (node : Nat) (feeds : Option Int) : Except Stray Workbench :=
  b.change node fun n => some { n with feeds }

def setFedBy (b : Workbench) (node : Nat) (fedBy : Option Nat) : Except Stray Workbench :=
  b.change node fun n => some { n with fedBy }

def setSource (b : Workbench) (node pos : Nat) (s : Source) : Except Stray Workbench :=
  b.change node fun n =>
    if pos < n.instr.sources.length then
      some { n with instr := { n.instr with sources := n.instr.sources.set pos s } }
    else none

def setDest (b : Workbench) (node pos : Nat) (d : Dest) : Except Stray Workbench :=
  b.change node fun n =>
    if pos < n.instr.dests.length then some { n with instr := { n.instr with dests := n.instr.dests.set pos d } }
    else none

/-- Links every node from `first` up to `last` to the next. -/
def linkRun (b : Workbench) (first last : Nat) : Except Stray Workbench :=
  (List.range' first (last - first)).foldlM (fun b node => do
    let b ← b.setFeeds node (some (node + 1 : Int))
    b.setFedBy (node + 1) (some node)) b

end Workbench

end LaneScript
