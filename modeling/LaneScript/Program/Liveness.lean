/-
  LaneScript.Program.Liveness — which nodes and results still matter.

  `dead` marks nodes that are dropped, `unread` lists for each node the destinations
  whose value nobody takes. `prune` finds both: going backwards, a pure node is dead
  when no live node reads it and it feeds no live node; a call is never dead, so its
  results that no live node reads are redirected to throw-away registers.

  `storedBetween` asks whether a register keeps its value over a stretch of the
  program, by looking only at the nodes that store to it.
-/
import LaneScript.Program.Flow

namespace LaneScript

structure Liveness where
  flow : Flow
  dead : Array Bool
  /-- For each node, the destination positions that nobody reads. -/
  unread : Array (List Nat)
  deriving Inhabited

namespace Liveness

/-- Everything is taken for live at first. -/
def ofFlow (flow : Flow) (p : Program) : Liveness :=
  ⟨flow, Array.replicate p.size false, Array.replicate p.size []⟩

def isLive (l : Liveness) (node : Nat) : Bool := !l.dead.getD node false

def isUnread (l : Liveness) (node pos : Nat) : Bool := (l.unread.getD node []).contains pos

def liveReaders (l : Liveness) (node : Nat) : List (Nat × Nat) :=
  ((l.flow.readers.getD node #[]).filter fun use => l.isLive use.1).toList

/-! ## Stores -/

def stores (l : Liveness) (p : Program) (r : UInt16) (node : Nat) : Bool :=
  l.isLive node &&
    match p[node]? with
    | some n => n.instr.dests.zipIdx.any fun (d, pos) => d == .reg r && !l.isUnread node pos
    | none => false

/-- How many entries of an increasing list are at most `bound`; the answer lies between `lo` and `lo + span`. -/
def countUpTo (xs : Array Nat) (bound : Nat) : (rounds lo span : Nat) → Nat
  | 0, lo, _ => lo
  | rounds + 1, lo, span =>
    if span = 0 then lo
    else
      let half := span / 2
      if xs.getD (lo + half) 0 ≤ bound then countUpTo xs bound rounds (lo + half + 1) (span - half - 1)
      else countUpTo xs bound rounds lo half

/-- Whether one of the next `count` writers from `pos` on stands before `before` and stores to `r`. -/
def storedFrom (l : Liveness) (p : Program) (r : UInt16) (ws : Array Nat) (before : Nat) :
    (count pos : Nat) → Bool
  | 0, _ => false
  | count + 1, pos =>
    match ws[pos]? with
    | none => false
    | some w => w < before && (l.stores p r w || storedFrom l p r ws before count (pos + 1))

/-- Whether a live node strictly between `after` and `before` stores to `r`. -/
def storedBetween (l : Liveness) (p : Program) (r : UInt16) (after before : Nat) : Bool :=
  match l.flow.writers[r]? with
  | none => false
  | some ws => l.storedFrom p r ws before ws.size (countUpTo ws after ws.size 0 ws.size)

/-! ## Pruning -/

/-- A pure node that no live node reads and that feeds no live node. -/
def isUseless (l : Liveness) (p : Program) (node : Nat) : Bool :=
  match p[node]? with
  | none => false
  | some n =>
    n.instr.isPure && !(l.flow.readers.getD node #[]).any (fun use => l.isLive use.1) &&
      !(n.target?.any l.isLive)

def kill (l : Liveness) (node : Nat) : Liveness := { l with dead := l.dead.setIfInBounds node true }

def visit (p : Program) : Liveness × List Nat → Nat → Liveness × List Nat
  | (l, removed), node => if l.isUseless p node then (l.kill node, node :: removed) else (l, removed)

/-- Visits nodes in the given order and marks the useless ones, newest mark first. -/
def sweep (p : Program) (l : Liveness) (nodes : List Nat) : Liveness × List Nat := nodes.foldl (visit p) (l, [])

/-- Whether source `pos` of `node` is register `r` now. -/
def readsRegister (p : Program) (r : UInt16) (node pos : Nat) : Bool :=
  match p[node]? with
  | some n => n.instr.sources[pos]? == some (.reg r)
  | none => false

/-- The register destinations of a node that no live source reads from it. -/
def unreadDests (l : Liveness) (p : Program) (node : Nat) (i : Instruction) : List Nat :=
  let uses := l.liveReaders node
  i.dests.zipIdx.filterMap fun (d, pos) =>
    match d with
    | .reg r => if uses.any fun use => readsRegister p r use.1 use.2 then none else some pos
    | .acc => none

structure Pruned where
  /-- The nodes marked dead, in the order of the program. -/
  removed : List Nat
  /-- How many call results were redirected. -/
  redirected : Nat
  /-- The most results that one call had redirected. -/
  widest : Nat
  deriving DecidableEq, Repr, Inhabited

def redirect (p : Program) (acc : Liveness × Nat × Nat) (node : Nat) : Liveness × Nat × Nat :=
  let (l, redirected, widest) := acc
  match p[node]? with
  | none => acc
  | some n =>
    if n.instr.category = .call then
      let found := l.unreadDests p node n.instr
      ({ l with unread := l.unread.modify node (· ++ found) }, redirected + found.length, max widest found.length)
    else acc

def prune (p : Program) (l : Liveness) : Liveness × Pruned :=
  let (l, removed) := l.sweep p (List.range p.size).reverse
  let (l, redirected, widest) := (List.range p.size).foldl (redirect p) (l, 0, 0)
  (l, ⟨removed, redirected, widest⟩)

end Liveness

end LaneScript
