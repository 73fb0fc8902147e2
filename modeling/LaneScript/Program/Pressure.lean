/-
  LaneScript.Program.Pressure — how many registers hold a value at once.

  A stored value is in flight from the position of the node that stores it to that
  of its last live reader, both included. `inFlight` counts one up where a value
  begins and one down behind its end, and takes the largest running sum.
-/
import LaneScript.Program.Chain

namespace LaneScript.Program

/-- The position of each node in an order; 0 for nodes outside it. -/
def positions (size : Nat) (order : List Nat) : Array Nat :=
  order.zipIdx.foldl (fun place (node, pos) => place.setIfInBounds node pos) (Array.replicate size 0)

def flights (p : Program) (l : Liveness) (place : Array Nat) (node : Nat) : List (Nat × Nat) :=
  match p[node]? with
  | none => []
  | some n =>
    let start := place.getD node 0
    let uses := l.liveReaders node
    n.instr.dests.zipIdx.filterMap fun (d, pos) =>
      match d with
      | .reg r =>
        if l.isUnread node pos then none
        else
          let ends := (uses.filter fun use => Liveness.readsRegister p r use.1 use.2).map fun use => place.getD use.1 0
          some (start, ends.foldl max start)
      | .acc => none

/-- One up at the beginning of each stretch, one down behind its end. -/
def deltas (length : Nat) (stretches : List (Nat × Nat)) : Array Int :=
  stretches.foldl (fun d (start, stop) => (d.modify start (· + 1)).modify (stop + 1) (· - 1))
    (Array.replicate (length + 1) 0)

/-- The largest of 0 and the running sums. -/
def peak (deltas : List Int) : Int :=
  (deltas.foldl (fun (current, best) d => (current + d, max best (current + d))) (0, 0)).2

def inFlight (p : Program) (l : Liveness) (order : List Nat) : Nat :=
  let place := positions p.size order
  (peak (deltas order.length (order.flatMap (p.flights l place))).toList).toNat

end LaneScript.Program
