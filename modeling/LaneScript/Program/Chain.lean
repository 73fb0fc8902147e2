/-
  LaneScript.Program.Chain — following links from step to step.

  The nodes that feed one another form chains; the root of a chain feeds nothing and
  is where the whole chain is emitted. A walk visits at most as many nodes as there
  are, so it ends even if the links run in a circle, and it ends at a link that
  leaves the program, with the number it found there.
-/
import LaneScript.Program.Liveness

namespace LaneScript.Program

/-- The nodes from `node` back along the links, deepest first, in front of `after`. -/
def backFrom (p : Program) : (rounds node : Nat) → (after : List Nat) → List Nat
  | 0, _, after => after
  | rounds + 1, node, after =>
    match p[node]? with
    | some n =>
      match n.fedBy with
      | some previous => backFrom p rounds previous (node :: after)
      | none => node :: after
    | none => node :: after

def chain (p : Program) (root : Nat) : List Nat := p.backFrom (p.size + 1) root []

def rootFrom (p : Program) : (rounds node : Nat) → Nat
  | 0, node => node
  | rounds + 1, node =>
    match p[node]? with
    | some n =>
      match n.target? with
      | some next => rootFrom p rounds next
      | none => node
    | none => node

/-- The node at which `node` is emitted. -/
def root (p : Program) (node : Nat) : Nat := p.rootFrom (p.size + 1) node

def liveRoots (p : Program) (l : Liveness) : List Nat :=
  (List.range p.size).filter fun node => l.isLive node && !(p[node]?.any Node.isFolded)

def chains (p : Program) (l : Liveness) : List (List Nat) := (p.liveRoots l).map p.chain

def emissionOrder (p : Program) (l : Liveness) : List Nat := (p.chains l).flatten

/-! ## Checking the links -/

inductive LinkError where
  /-- A live node reads the register of a node that no longer stores to it. -/
  | foldedRead (node producer : Nat)
  /-- A link leads nowhere, backwards or to a node that does not link back, or a chain is too long. -/
  | broken
  deriving DecidableEq, Repr

def LinkError.fault : LinkError → Fault
  | .foldedRead .. => .fatal .instructions
  | .broken => .fatal .instructionReorder

/-- The first register source of a node whose producer hands its result on. -/
def foldedRead? (p : Program) (l : Liveness) (node : Nat) (i : Instruction) : Option Nat :=
  let producers := l.flow.producers.getD node []
  i.reads.findSome? fun (pos, _) =>
    match producers[pos]? with
    | some (some w) => if p[w]?.any Node.isFolded then some w else none
    | _ => none

def forwardOk (p : Program) (l : Liveness) (node : Nat) (n : Node) : Bool :=
  match n.target? with
  | none => true
  | some next =>
    match p[next]? with
    | none => false
    | some m => node < next && l.isLive next && m.fedBy == some node

def backwardOk (p : Program) (node : Nat) (n : Node) : Bool :=
  match n.fedBy with
  | none => true
  | some previous =>
    match p[previous]? with
    | none => false
    | some m => m.feeds == some (node : Int)

/-- Whether the chain that ends here fits a count byte. -/
def lengthOk (p : Program) (node : Nat) (n : Node) : Bool := n.isFolded || (p.chain node).length ≤ 255

def checkNode (p : Program) (l : Liveness) (node : Nat) (n : Node) : Except LinkError Unit :=
  match p.foldedRead? l node n.instr with
  | some w => .error (.foldedRead node w)
  | none =>
    if p.forwardOk l node n && p.backwardOk node n && p.lengthOk node n then .ok () else .error .broken

def checkLinks (p : Program) (l : Liveness) : Except LinkError Unit :=
  p.toList.zipIdx.forM fun (n, node) => if l.isLive node then p.checkNode l node n else .ok ()

end LaneScript.Program
