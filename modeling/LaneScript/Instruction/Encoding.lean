/-
  LaneScript.Instruction.Encoding — the bytes of one instruction, and reading them back.

  The opcode's byte comes first, the rest follows its category. Sources of a
  computation, an output or an index generator share one byte of kinds, two bits
  each, with the kind of a computation's destination in the top two; a call gives
  each source a kind byte of its own. `body?` reads what follows the opcode and
  refuses an accumulator operand outside a fused group.
-/
import LaneScript.Bytes
import LaneScript.Instruction

namespace LaneScript.Instruction

/-! ## Writing -/

/-- The kinds of the first three sources, lowest bits first, and whether the destination is the accumulator. -/
def kinds (sources : List Source) (dest : Option Dest) : UInt8 :=
  let kindOf (pos : Nat) := (sources[pos]?.map Source.kind).getD 0
  let top := if dest = some .acc then 2 else 0
  UInt8.ofNat (kindOf 0 + 4 * kindOf 1 + 16 * kindOf 2 + 64 * top)

def sourceWords (sources : List Source) : Bytes := sources.flatMap fun s => Bytes.word s.index

def destWords (dests : List Dest) : Bytes := dests.flatMap fun d => Bytes.word d.index

def firstDestWord (dests : List Dest) : Bytes := Bytes.word ((dests.head?.map Dest.index).getD 0)

def encodeBody (i : Instruction) : Bytes :=
  let (dataset, field) := i.address
  match i.opcode with
  | .compute _ => kinds i.sources i.dests.head? :: sourceWords i.sources ++ destWords i.dests
  | .input .. => Bytes.word dataset ++ Bytes.word field ++ firstDestWord i.dests
  | .output _ => kinds i.sources none :: Bytes.word dataset ++ sourceWords i.sources ++ Bytes.word field
  | .acquireIndex =>
    kinds i.sources none :: Bytes.word dataset ++ Bytes.word ((i.sources.head?.map Source.index).getD 0) ++
      firstDestWord i.dests
  | .updateId => Bytes.word dataset ++ sourceWords i.sources
  | .acquireId => Bytes.word dataset ++ destWords i.dests
  | .call =>
    Bytes.word i.function ++ UInt8.ofNat i.sources.length :: UInt8.ofNat i.dests.length ::
      i.sources.flatMap (fun s => UInt8.ofNat s.kind :: Bytes.word s.index) ++ destWords i.dests
  | .enterScope | .exitScope =>
    match i.payload with
    | .scope id => Bytes.word id
    | _ => []
  | .execIndex => firstDestWord i.dests
  | .done | .nop | .fused => []

def encode (i : Instruction) : Bytes := i.opcode.byte :: i.encodeBody

def width (i : Instruction) : Nat :=
  match i.opcode with
  | .compute _ => 2 + 2 * i.sources.length + 2 * i.dests.length
  | .input .. => 7
  | .output _ => 6 + 2 * i.sources.length
  | .acquireIndex => 8
  | .updateId => 3 + 2 * i.sources.length
  | .acquireId => 3 + 2 * i.dests.length
  | .call => 5 + 3 * i.sources.length + 2 * i.dests.length
  | .enterScope | .exitScope =>
    match i.payload with
    | .scope _ => 3
    | _ => 1
  | .execIndex => 3
  | .done | .nop | .fused => 1

/-! ## Reading -/

def kindAt (kinds : UInt8) (pos : Nat) : Nat := (kinds.toNat >>> (2 * pos)) % 4

/-- A source of the given kind; the accumulator only where `chained` allows it. -/
def source? (chained : Bool) (kind : Nat) (bytes : Bytes) : Option (Source × Bytes) := do
  let (index, rest) ← Bytes.word? bytes
  let s ← Source.ofParts? kind index
  if s = .acc ∧ !chained then none else some (s, rest)

def sources? (chained : Bool) : (kinds : List Nat) → Bytes → Option (List Source × Bytes)
  | [], bytes => some ([], bytes)
  | kind :: kinds, bytes => do
    let (s, rest) ← source? chained kind bytes
    let (more, rest) ← sources? chained kinds rest
    some (s :: more, rest)

/-- Sources that each bring their own kind byte. -/
def callSources? : (count : Nat) → Bytes → Option (List Source × Bytes)
  | 0, bytes => some ([], bytes)
  | count + 1, bytes => do
    let (kind, rest) ← Bytes.byte? bytes
    let (s, rest) ← source? false kind.toNat rest
    let (more, rest) ← callSources? count rest
    some (s :: more, rest)

def dests? : (count : Nat) → Bytes → Option (List Dest × Bytes)
  | 0, bytes => some ([], bytes)
  | count + 1, bytes => do
    let (r, rest) ← Bytes.word? bytes
    let (more, rest) ← dests? count rest
    some (.reg r :: more, rest)

/-- The destination of a computation, from the top two bits of its kinds. -/
def computeDest? (chained : Bool) (kind : Nat) (index : UInt16) : Option Dest :=
  match kind with
  | 0 => some (.reg index)
  | 2 => if chained then some .acc else none
  | _ => none

/-- Reads what follows an opcode's byte; `chained` allows accumulator operands. -/
def body? (opcode : Opcode) (chained : Bool) (bytes : Bytes) : Option (Instruction × Bytes) :=
  match opcode with
  | .compute f => do
    let (k, rest) ← Bytes.byte? bytes
    let (sources, rest) ← sources? chained ((List.range f.arity).map (kindAt k)) rest
    let (index, rest) ← Bytes.word? rest
    let dest ← computeDest? chained (kindAt k 3) index
    some (⟨opcode, .none, sources, [dest]⟩, rest)
  | .input .. => do
    let (dataset, rest) ← Bytes.word? bytes
    let (field, rest) ← Bytes.word? rest
    let (dests, rest) ← dests? 1 rest
    some (⟨opcode, .field dataset field, [], dests⟩, rest)
  | .output _ => do
    let (k, rest) ← Bytes.byte? bytes
    let (dataset, rest) ← Bytes.word? rest
    if kindAt k 0 ≠ 0 ∨ kindAt k 2 ≠ 0 ∨ kindAt k 3 ≠ 0 then none
    let (sources, rest) ← sources? chained [0, kindAt k 1] rest
    let (field, rest) ← Bytes.word? rest
    some (⟨opcode, .field dataset field, sources, []⟩, rest)
  | .acquireIndex => do
    let (k, rest) ← Bytes.byte? bytes
    if 4 ≤ k.toNat then none
    let (dataset, rest) ← Bytes.word? rest
    let (sources, rest) ← sources? false [kindAt k 0] rest
    let (dests, rest) ← dests? 1 rest
    some (⟨opcode, .field dataset 0, sources, dests⟩, rest)
  | .updateId => do
    let (dataset, rest) ← Bytes.word? bytes
    let (sources, rest) ← sources? false [0, 0] rest
    some (⟨opcode, .field dataset 0, sources, []⟩, rest)
  | .acquireId => do
    let (dataset, rest) ← Bytes.word? bytes
    let (dests, rest) ← dests? 2 rest
    some (⟨opcode, .field dataset 0, [], dests⟩, rest)
  | .call => do
    let (function, rest) ← Bytes.word? bytes
    let (sourceCount, rest) ← Bytes.byte? rest
    let (destCount, rest) ← Bytes.byte? rest
    let (sources, rest) ← callSources? sourceCount.toNat rest
    let (dests, rest) ← dests? destCount.toNat rest
    some (⟨opcode, .call function, sources, dests⟩, rest)
  | .enterScope => do
    let (id, rest) ← Bytes.word? bytes
    some (⟨opcode, .scope id, [], []⟩, rest)
  | .execIndex => do
    let (dests, rest) ← dests? 1 bytes
    some (⟨opcode, .none, [], dests⟩, rest)
  | .done | .nop | .fused | .exitScope => some (⟨opcode, .none, [], []⟩, bytes)

theorem length_sourceWords (sources : List Source) : (sourceWords sources).length = 2 * sources.length := by
  induction sources with
  | nil => rfl
  | cons s rest ih => simp only [sourceWords, List.flatMap_cons, List.length_append] at ih ⊢; simp [ih]; omega

theorem length_destWords (dests : List Dest) : (destWords dests).length = 2 * dests.length := by
  induction dests with
  | nil => rfl
  | cons d rest ih => simp only [destWords, List.flatMap_cons, List.length_append] at ih ⊢; simp [ih]; omega

end LaneScript.Instruction
