/-
  LaneScript.Settings.Document.Number — the numbers of a document.

  An integer is decimal, or hexadecimal, octal or binary behind a mark of its base, and
  fits 64 bits with its sign. A real has a point, an exponent or both. Single
  underscores may stand between digits.
-/
import LaneScript.Text.Numeral

namespace LaneScript.Document

def hexValue? (c : Char) : Option Nat :=
  if '0' ≤ c ∧ c ≤ '9' then some (c.toNat - '0'.toNat)
  else if 'a' ≤ c ∧ c ≤ 'f' then some (c.toNat - 'a'.toNat + 10)
  else if 'A' ≤ c ∧ c ≤ 'F' then some (c.toNat - 'A'.toNat + 10)
  else none

/-- Digits with single underscores between them, the underscores dropped. -/
def digits? (isDigit : Char → Bool) : List Char → Option (List Char)
  | [] => none
  | [c] => if isDigit c then some [c] else none
  | c :: '_' :: d :: rest => if isDigit c then (digits? isDigit (d :: rest)).map (c :: ·) else none
  | c :: d :: rest => if isDigit c then (digits? isDigit (d :: rest)).map (c :: ·) else none

/-- Decimal digits without a zero in front of others. -/
def whole? (cs : List Char) : Option (List Char) := do
  let ds ← digits? Numeral.isDigit cs
  match ds with
  | '0' :: _ :: _ => none
  | ds => some ds

def splitSign : List Char → Bool × List Char
  | '+' :: rest => (false, rest)
  | '-' :: rest => (true, rest)
  | cs => (false, cs)

def signed (negative : Bool) (n : Nat) : Int := if negative then -(n : Int) else n

/-! ## Integers -/

def radix? (base : Nat) (cs : List Char) : Option Int := do
  let ds ← digits? (fun c => (hexValue? c).any (· < base)) cs
  let n ← ds.foldlM (fun n c => (hexValue? c).map (n * base + ·)) 0
  some n

def integer? (cs : List Char) : Option Int := do
  let n ←
    match cs with
    | '0' :: 'x' :: rest => radix? 16 rest
    | '0' :: 'o' :: rest => radix? 8 rest
    | '0' :: 'b' :: rest => radix? 2 rest
    | cs =>
      let (negative, rest) := splitSign cs
      (whole? rest).map fun ds => signed negative (Numeral.value ds)
  if -9223372036854775808 ≤ n ∧ n ≤ 9223372036854775807 then some n else none

/-! ## Reals -/

/-- The number that `digits` spell, times `10 ^ exponent`. -/
structure Decimal where
  negative : Bool
  digits : List Char
  exponent : Int
  deriving DecidableEq, Repr

def exponent? (cs : List Char) : Option Int :=
  let (negative, rest) := splitSign cs
  (digits? Numeral.isDigit rest).map fun ds => signed negative (Numeral.value ds)

def decimal? (cs : List Char) : Option Decimal := do
  let (negative, cs) := splitSign cs
  let before := cs.takeWhile fun c => c != '.' && c != 'e' && c != 'E'
  let ds ← whole? before
  match cs.drop before.length with
  | [] => none
  | '.' :: rest =>
    let behind := rest.takeWhile fun c => c != 'e' && c != 'E'
    let part ← digits? Numeral.isDigit behind
    let exponent ←
      match rest.drop behind.length with
      | [] => some 0
      | _ :: rest => exponent? rest
    some ⟨negative, ds ++ part, exponent - part.length⟩
  | _ :: rest => do some ⟨negative, ds, ← exponent? rest⟩

/-- The least size that rounds to none of the finite numbers of 64 bits: half a step above the largest. -/
def realLimit : Nat := Nat.pow 2 1024 - Nat.pow 2 970

/-- Whether a size is no less than the limit, which has 309 digits: only a number of as many is compared. -/
def Decimal.isHuge (d : Decimal) : Bool :=
  let ds := d.digits.dropWhile (· == '0')
  let places : Int := ds.length + d.exponent
  !ds.isEmpty && (309 < places ||
    (places == 309 && realLimit * Nat.pow 10 (ds.length - 309) ≤ Numeral.value ds * Nat.pow 10 (309 - ds.length)))

/-- Words for what is no number are reals too. A number above all finite ones is none; one below them stands. -/
def isReal (cs : List Char) : Bool :=
  let (_, name) := splitSign cs
  name == ['i', 'n', 'f'] || name == ['n', 'a', 'n'] || (decimal? cs).any fun d => d.negative || !d.isHuge

end LaneScript.Document
