/-
  LaneScript.Bytes — byte strings and the numbers written in them.

  Instruction streams write words high byte first (`word`, `word?`); packed
  images write every count low byte first (`le`, `ofLe`). A reader takes what it
  needs from the front and hands back the rest, so `none` means the bytes ran out.
-/

namespace LaneScript

abbrev Bytes := List UInt8

namespace Bytes

/-- The two bytes of a word, high byte first. -/
def word (w : UInt16) : Bytes := [UInt8.ofNat (w.toNat / 256), UInt8.ofNat (w.toNat % 256)]

def byte? : Bytes → Option (UInt8 × Bytes)
  | b :: rest => some (b, rest)
  | [] => none

def word? : Bytes → Option (UInt16 × Bytes)
  | hi :: lo :: rest => some (UInt16.ofNat (hi.toNat * 256 + lo.toNat), rest)
  | _ => none

/-- The number `n` in `width` bytes, low byte first; what does not fit is dropped. -/
def le : (width n : Nat) → Bytes
  | 0, _ => []
  | width + 1, n => UInt8.ofNat (n % 256) :: le width (n / 256)

def ofLe : Bytes → Nat
  | [] => 0
  | b :: rest => b.toNat + 256 * ofLe rest

/-- The first `n` bytes, followed by zeros where there are fewer. -/
def fit (n : Nat) (bytes : Bytes) : Bytes :=
  let kept := bytes.take n
  kept ++ List.replicate (n - kept.length) 0

@[simp] theorem length_word (w : UInt16) : (word w).length = 2 := rfl

@[simp] theorem length_le (width n : Nat) : (le width n).length = width := by
  induction width generalizing n with
  | zero => rfl
  | succ width ih => simp [le, ih]

@[simp] theorem length_fit (n : Nat) (bytes : Bytes) : (fit n bytes).length = n := by
  simp only [fit, List.length_append, List.length_replicate, List.length_take]
  omega

/-- A written word is read back, whatever follows it. -/
@[simp] theorem word?_word (w : UInt16) (rest : Bytes) : word? (word w ++ rest) = some (w, rest) := by
  have h := w.toNat_lt
  have e : (UInt8.ofNat (w.toNat / 256)).toNat * 256 + (UInt8.ofNat (w.toNat % 256)).toNat = w.toNat := by
    simp only [UInt8.toNat_ofNat']
    omega
  simp only [word, word?, List.cons_append, List.nil_append, e, UInt16.ofNat_toNat]

end Bytes

def total (ns : List Nat) : Nat := ns.foldr (· + ·) 0

@[simp] theorem total_nil : total [] = 0 := rfl

@[simp] theorem total_cons (n : Nat) (ns : List Nat) : total (n :: ns) = n + total ns := rfl

@[simp] theorem total_append (ms ns : List Nat) : total (ms ++ ns) = total ms + total ns := by
  induction ms with
  | nil => simp
  | cons m ms ih => simp [ih, Nat.add_assoc]

@[simp] theorem total_replicate_zero (n : Nat) : total (List.replicate n 0) = 0 := by
  induction n with
  | zero => rfl
  | succ n ih => simp [List.replicate_succ, ih]

theorem length_flatten {α : Type} (xss : List (List α)) : xss.flatten.length = total (xss.map List.length) := by
  induction xss with
  | nil => rfl
  | cons xs xss ih => simp [ih]

end LaneScript
