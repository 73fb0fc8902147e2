/-
  LaneScript.Text.Blank — the characters of the Unicode property White_Space,
  trimming by them, and cutting a text into lines.
-/

namespace LaneScript.Text

/-- The White_Space characters as closed ranges of code points, in increasing order. -/
def blankRanges : List (Nat × Nat) :=
  [(0x09, 0x0D), (0x20, 0x20), (0x85, 0x85), (0xA0, 0xA0), (0x1680, 0x1680), (0x2000, 0x200A),
   (0x2028, 0x2029), (0x202F, 0x202F), (0x205F, 0x205F), (0x3000, 0x3000)]

def isBlank (c : Char) : Bool := blankRanges.any fun (lo, hi) => lo ≤ c.toNat && c.toNat ≤ hi

def trimStart (cs : List Char) : List Char := cs.dropWhile isBlank

def trimEnd (cs : List Char) : List Char := (trimStart cs.reverse).reverse

def trim (cs : List Char) : List Char := trimEnd (trimStart cs)

/-- The pieces between line feeds; a text without any is one line. -/
def lines (cs : List Char) : List (List Char) :=
  cs.foldr (fun c ls => if c = '\n' then [] :: ls else (c :: ls.headD []) :: ls.tail) [[]]

def after? : (token text : List Char) → Option (List Char)
  | [], text => some text
  | c :: token, d :: text => if c = d then after? token text else none
  | _ :: _, [] => none

def commaList (items : List (List Char)) : List Char := [',', ' '].intercalate items

@[simp] theorem lines_nil : lines [] = [[]] := rfl

theorem lines_cons (c : Char) (cs : List Char) :
    lines (c :: cs) = if c = '\n' then [] :: lines cs else (c :: (lines cs).headD []) :: (lines cs).tail := rfl

end LaneScript.Text
