/-
  LaneScript.Text.Quoted — text in quotation marks, for diagnostics.

  Marks, backslashes and line ends are escaped by a letter; characters that a reader
  could not see are written by their code point.
-/
import LaneScript.Text.Numeral
import LaneScript.Text.Unseen

namespace LaneScript.Text

def escape (c : Char) : List Char :=
  match c with
  | '"' => ['\\', '"']
  | '\\' => ['\\', '\\']
  | '\n' => ['\\', 'n']
  | '\r' => ['\\', 'r']
  | '\t' => ['\\', 't']
  | '\x00' => ['\\', '0']
  | c => if isUnseen c then ['\\', 'u', '\x7b'] ++ Numeral.hex 1 c.toNat ++ ['\x7d'] else [c]

def quoted (s : String) : String := String.ofList ('"' :: s.toList.flatMap escape ++ ['"'])

end LaneScript.Text
