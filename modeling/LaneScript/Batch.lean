/-
  LaneScript.Batch — many scripts at once, each on its own.
-/
import LaneScript.Compile
import LaneScript.Image.Pack

namespace LaneScript

structure Script where
  name : String
  code : Bytes
  functions : UInt32 := 0
  deriving DecidableEq, Repr, Inhabited

namespace Batch

structure Outcome where
  name : String
  result : Except Compile.Error (Bytes × Compile.Stats)

def one (settings : Settings) (s : Script) : Outcome where
  name := s.name
  result :=
    match compile s.code s.functions settings with
    | .error e => .error e
    | .ok c => .ok (c.image.pack, c.stats)

/-- Compiles and packs every script; the outcomes stand in the order of the scripts. -/
def run (settings : Settings) (scripts : List Script) : List Outcome := scripts.map (one settings)

end Batch

end LaneScript
