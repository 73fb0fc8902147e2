/-
  LaneScript.Settings — the choices a compile offers.
-/

namespace LaneScript

structure Settings where
  /-- Whether single-use results are folded into their readers. -/
  fold : Bool := true
  /-- Whether nodes that do not matter are dropped. -/
  prune : Bool := true
  /-- The most steps that folding may put into one group. -/
  groupLimit : UInt8 := 16
  /-- The most registers that may hold a value at once. -/
  registerLimit : UInt64 := 4096
  deriving DecidableEq, Repr, Inhabited

namespace Settings

/-- No optimisation but renumbering. -/
def plain : Settings := { fold := false, prune := false }

end Settings

end LaneScript
