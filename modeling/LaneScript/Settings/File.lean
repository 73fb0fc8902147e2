/-
  LaneScript.Settings.File — settings from a document.

  The document may hold one table, `optimizer`, with any of the four settings; what
  is missing keeps its default. The table can also be written as an array of values
  in the order of the settings.
-/
import LaneScript.Settings
import LaneScript.Settings.Document

namespace LaneScript.Settings

inductive FileError where
  /-- Not a document, or not one of settings. -/
  | malformed
  /-- No register may hold a value. -/
  | noRegisters
  deriving DecidableEq, Repr

/-- What is wrong; the details of a malformed document are not told. -/
def FileError.message : FileError → String
  | .malformed => "invalid config:"
  | .noRegisters => "invalid value for `max_registers_in_flight`: must be at least 1"

def setFold (s : Settings) : Document.Item → Option Settings
  | .bool b => some { s with fold := b }
  | _ => none

def setPrune (s : Settings) : Document.Item → Option Settings
  | .bool b => some { s with prune := b }
  | _ => none

def setGroupLimit (s : Settings) : Document.Item → Option Settings
  | .int n => if 0 ≤ n ∧ n ≤ 255 then some { s with groupLimit := UInt8.ofNat n.toNat } else none
  | _ => none

def setRegisterLimit (s : Settings) : Document.Item → Option Settings
  | .int n => if 0 ≤ n then some { s with registerLimit := UInt64.ofNat n.toNat } else none
  | _ => none

/-- The settings by name, in the order of the array form. -/
def setters : List (String × (Settings → Document.Item → Option Settings)) :=
  [("merge", setFold), ("eliminate_dead_code", setPrune), ("max_fused_steps", setGroupLimit),
   ("max_registers_in_flight", setRegisterLimit)]

def ofFields? (fields : Document.Fields) : Option Settings :=
  fields.foldlM (fun s (key, item) => do
    let (_, set) ← setters.find? (·.1 == key)
    set s item) {}

/-- Values beyond the settings are ignored. -/
def ofArray? (items : List Document.Item) : Option Settings :=
  (setters.zip items).foldlM (fun s ((_, set), item) => set s item) {}

def ofDocument? : Document.Fields → Option Settings
  | [] => some {}
  | [("optimizer", .table _ fields)] => ofFields? fields
  | [("optimizer", .array items)] => ofArray? items
  | _ => none

def parse (text : List Char) : Except FileError Settings :=
  match (Document.parse? text).bind ofDocument? with
  | none => .error .malformed
  | some s => if s.registerLimit = 0 then .error .noRegisters else .ok s

end LaneScript.Settings
