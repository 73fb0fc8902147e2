/-
  LaneScript.Cli.Path — the last name of a path and its extension.

  Slashes at the end of a path, and dots that stand alone behind one, say nothing. A
  dot that begins a name begins no extension.
-/

namespace LaneScript.Path

/-- Drops what says nothing from the end of a path, which is given backwards. -/
def dropTail : List Char → List Char
  | '/' :: rest => dropTail rest
  | '.' :: '/' :: rest => dropTail rest
  | cs => cs

/-- A path cut before its last name, and that name, both backwards; `none` if no name stands last. -/
def split? (path : String) : Option (List Char × List Char) :=
  let cs := dropTail path.toList.reverse
  let name := cs.takeWhile (· ≠ '/')
  if name = [] ∨ name = ['.'] ∨ name = ['.', '.'] then none else some (cs.drop name.length, name)

def splitName (name : List Char) : List Char × Option (List Char) :=
  let ext := name.takeWhile (· ≠ '.')
  match name.drop ext.length with
  | '.' :: stem => if stem.isEmpty then (name, none) else (stem, some ext)
  | _ => (name, none)

def extension? (path : String) : Option String := do
  let (_, name) ← split? path
  let ext ← (splitName name).2
  some (String.ofList ext.reverse)

/-- Puts an extension behind the stem of the last name; a path without a last name stays as it is. -/
def setExtension (path ext : String) : String :=
  match split? path with
  | none => path
  | some (dir, name) => String.ofList ((splitName name).1 ++ dir).reverse ++ "." ++ ext

/-- The path with another extension in place of its own, whose length is cut off first: no last name may be left. -/
def withExtension (path ext : String) : String :=
  let old := ((extension? path).getD "").length
  setExtension (String.ofList (path.toList.take (path.length - old))) ext

end LaneScript.Path
