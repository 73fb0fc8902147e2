/-
  LaneScript.Settings.Document — reading documents of keys, values and tables.

  A document is a list of lines `key = value`, gathered into tables by headers in
  brackets. Keys are bare or quoted and may be paths with dots. Nothing can be set
  twice: a table is opened by one header only, a path of a key reaches only tables
  that such paths made, and a table written inside braces is closed. A header path
  makes the tables on its way, which a later header may still open. Values and keys
  nest up to a depth.
-/
import LaneScript.Settings.Document.Moment
import LaneScript.Settings.Document.Number

namespace LaneScript.Document

inductive Origin where
  /-- Written inside braces. -/
  | braces
  /-- Opened by a header. -/
  | header
  /-- Passed through by a header path. -/
  | implied
  /-- Made by a path of a key. -/
  | dotted
  deriving DecidableEq, Repr

inductive Item where
  | bool (b : Bool)
  | int (n : Int)
  | text (s : String)
  /-- A number with a point, an exponent, or none at all. -/
  | real
  /-- A date, a time or both. -/
  | moment
  | array (items : List Item)
  | table (origin : Origin) (fields : List (String × Item))
  /-- Tables of one name, opened by headers in double brackets, newest first. -/
  | tables (items : List (List (String × Item)))

abbrev Fields := List (String × Item)

/-! ## Tables -/

def Fields.find? (fields : Fields) (key : String) : Option Item := (List.find? (·.1 == key) fields).map (·.2)

/-- Gives a key a value, keeping the place of one that has one. -/
def Fields.set (fields : Fields) (key : String) (item : Item) : Fields :=
  if (fields.find? key).isSome then fields.map fun (k, old) => (k, if k == key then item else old)
  else fields ++ [(key, item)]

/-- Changes the table that a path reaches, making tables of the given origin on the way. -/
def reach (made : Origin) (change : Origin → Fields → Option Fields) :
    (path : List String) → Origin → Fields → Option Fields
  | [], origin, fields => change origin fields
  | key :: path, _, fields =>
    match fields.find? key with
    | none => do
      let inner ← reach made change path made []
      some (fields.set key (.table made inner))
    | some (.table origin inner) =>
      if origin = .braces ∨ (made = .dotted ∧ origin = .header) then none
      else do
        let inner ← reach made change path origin inner
        some (fields.set key (.table origin inner))
    | some (.tables (newest :: older)) => do
      let newest ← reach made change path .header newest
      some (fields.set key (.tables (newest :: older)))
    | some _ => none

/-- Sets a key at the end of a path of a key, within the table that `origin` tells of. -/
def assign (path : List String) (key : String) (item : Item) (origin : Origin) (fields : Fields) : Option Fields :=
  reach .dotted (fun reached fields =>
    if (path ≠ [] ∧ reached ≠ .dotted) ∨ (fields.find? key).isSome then none
    else some (fields.set key item)) path origin fields

def openTable (path : List String) (key : String) (fields : Fields) : Option Fields :=
  reach .implied (fun _ fields =>
    match fields.find? key with
    | none => some (fields.set key (.table .header []))
    | some (.table .implied inner) => some (fields.set key (.table .header inner))
    | some _ => none) path .header fields

def addTable (path : List String) (key : String) (fields : Fields) : Option Fields :=
  reach .implied (fun _ fields =>
    match fields.find? key with
    | none => some (fields.set key (.tables [[]]))
    | some (.tables items) => some (fields.set key (.tables ([] :: items)))
    | some _ => none) path .header fields

def assignUnder (header path : List String) (key : String) (item : Item) (fields : Fields) : Option Fields :=
  reach .implied (assign path key item) header .header fields

/-! ## Characters -/

def isSpace (c : Char) : Bool := c == ' ' || c == '\t'

def skipSpace (cs : List Char) : List Char := cs.dropWhile isSpace

/-- A character that may stand in a comment or, but for marks of its own, in a quoted text. -/
def isPlain (c : Char) : Bool := c == '\t' || (' ' ≤ c && c ≤ '~') || 0x80 ≤ c.toNat

def newline? : List Char → Option (List Char)
  | '\n' :: rest => some rest
  | '\r' :: '\n' :: rest => some rest
  | _ => none

def skipBlankLines : List Char → List Char
  | ' ' :: rest | '\t' :: rest | '\n' :: rest | '\r' :: '\n' :: rest => skipBlankLines rest
  | cs => cs

def skipComment : List Char → List Char
  | '#' :: rest => rest.dropWhile isPlain
  | cs => cs

def lineEnd? (cs : List Char) : Option (List Char) :=
  match skipComment (skipSpace cs) with
  | [] => some []
  | cs => newline? cs

def isBare (c : Char) : Bool := c.isAlphanum || c == '_' || c == '-'

def codePoint? (digits : Nat) (cs : List Char) : Option (Char × List Char) := do
  let ds := cs.take digits
  if ds.length < digits then none
  let n ← ds.foldlM (fun n c => (hexValue? c).map (n * 16 + ·)) 0
  if n < 0xD800 ∨ (0xDFFF < n ∧ n < 0x110000) then some (Char.ofNat n, cs.drop digits) else none

def escaped? : List Char → Option (Char × List Char)
  | 'b' :: rest => some ('\x08', rest)
  | 't' :: rest => some ('\t', rest)
  | 'n' :: rest => some ('\n', rest)
  | 'f' :: rest => some ('\x0c', rest)
  | 'r' :: rest => some ('\r', rest)
  | '"' :: rest => some ('"', rest)
  | '\\' :: rest => some ('\\', rest)
  | 'u' :: rest => codePoint? 4 rest
  | 'U' :: rest => codePoint? 8 rest
  | _ => none

/-- A text up to the closing mark; each round takes a character at least. -/
def quotedText? : (rounds : Nat) → List Char → (read : List Char) → Option (String × List Char)
  | 0, _, _ => none
  | rounds + 1, cs, read =>
    match cs with
    | '"' :: rest => some (String.ofList read.reverse, rest)
    | '\\' :: rest => do
      let (c, rest) ← escaped? rest
      quotedText? rounds rest (c :: read)
    | c :: rest => if isPlain c then quotedText? rounds rest (c :: read) else none
    | [] => none

/-- A text between single marks, in which nothing is escaped. -/
def literalText? (cs : List Char) : Option (String × List Char) :=
  let inside := cs.takeWhile fun c => isPlain c && c != '\''
  match cs.drop inside.length with
  | '\'' :: rest => some (String.ofList inside, rest)
  | _ => none

/-- A text over several lines, up to three marks; the last of four or five marks close it. -/
def longText? (mark : Char) : (rounds : Nat) → List Char → (read : List Char) → Option (String × List Char)
  | 0, _, _ => none
  | rounds + 1, cs, read =>
    match cs with
    | [] => none
    | c :: rest =>
      let marks := cs.takeWhile (· == mark)
      if 3 ≤ marks.length then
        if 5 < marks.length then none
        else some (String.ofList (read.reverse ++ marks.drop 3), cs.drop marks.length)
      else if c == '\\' && mark == '"' then
        let blank := skipSpace rest
        match newline? blank with
        | some rest => longText? mark rounds (skipBlankLines rest) read
        | none => do
          let (c, rest) ← escaped? rest
          longText? mark rounds rest (c :: read)
      else
        match newline? cs with
        | some rest => longText? mark rounds rest ('\n' :: read)
        | none => if isPlain c then longText? mark rounds rest (c :: read) else none

/-! ## Keys -/

def simpleKey? (cs : List Char) : Option (String × List Char) :=
  match cs with
  | '"' :: rest => quotedText? (rest.length + 1) rest []
  | '\'' :: rest => literalText? rest
  | cs =>
    let name := cs.takeWhile isBare
    if name.isEmpty then none else some (String.ofList name, cs.drop name.length)

/-- How many keys a path may have, and how many values may enclose the innermost one with it. -/
def depthLimit : Nat := 79

def key? : (rounds : Nat) → List Char → (path : List String) → Option (List String × String × List Char)
  | 0, _, _ => none
  | rounds + 1, cs, path => do
    let (key, rest) ← simpleKey? (skipSpace cs)
    match skipSpace rest with
    | '.' :: rest => key? rounds rest (key :: path)
    | rest => if path.length < depthLimit then some (path.reverse, key, rest) else none

/-! ## Words -/

def isWordChar (c : Char) : Bool := c.isAlphanum || c == '+' || c == '-' || c == '_' || c == '.' || c == ':'

/-- The characters of a word; a blank between a date and a time belongs to it. -/
def word (cs : List Char) : List Char :=
  let first := cs.takeWhile isWordChar
  match cs.drop first.length with
  | ' ' :: c :: rest =>
    if isDate first && Numeral.isDigit c then first ++ ' ' :: (c :: rest).takeWhile isWordChar else first
  | _ => first

def wordItem? (cs : List Char) : Option Item :=
  if cs == "true".toList then some (.bool true)
  else if cs == "false".toList then some (.bool false)
  else
    match integer? cs with
    | some n => some (.int n)
    | none => if isReal cs then some .real else if isMoment cs then some .moment else none

/-! ## Values -/

/-- What follows blanks, comments and line ends; each round takes a line end at least. -/
def skipLines : (rounds : Nat) → List Char → List Char
  | 0, cs => cs
  | rounds + 1, cs =>
    let cs := skipComment (skipSpace cs)
    match newline? cs with
    | some rest => skipLines rounds rest
    | none => cs

mutual

/-- A value that may have `room` levels of arrays and tables in braces. -/
def value? : (rounds room : Nat) → List Char → Option (Item × List Char)
  | 0, _, _ => none
  | rounds + 1, room, cs =>
    match cs with
    | '"' :: '"' :: '"' :: rest =>
      let rest := (newline? rest).getD rest
      (longText? '"' (rest.length + 1) rest []).map fun (s, rest) => (.text s, rest)
    | '\'' :: '\'' :: '\'' :: rest =>
      let rest := (newline? rest).getD rest
      (longText? '\'' (rest.length + 1) rest []).map fun (s, rest) => (.text s, rest)
    | '"' :: rest => (quotedText? (rest.length + 1) rest []).map fun (s, rest) => (.text s, rest)
    | '\'' :: rest => (literalText? rest).map fun (s, rest) => (.text s, rest)
    | '[' :: rest => if room = 0 then none else arrayItems? rounds (room - 1) rest []
    | '\x7b' :: rest =>
      if room = 0 then none
      else
        match skipSpace rest with
        | '\x7d' :: rest => some (.table .braces [], rest)
        | rest => bracePairs? rounds (room - 1) rest []
    | cs =>
      let w := word cs
      (wordItem? w).map (·, cs.drop w.length)

/-- The rest of an array, given what was read of it, newest first. -/
def arrayItems? : (rounds room : Nat) → List Char → List Item → Option (Item × List Char)
  | 0, _, _, _ => none
  | rounds + 1, room, cs, items =>
    match skipLines (cs.length + 1) cs with
    | ']' :: rest => some (.array items.reverse, rest)
    | cs => do
      let (item, rest) ← value? rounds room cs
      match skipLines (rest.length + 1) rest with
      | ',' :: rest => arrayItems? rounds room rest (item :: items)
      | ']' :: rest => some (.array (item :: items).reverse, rest)
      | _ => none

def bracePairs? : (rounds room : Nat) → List Char → Fields → Option (Item × List Char)
  | 0, _, _, _ => none
  | rounds + 1, room, cs, fields => do
    let (path, key, rest) ← key? (cs.length + 1) cs []
    match rest with
    | '=' :: rest => do
      let (item, rest) ← value? rounds room (skipSpace rest)
      let fields ← assign path key item .braces fields
      match skipSpace rest with
      | ',' :: rest => bracePairs? rounds room rest fields
      | '\x7d' :: rest => some (.table .braces fields, rest)
      | _ => none
    | _ => none

end

/-! ## Documents -/

structure State where
  fields : Fields := []
  header : List String := []

def header? (st : State) (cs : List Char) : Option (State × List Char) :=
  match cs with
  | '[' :: rest => do
    let (path, key, rest) ← key? (rest.length + 1) rest []
    match rest with
    | ']' :: ']' :: rest => do some (⟨← addTable path key st.fields, path ++ [key]⟩, rest)
    | _ => none
  | cs => do
    let (path, key, rest) ← key? (cs.length + 1) cs []
    match rest with
    | ']' :: rest => do some (⟨← openTable path key st.fields, path ++ [key]⟩, rest)
    | _ => none

def pair? (st : State) (cs : List Char) : Option (State × List Char) := do
  let (path, key, rest) ← key? (cs.length + 1) cs []
  match rest with
  | '=' :: rest => do
    let (item, rest) ← value? (2 * rest.length + 2) depthLimit (skipSpace rest)
    some ({ st with fields := ← assignUnder st.header path key item st.fields }, rest)
  | _ => none

def lines? : (rounds : Nat) → State → List Char → Option Fields
  | 0, _, _ => none
  | rounds + 1, st, cs =>
    match skipLines (cs.length + 1) cs with
    | [] => some st.fields
    | '[' :: rest => do
      let (st, rest) ← header? st rest
      lines? rounds st (← lineEnd? rest)
    | cs => do
      let (st, rest) ← pair? st cs
      lines? rounds st (← lineEnd? rest)

/-- The fields of a document; a mark of byte order may precede it. -/
def parse? (text : List Char) : Option Fields :=
  let text := match text with
    | '﻿' :: rest => rest
    | text => text
  lines? (text.length + 1) {} text

end LaneScript.Document
