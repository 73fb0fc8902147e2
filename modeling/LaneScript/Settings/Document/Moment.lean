/-
  LaneScript.Settings.Document.Moment — the dates and times of a document.

  A date `2024-02-29`, a time `07:32:00` with or without a fraction, or both with a
  letter or a blank between them, and then perhaps an offset.
-/
import LaneScript.Text.Numeral

namespace LaneScript.Document

/-- Whether a text has the form of a pattern in which `d` stands for a digit. -/
def fits : (pattern text : List Char) → Bool
  | [], [] => true
  | 'd' :: pattern, c :: text => Numeral.isDigit c && fits pattern text
  | p :: pattern, c :: text => p == c && fits pattern text
  | _, _ => false

def numberAt (cs : List Char) (start : Nat) : Nat := Numeral.value ((cs.drop start).take 2)

def isLeap (year : Nat) : Bool := year % 4 == 0 && (year % 100 != 0 || year % 400 == 0)

def daysIn (year month : Nat) : Nat :=
  match month with
  | 2 => if isLeap year then 29 else 28
  | 4 | 6 | 9 | 11 => 30
  | _ => 31

def isDate (cs : List Char) : Bool :=
  let year := Numeral.value (cs.take 4)
  let month := numberAt cs 5
  let day := numberAt cs 8
  fits "dddd-dd-dd".toList cs && 1 ≤ month && month ≤ 12 && 1 ≤ day && day ≤ daysIn year month

/-- A minute may have a sixty-first second. -/
def isTime (cs : List Char) : Bool :=
  let clock := cs.take 8
  fits "dd:dd:dd".toList clock && numberAt clock 0 ≤ 23 && numberAt clock 3 ≤ 59 && numberAt clock 6 ≤ 60 &&
    match cs.drop 8 with
    | [] => true
    | '.' :: part => !part.isEmpty && part.all Numeral.isDigit
    | _ => false

def isOffset (cs : List Char) : Bool :=
  match cs with
  | [] | ['Z'] | ['z'] => true
  | sign :: clock =>
    (sign == '+' || sign == '-') && fits "dd:dd".toList clock && numberAt clock 0 ≤ 23 && numberAt clock 3 ≤ 59

def isMoment (cs : List Char) : Bool :=
  isTime cs || isDate cs ||
    match cs.drop 10 with
    | mark :: rest =>
      let clock := rest.takeWhile fun c => Numeral.isDigit c || c == ':' || c == '.'
      isDate (cs.take 10) && (mark == 'T' || mark == 't' || mark == ' ') && isTime clock &&
        isOffset (rest.drop clock.length)
    | [] => false

end LaneScript.Document
