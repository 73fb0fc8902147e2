/-
  LaneScript.Proofs.Text — numerals, blanks and lines.

  Digits spell a word just where they are its decimal form behind any number of zeros
  (`word?_eq_some_iff`), and a hexadecimal offset below 2^24 takes four to six
  characters. A text is `Solid` when it has no blank at either end and nothing in it that
  ends a line or begins a comment; texts put together from solid ones with separators
  between them are solid again (`Solid.append`, `Solid.join`). Lines that are written out
  one below the other are cut apart into the same lines (`lines_ofLines`).
-/
import LaneScript.Assembly
import LaneScript.Assembly.Listing
import Mathlib.Data.List.Induction
import Mathlib.Data.List.TakeWhile
import Mathlib.Data.Nat.Digits.Defs

namespace LaneScript

/-! ## Numerals -/

namespace Numeral

theorem isDigit_of_mem_decimal {n : Nat} {c : Char} (h : c ∈ decimal n) : isDigit c = true := by
  have hc := Nat.isDigit_of_mem_toDigits (by decide) (Nat.le_refl 10) h
  simpa [isDigit, Char.isDigit, Char.le_def] using hc

theorem decimal_ne_nil (n : Nat) : decimal n ≠ [] := Nat.toDigits_ne_nil

theorem value_decimal (n : Nat) : value (decimal n) = n := by
  have h := @Nat.ofDigitChars_ten_toDigits n
  rw [Nat.ofDigitChars_eq_foldl] at h
  simpa only [value, decimal, Nat.mul_comm] using h

theorem value_concat (xs : List Char) (c : Char) : value (xs ++ [c]) = 10 * value xs + (c.toNat - 48) := by
  rw [value, List.foldl_append, ← value, Nat.mul_comm]
  rfl

theorem digitChar_sub {c : Char} (h : isDigit c = true) : c.toNat - 48 < 10 ∧ Nat.digitChar (c.toNat - 48) = c := by
  have hc : 48 ≤ c.toNat ∧ c.toNat ≤ 57 := by
    simpa [isDigit, Char.le_def, UInt32.le_iff_toNat_le] using h
  have hlt : c.toNat - 48 < 10 := by omega
  refine ⟨hlt, Char.toNat_inj.mp ?_⟩
  rw [Nat.toNat_digitChar_of_lt_ten hlt]
  omega

/-- Digits are zeros and the decimal form of the number they spell. -/
theorem exists_zeros {digits : List Char} (hne : digits ≠ []) (h : ∀ c ∈ digits, isDigit c = true) :
    ∃ zeros, digits = List.replicate zeros '0' ++ decimal (value digits) := by
  induction digits using List.reverseRecOn with
  | nil => exact absurd rfl hne
  | append_singleton xs c ih =>
    obtain ⟨hlt, hchar⟩ := digitChar_sub (h c (List.mem_append_right xs List.mem_cons_self))
    have hlast : decimal (c.toNat - 48) = [c] := by
      rw [decimal, Nat.toDigits_of_lt_base hlt, hchar]
    rw [value_concat]
    by_cases hxs : xs = []
    · refine ⟨0, ?_⟩
      rw [hxs]
      simpa [value] using hlast.symm
    obtain ⟨zeros, hz⟩ := ih hxs fun d hd => h d (List.mem_append_left [c] hd)
    by_cases hv : value xs = 0
    · -- The digits before the last are all zeros.
      refine ⟨zeros + 1, ?_⟩
      have hzero : decimal (value xs) = ['0'] := by rw [hv]; rfl
      rw [hzero, ← List.replicate_succ'] at hz
      rw [hv, Nat.mul_zero, Nat.zero_add, hlast, ← hz]
    · refine ⟨zeros, ?_⟩
      have happ := Nat.toDigits_append_toDigits (b := 10) (by decide) (Nat.pos_of_ne_zero hv) hlt
      rw [decimal, ← happ, ← decimal, ← decimal, hlast, ← List.append_assoc, ← hz]

theorem value_zeros (zeros : Nat) (xs : List Char) : value (List.replicate zeros '0' ++ xs) = value xs := by
  induction zeros with
  | zero => rfl
  | succ zeros ih => exact ih

theorem isDigit_of_mem_padded {zeros n : Nat} {c : Char} (h : c ∈ List.replicate zeros '0' ++ decimal n) :
    isDigit c = true := by
  rcases List.mem_append.mp h with h | h
  · rw [(List.mem_replicate.mp h).2]
    rfl
  · exact isDigit_of_mem_decimal h

/-- The words that digits spell. -/
theorem word?_eq_some_iff {digits : List Char} (h : ∀ c ∈ digits, isDigit c = true) {n : UInt16} :
    word? digits = some n ↔ ∃ zeros, digits = List.replicate zeros '0' ++ decimal n.toNat := by
  apply Iff.intro
  · intro hw
    unfold word? at hw
    split at hw
    · cases hw
    · rename_i hn
      obtain ⟨hne, hlt⟩ := not_or.mp hn
      obtain ⟨zeros, hz⟩ := exists_zeros (mt List.isEmpty_iff.mpr hne) h
      refine ⟨zeros, ?_⟩
      rw [← Option.some.inj hw, UInt16.toNat_ofNat_of_lt' (by simpa using hlt)]
      exact hz
  · intro hd
    obtain ⟨zeros, rfl⟩ := hd
    have hlt := n.toNat_lt
    have hne : List.replicate zeros '0' ++ decimal n.toNat ≠ [] := List.append_ne_nil_of_right_ne_nil _ (decimal_ne_nil _)
    rw [word?, value_zeros, value_decimal, if_neg, UInt16.ofNat_toNat]
    rw [List.isEmpty_iff, not_or]
    exact ⟨hne, by omega⟩

/-- The digits of a word are read as the word. -/
theorem word?_decimal (w : UInt16) : word? (decimal w.toNat) = some w :=
  (word?_eq_some_iff fun _ hc => isDigit_of_mem_decimal hc).mpr ⟨0, rfl⟩

theorem forall_mem_toDigits {P : Char → Prop} (hP : ∀ k < 16, P (Nat.digitChar k)) (n : Nat) :
    ∀ c ∈ Nat.toDigits 16 n, P c := by
  induction n using Nat.strongRecOn with
  | ind n ih =>
    intro c hc
    rw [Nat.toDigits_eq_if (by decide)] at hc
    split at hc
    · rw [List.mem_singleton.mp hc]
      exact hP n ‹_›
    · rcases List.mem_append.mp hc with hc | hc
      · exact ih (n / 16) (by omega) c hc
      · rw [List.mem_singleton.mp hc]
        exact hP _ (Nat.mod_lt _ (by decide))

/-- What holds of the sixteen digits holds of every character of an offset. -/
theorem forall_mem_hex {P : Char → Prop} (hP : ∀ k < 16, P (Nat.digitChar k)) (width n : Nat) :
    ∀ c ∈ hex width n, P c := by
  intro c hc
  rcases List.mem_append.mp hc with hc | hc
  · rw [(List.mem_replicate.mp hc).2]
    exact hP 0 (by decide)
  · exact forall_mem_toDigits hP n c hc

/-- An offset into a stream of at most 2^24 bytes has four to six hexadecimal digits. -/
theorem length_hex {n : Nat} (h : n < 16777216) : 4 ≤ (hex 4 n).length ∧ (hex 4 n).length ≤ 6 := by
  have hlen := Nat.toDigits_length 16 n 6 (by decide) h
  simp only [hex, List.length_append, List.length_replicate]
  omega

end Numeral

namespace Text

/-! ## Blanks -/

theorem trimStart_cons {c : Char} (h : isBlank c = false) (cs : List Char) : trimStart (c :: cs) = c :: cs := by
  rw [trimStart, List.dropWhile_cons, h]
  rfl

theorem trimStart_replicate (k : Nat) (cs : List Char) : trimStart (List.replicate k ' ' ++ cs) = trimStart cs := by
  induction k with
  | zero => rfl
  | succ k ih => exact ih

theorem isBlank_of_visible {c : Char} (h : 33 ≤ c.toNat) (h' : c.toNat ≤ 126) : isBlank c = false := by
  simp only [isBlank, blankRanges, List.any_cons, List.any_nil, Bool.or_false, Bool.or_eq_false_iff, Bool.and_eq_false_iff,
    decide_eq_false_iff_not]
  omega

theorem isBlank_of_isDigit {c : Char} (h : Numeral.isDigit c = true) : isBlank c = false := by
  have hc : 48 ≤ c.toNat ∧ c.toNat ≤ 57 := by
    simpa [Numeral.isDigit, Char.le_def, UInt32.le_iff_toNat_le] using h
  exact isBlank_of_visible (by omega) (by omega)

def isTame (c : Char) : Bool := c != ';' && c != '#' && c != '\n'

/-- A text that stands on a line as it is: tame, with no blank at either end. -/
structure Solid (cs : List Char) : Prop where
  tame : cs.all isTame = true
  front : ∃ c rest, cs = c :: rest ∧ isBlank c = false
  back : ∃ init c, cs = init ++ [c] ∧ isBlank c = false

variable {xs ys : List Char}

theorem solid_of_all (hne : xs ≠ []) (h : xs.all (fun c => isTame c && !isBlank c) = true) : Solid xs := by
  have hall : ∀ c ∈ xs, isTame c = true ∧ isBlank c = false := by simpa using h
  refine ⟨List.all_eq_true.mpr fun c hc => (hall c hc).1, ?_, ?_⟩
  · obtain ⟨c, rest, rfl⟩ := List.exists_cons_of_ne_nil hne
    exact ⟨c, rest, rfl, (hall c List.mem_cons_self).2⟩
  · refine ⟨xs.dropLast, xs.getLast hne, (List.dropLast_concat_getLast hne).symm, ?_⟩
    exact (hall _ (List.getLast_mem hne)).2

theorem Solid.join (hx : Solid xs) (hy : Solid ys) {mid : List Char} (hm : mid.all isTame = true) :
    Solid (xs ++ mid ++ ys) := by
  obtain ⟨c, rest, hc, hcb⟩ := hx.front
  obtain ⟨init, d, hd, hdb⟩ := hy.back
  refine ⟨?_, ⟨c, rest ++ mid ++ ys, by rw [hc]; rfl, hcb⟩, ⟨xs ++ mid ++ init, d, ?_, hdb⟩⟩
  · rw [List.all_append, List.all_append, hx.tame, hm, hy.tame]
    rfl
  · rw [hd, List.append_assoc _ init]

theorem Solid.append (hx : Solid xs) (hy : Solid ys) : Solid (xs ++ ys) := by
  have h : Solid (xs ++ [] ++ ys) := hx.join hy rfl
  rwa [List.append_nil] at h

theorem solid_cons {c : Char} (ht : isTame c = true) (hb : isBlank c = false) (hy : Solid ys) : Solid (c :: ys) :=
  Solid.append (solid_of_all (List.cons_ne_nil c []) (by simp [ht, hb])) hy

theorem isTame_of_isDigit {c : Char} (h : Numeral.isDigit c = true) : isTame c = true := by
  have other (d : Char) (hd : Numeral.isDigit d = false) : c ≠ d := by
    intro e
    rw [e, hd] at h
    cases h
  simp [isTame, other ';' rfl, other '#' rfl, other '\n' rfl]

theorem solid_decimal (n : Nat) : Solid (Numeral.decimal n) := by
  refine solid_of_all (Numeral.decimal_ne_nil n) (List.all_eq_true.mpr fun c hc => ?_)
  have hd := Numeral.isDigit_of_mem_decimal hc
  rw [isTame_of_isDigit hd, isBlank_of_isDigit hd]
  rfl

def behindCommas (items : List (List Char)) : List Char := items.flatMap fun x => ',' :: ' ' :: x

@[simp] theorem behindCommas_nil : behindCommas [] = [] := rfl

@[simp] theorem behindCommas_cons (x : List Char) (items : List (List Char)) :
    behindCommas (x :: items) = ',' :: ' ' :: (x ++ behindCommas items) := rfl

theorem commaList_cons (x : List Char) (items : List (List Char)) :
    commaList (x :: items) = x ++ behindCommas items := by
  induction items generalizing x with
  | nil => simp [commaList]
  | cons y items ih => rw [commaList, List.intercalate_cons_cons, ← commaList, ih, behindCommas_cons]; simp

theorem solid_commaList {items : List (List Char)} (hne : items ≠ []) (h : ∀ x ∈ items, Solid x) :
    Solid (commaList items) := by
  induction items with
  | nil => exact absurd rfl hne
  | cons x items ih =>
    cases items with
    | nil =>
      rw [commaList_cons, behindCommas_nil, List.append_nil]
      exact h x List.mem_cons_self
    | cons y items =>
      have hrest := ih (List.cons_ne_nil _ _) fun z hz => h z (List.mem_cons_of_mem _ hz)
      rw [commaList, List.intercalate_cons_cons, ← commaList]
      exact (h x List.mem_cons_self).join hrest rfl

/-- Stripping a line of the blanks and the comment around a solid text leaves the text. -/
theorem stripped_solid (h : Solid xs) (k : Nat) : Assembly.stripped (List.replicate k ' ' ++ xs) = xs := by
  obtain ⟨c, rest, hc, hcb⟩ := h.front
  obtain ⟨init, d, hd, hdb⟩ := h.back
  have htake : (List.replicate k ' ' ++ xs).takeWhile (fun c => c != ';' && c != '#') = List.replicate k ' ' ++ xs := by
    refine List.takeWhile_eq_self_iff.mpr fun a ha => ?_
    rcases List.mem_append.mp ha with ha | ha
    · rw [(List.mem_replicate.mp ha).2]
      decide
    · have ht := List.all_eq_true.mp h.tame a ha
      simp only [isTame, Bool.and_eq_true] at ht ⊢
      exact ht.1
  rw [Assembly.stripped, htake, trim, trimStart_replicate, hc, trimStart_cons hcb, ← hc, trimEnd, hd,
    List.reverse_append, List.reverse_singleton, List.singleton_append, trimStart_cons hdb, List.reverse_cons,
    List.reverse_reverse]

/-! ## Lines -/

theorem lines_ne_nil (xs : List Char) : lines xs ≠ [] := by
  cases xs with
  | nil => simp
  | cons c xs =>
    rw [lines_cons]
    split
    · simp
    · simp

/-- A line feed ends the last line of what stands before it. -/
theorem lines_append (xs ys : List Char) : lines (xs ++ '\n' :: ys) = lines xs ++ lines ys := by
  induction xs with
  | nil => rfl
  | cons c xs ih =>
    rw [List.cons_append, lines_cons, lines_cons, ih]
    by_cases hc : c = '\n'
    · rw [if_pos hc, if_pos hc]
      rfl
    · obtain ⟨l, ls, e⟩ := List.exists_cons_of_ne_nil (lines_ne_nil xs)
      rw [if_neg hc, if_neg hc, e]
      rfl

theorem lines_of_not_mem (h : '\n' ∉ xs) : lines xs = [xs] := by
  induction xs with
  | nil => rfl
  | cons c xs ih =>
    obtain ⟨hc, hxs⟩ := not_or.mp (mt List.mem_cons.mpr h)
    rw [lines_cons, if_neg (Ne.symm hc), ih hxs]
    rfl

theorem length_lines (xs : List Char) : (lines xs).length = xs.count '\n' + 1 := by
  induction xs with
  | nil => rfl
  | cons c xs ih =>
    rw [lines_cons]
    by_cases hc : c = '\n'
    · rw [if_pos hc, List.length_cons, ih, hc, List.count_cons_self]
    · obtain ⟨l, ls, e⟩ := List.exists_cons_of_ne_nil (lines_ne_nil xs)
      rw [if_neg hc, List.count_cons_of_ne hc, ← ih, e]
      rfl

/-- Lines that are written one below the other are cut apart again. -/
theorem lines_ofLines {ls : List (List Char)} (h : ∀ l ∈ ls, '\n' ∉ l) :
    lines (Assembly.Listing.ofLines ls) = ls ++ [[]] := by
  induction ls with
  | nil => rfl
  | cons l ls ih =>
    have hcons : Assembly.Listing.ofLines (l :: ls) = l ++ '\n' :: Assembly.Listing.ofLines ls := by
      simp [Assembly.Listing.ofLines]
    rw [hcons, lines_append, lines_of_not_mem (h l List.mem_cons_self), ih fun x hx => h x (List.mem_cons_of_mem _ hx)]
    rfl

theorem intercalate_concat_nil (ls : List (List Char)) :
    ['\n'].intercalate (ls ++ [[]]) = Assembly.Listing.ofLines ls := by
  induction ls with
  | nil => rfl
  | cons l ls ih =>
    obtain ⟨x, xs, hx⟩ := List.exists_cons_of_ne_nil (show ls ++ [[]] ≠ [] by simp)
    rw [List.cons_append, hx, List.intercalate_cons_cons, ← hx, ih]
    simp [Assembly.Listing.ofLines]

end Text

end LaneScript
