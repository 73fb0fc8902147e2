/-
  LaneScript.Proofs.Concatenation — source texts one below the other.

  Taking in lines knows of the lines before them only what the state says: the items that
  are finished, and a group still open with the number of its line. Behind other items, and
  further down, the same lines do the same to the state (`line_behind`), so they end with
  the same items behind the others, or fail at the same line counted from further down
  (`lines_behind`). A text that can be assembled ends with no group open, which is how a
  text begins; so what is written below it is assembled as it would be alone
  (`parse_append`).
-/
import LaneScript.Proofs.Listing

namespace LaneScript.Assembly

/-- The error as it is reported when `k` more lines stand above. -/
def Error.below (e : Error) (k : Nat) : Error := ⟨e.line + k, e.problem⟩

def State.behind (st : State) (done : List Stream.Item) (k : Nat) : State where
  items := st.items ++ done
  opened := st.opened.map (Prod.map (· + k) id)

variable (st : State) (done : List Stream.Item) (k n : Nat)

/-! ## One line -/

theorem close_behind : (st.behind done k).close = st.close.map (·.behind done k) := by
  obtain ⟨items, opened⟩ := st
  cases opened with
  | none => rfl
  | some o =>
    by_cases hlen : 255 < o.2.length
    · simp [State.behind, State.close, Except.map, hlen]
    · simp [State.behind, State.close, Except.map, hlen]

theorem openAt_behind (rest : List Char) :
    (st.behind done k).openAt (n + k) rest = (st.openAt n rest).map (·.behind done k) := by
  obtain ⟨items, opened⟩ := st
  cases opened with
  | some o => rfl
  | none =>
    by_cases hlast : rest.getLast? = some '\x7b'
    · simp [State.behind, State.openAt, Except.map, hlast]
    · simp [State.behind, State.openAt, Except.map, hlast]

theorem add_behind (i : Instruction) : (st.behind done k).add i = (st.add i).behind done k := by
  obtain ⟨items, opened⟩ := st
  cases opened with
  | none => rfl
  | some o => rfl

/-- A line does the same behind other lines. -/
theorem line_behind (raw : List Char) :
    (st.behind done k).line (n + k) raw = (st.line n raw).map (·.behind done k) := by
  by_cases hempty : stripped raw = []
  · simp only [State.line, hempty]
    rfl
  by_cases hbrace : stripped raw = ['\x7d']
  · simp only [State.line, hbrace]
    exact close_behind st done k
  rw [State.line_eq _ _ hempty hbrace, State.line_eq _ _ hempty hbrace]
  by_cases hname : String.ofList (splitMnemonic (stripped raw)).1 = "fused"
  · rw [if_pos hname, if_pos hname]
    exact openAt_behind st done k n _
  · rw [if_neg hname, if_neg hname]
    cases Opcode.ofMnemonic? (String.ofList (splitMnemonic (stripped raw)).1) with
    | none => rfl
    | some opcode =>
      cases hi : instruction opcode (splitMnemonic (stripped raw)).2 with
      | error p => simp only [Option.elim_some, hi]; rfl
      | ok i =>
        simp only [Option.elim_some, hi]
        exact congrArg Except.ok (add_behind st done k i)

/-! ## All lines -/

theorem lines_behind (raws : List (List Char)) :
    (st.behind done k).lines (n + k) raws = ((st.lines n raws).map (·.behind done k)).mapError (·.below k) := by
  induction raws generalizing st n with
  | nil => rfl
  | cons raw raws ih =>
    rw [State.lines, State.lines, line_behind]
    cases st.line n raw with
    | error p => rfl
    | ok next =>
      have hnext := ih next (n + 1)
      rw [Nat.add_right_comm] at hnext
      exact hnext

/-- A text below one that spells items is read as it is alone, with its items behind theirs. -/
theorem parse_append {xs : List Char} {items : List Stream.Item} (h : parse xs = .ok items) (ys : List Char) :
    parse (xs ++ '\n' :: ys) = ((parse ys).map (items ++ ·)).mapError (·.below (1 + xs.count '\n')) := by
  have hclean : ({} : State).lines 1 (Text.lines xs) = .ok ⟨items.reverse, none⟩ := by
    unfold parse at h
    split at h
    · cases h
    · cases h
    · rename_i found hrun
      cases h
      rw [List.reverse_reverse]
      exact hrun
  have hstart : (⟨items.reverse, none⟩ : State) = State.behind {} items.reverse (1 + xs.count '\n') := rfl
  rw [parse, parse, Text.lines_append, State.lines_append hclean, Text.length_lines, Nat.add_comm (xs.count '\n'),
    hstart, lines_behind]
  cases ({} : State).lines 1 (Text.lines ys) with
  | error e => rfl
  | ok st =>
    obtain ⟨found, opened⟩ := st
    cases opened with
    | some o => rfl
    | none =>
      have hitems : (found ++ items.reverse).reverse = items ++ found.reverse := by simp
      exact congrArg Except.ok hitems

/-! ## Streams -/

theorem assemble_eq (source : String) : assemble source = (parse source.toList).map Stream.encode := by
  unfold assemble
  cases parse source.toList with
  | error e => rfl
  | ok items => rfl

/-- Assembling goes line by line: below a text that can be assembled, a text yields its stream behind the other's, or
    its error as many lines further down as the other text has. -/
theorem assemble_append {s : String} {a : Bytes} (h : assemble s = .ok a) (t : String) :
    (∀ b, assemble t = .ok b → assemble (s ++ "\n" ++ t) = .ok (a ++ b)) ∧
      ∀ e, assemble t = .error e →
        assemble (s ++ "\n" ++ t) = .error ⟨e.line + 1 + s.toList.count '\n', e.problem⟩ := by
  have htext : (s ++ "\n" ++ t).toList = s.toList ++ '\n' :: t.toList := by simp
  rw [assemble_eq] at h
  rw [assemble_eq, assemble_eq, htext]
  cases hs : parse s.toList with
  | error e =>
    rw [hs] at h
    cases h
  | ok items =>
    rw [hs] at h
    cases h
    rw [parse_append hs]
    cases parse t.toList with
    | error p =>
      refine ⟨fun b hb => (by cases hb), ?_⟩
      intro e he
      cases he
      rw [Nat.add_assoc]
      rfl
    | ok more =>
      refine ⟨?_, fun e he => (by cases he)⟩
      intro b hb
      cases hb
      exact congrArg Except.ok List.flatMap_append

def headText : String := "; first\r\n\nexec_index r7"

def unclosedText : String := "nop # then\nfused \x7b\n  neg acc, r7\n"

/-- The group is reported where it was opened, three lines further down. -/
theorem assemble_append_unclosed : assemble headText = .ok [0x02, 0, 7] ∧
    assemble unclosedText = .error ⟨2, .unterminated⟩ ∧
    assemble (headText ++ "\n" ++ unclosedText) = .error ⟨2 + 1 + headText.toList.count '\n', .unterminated⟩ ∧
    assemble (headText ++ "\n" ++ headText) = .ok [0x02, 0, 7, 0x02, 0, 7] := by
  have hhead : assemble headText = .ok [0x02, 0, 7] := by decide +kernel
  have hopen : assemble unclosedText = .error ⟨2, .unterminated⟩ := by decide +kernel
  exact ⟨hhead, hopen, (assemble_append hhead unclosedText).2 _ hopen, (assemble_append hhead headText).1 _ hhead⟩

end LaneScript.Assembly
