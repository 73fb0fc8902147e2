/-
  LaneScript.Proofs.Listing — the lines of a listing, read as source text.

  `cutColumn` cuts the first six bytes off every line. Below 2^24 that leaves of an
  offset column blanks at most (`behind_offsetText`), so each line of a listing is read as
  what it was written for: an instruction (`line_text`), the opening of a group or its
  end. Taking in the lines of one item adds that item to the state (`lines_itemLines`),
  and taking in all of them yields the items of the stream with the closing `done`
  (`parse_listing`).
-/
import LaneScript.Proofs.Canonical
import LaneScript.Proofs.Format
import LaneScript.Proofs.Operands

namespace LaneScript

/-! ## Mnemonics -/

namespace Opcode

theorem ofMnemonic?_mnemonic (o : Opcode) : ofMnemonic? o.mnemonic = some o := by
  have h : ∀ o ∈ all, ofMnemonic? o.mnemonic = some o := by decide +kernel
  exact h o o.mem_all

def isWordChar (c : Char) : Bool := 'a' ≤ c && c ≤ 'z' || Numeral.isDigit c || c == '_'

theorem mnemonic_word (o : Opcode) : o.mnemonic.toList ≠ [] ∧ o.mnemonic.toList.all isWordChar = true := by
  have h : ∀ o ∈ all, o.mnemonic.toList ≠ [] ∧ o.mnemonic.toList.all isWordChar = true := by decide +kernel
  exact h o o.mem_all

/-- No such character ends a word or a line, begins a comment or closes a group. -/
theorem of_isWordChar {c : Char} (h : isWordChar c = true) :
    Text.isTame c = true ∧ Text.isBlank c = false ∧ c ≠ '\x7d' := by
  have other (d : Char) (hd : isWordChar d = false) : c ≠ d := by
    intro e
    rw [e, hd] at h
    cases h
  have hc : 48 ≤ c.toNat ∧ c.toNat ≤ 122 := by
    have hranges : (97 ≤ c.toNat ∧ c.toNat ≤ 122 ∨ 48 ≤ c.toNat ∧ c.toNat ≤ 57) ∨ c = '_' := by
      simpa [isWordChar, Numeral.isDigit, Char.le_def, UInt32.le_iff_toNat_le] using h
    rcases hranges with hranges | rfl
    · omega
    · decide
  refine ⟨?_, Text.isBlank_of_visible (by omega) (by omega), other _ rfl⟩
  simp [Text.isTame, other ';' rfl, other '#' rfl, other '\n' rfl]

theorem mnemonic_chars (o : Opcode) :
    ∀ c ∈ o.mnemonic.toList, Text.isTame c = true ∧ Text.isBlank c = false ∧ c ≠ '\x7d' := by
  intro c hc
  exact of_isWordChar (List.all_eq_true.mp o.mnemonic_word.2 c hc)

theorem eq_fused_of_mnemonic {o : Opcode} (h : o.mnemonic = "fused") : o = .fused := by
  have e : ofMnemonic? o.mnemonic = ofMnemonic? (mnemonic .fused) := by rw [h]; rfl
  rw [ofMnemonic?_mnemonic, ofMnemonic?_mnemonic] at e
  exact Option.some.inj e

end Opcode

/-! ## Texts of instructions -/

open Text (Solid solid_cons solid_decimal solid_commaList solid_of_all commaList)

theorem Source.solid_text (s : Source) : Solid s.text := by
  cases s with
  | reg r => exact solid_cons rfl rfl (solid_decimal _)
  | const c => exact solid_cons rfl rfl (solid_decimal _)
  | acc => exact solid_of_all (by decide) rfl

theorem Dest.solid_text (d : Dest) : Solid d.text := by
  cases d with
  | reg r => exact solid_cons rfl rfl (solid_decimal _)
  | acc => exact solid_of_all (by decide) rfl

namespace Instruction

theorem solid_sources {ss : List Source} (h : ss ≠ []) : Solid (commaList (ss.map Source.text)) := by
  apply solid_commaList (by simpa using h)
  intro x hx
  obtain ⟨s, -, rfl⟩ := List.mem_map.mp hx
  exact s.solid_text

theorem solid_dests {ds : List Dest} (h : ds ≠ []) : Solid (commaList (ds.map Dest.text)) := by
  apply solid_commaList (by simpa using h)
  intro x hx
  obtain ⟨d, -, rfl⟩ := List.mem_map.mp hx
  exact d.solid_text

theorem solid_dataset (d : UInt16) : Solid (['d', 's'] ++ Numeral.decimal d.toNat) :=
  solid_cons rfl rfl (solid_cons rfl rfl (solid_decimal _))

theorem solid_field (f : UInt16) : Solid ('.' :: Numeral.decimal f.toNat) := solid_cons rfl rfl (solid_decimal _)

theorem tame_sources (ss : List Source) : (commaList (ss.map Source.text)).all Text.isTame = true := by
  cases ss with
  | nil => rfl
  | cons s ss => exact (solid_sources (List.cons_ne_nil s ss)).tame

theorem solid_results (rs : List UInt16) : Solid (')' :: Assembly.resultText rs) := by
  have hclose : Solid [')'] := solid_of_all (by decide) rfl
  cases rs with
  | nil => exact hclose
  | cons r rs =>
    have hregisters : Solid (commaList (((r :: rs).map Dest.reg).map Dest.text)) := solid_dests (by simp)
    have h : Solid (_ ++ [' ', '-', '>', ' '] ++ _) := hclose.join hregisters rfl
    simpa [Assembly.resultText, Text.commaList_cons, Function.comp_def] using h

theorem solid_callText (f : UInt16) (ss : List Source) (rs : List UInt16) : Solid (Assembly.callText f ss rs) := by
  have hf : Solid ('f' :: Numeral.decimal f.toNat) := solid_cons rfl rfl (solid_decimal _)
  have hsources : (' ' :: '(' :: commaList (ss.map Source.text)).all Text.isTame = true := tame_sources ss
  have h := hf.join (solid_results rs) hsources
  rwa [List.append_assoc] at h

/-- The text of the operands is solid, unless there are none. -/
theorem solid_operandText {i : Instruction} (h : i.WellShaped) (hne : i.operandText ≠ []) : Solid i.operandText := by
  have separator : [',', ' '].all Text.isTame = true := rfl
  obtain ⟨opcode, payload, ss, ds⟩ := i
  cases opcode with
  | compute f =>
    obtain ⟨rfl, hl, hd⟩ := h
    obtain ⟨d, rfl⟩ := List.length_eq_one_iff.mp hd
    apply solid_commaList (by simp)
    intro x hx
    rcases List.mem_append.mp hx with hx | hx
    · obtain ⟨d, -, rfl⟩ := List.mem_map.mp hx
      exact d.solid_text
    · obtain ⟨s, -, rfl⟩ := List.mem_map.mp hx
      exact s.solid_text
  | input e a =>
    obtain ⟨⟨d, f, rfl⟩, rfl, r, rfl⟩ := h
    exact ((solid_dests (by simp)).join (solid_dataset d) separator).append (solid_field f)
  | output e =>
    obtain ⟨⟨d, f, rfl⟩, ⟨r, s, rfl⟩, rfl⟩ := h
    have hindex : Solid ('[' :: (Source.reg r).text) := solid_cons rfl rfl (Source.solid_text _)
    have hfield : Solid (']' :: '.' :: Numeral.decimal f.toNat) := solid_cons rfl rfl (solid_field f)
    exact (((solid_dataset d).append hindex).append hfield).join s.solid_text separator
  | acquireIndex =>
    obtain ⟨⟨d, rfl⟩, hl, r, rfl⟩ := h
    exact ((solid_dests (by simp)).join (solid_dataset d) separator).join
      (solid_sources (by intro e; subst e; cases hl)) separator
  | updateId =>
    obtain ⟨⟨d, rfl⟩, ⟨a, b, rfl⟩, rfl⟩ := h
    exact (solid_dataset d).join (solid_sources (by simp)) separator
  | acquireId =>
    obtain ⟨⟨d, rfl⟩, rfl, a, b, rfl⟩ := h
    exact (solid_dests (by simp)).join (solid_dataset d) separator
  | call =>
    obtain ⟨⟨f, rfl⟩, hs, hd, hacc⟩ := h
    obtain ⟨rs, rfl⟩ := Assembly.exists_registers hacc
    rw [Assembly.operandText_call]
    exact solid_callText f ss rs
  | enterScope =>
    obtain ⟨⟨id, rfl⟩, rfl, rfl⟩ := h
    exact solid_decimal _
  | execIndex =>
    obtain ⟨rfl, rfl, r, rfl⟩ := h
    exact solid_dests (by simp)
  | fused => exact h.elim
  | done | nop | exitScope =>
    obtain ⟨rfl, rfl, rfl⟩ := h
    exact absurd rfl hne

theorem solid_text {i : Instruction} (h : i.WellShaped) : Solid i.text := by
  have hname : Solid i.opcode.mnemonic.toList :=
    solid_of_all i.opcode.mnemonic_word.1 (List.all_eq_true.mpr fun c hc => by
      rw [(i.opcode.mnemonic_chars c hc).1, (i.opcode.mnemonic_chars c hc).2.1]
      rfl)
  unfold text
  dsimp only
  split
  · rwa [List.append_nil]
  · rename_i hne
    have hoperands := solid_operandText h (mt List.isEmpty_iff.mpr hne)
    have hjoin : Solid (_ ++ [' '] ++ _) := hname.join hoperands rfl
    rwa [List.append_assoc, List.singleton_append] at hjoin

/-- The mnemonic ends at the first blank, and what is behind it are the operands. -/
theorem splitMnemonic_text (i : Instruction) :
    Assembly.splitMnemonic i.text = (i.opcode.mnemonic.toList, i.operandText) := by
  have hword : ∀ c ∈ i.opcode.mnemonic.toList, (!Text.isBlank c) = true := by
    intro c hc
    rw [(i.opcode.mnemonic_chars c hc).2.1]
    rfl
  unfold text Assembly.splitMnemonic
  dsimp only
  rw [List.takeWhile_append_of_pos hword, List.dropWhile_append_of_pos hword]
  split
  · rename_i hnone
    rw [List.isEmpty_iff.mp hnone]
    simp
  · simp [Text.isBlank, Text.blankRanges]

theorem text_ne_close (i : Instruction) : i.text ≠ ['\x7d'] := by
  obtain ⟨c, cs, hc⟩ := List.exists_cons_of_ne_nil i.opcode.mnemonic_word.1
  have hclose := (i.opcode.mnemonic_chars c (by rw [hc]; exact List.mem_cons_self)).2.2
  intro e
  rw [text, hc] at e
  exact hclose (List.cons.inj e).1

end Instruction

/-! ## Single lines -/

namespace Assembly

/-- A line that is neither blank nor a brace, by its mnemonic and the text behind it. -/
theorem State.line_eq (st : State) (n : Nat) {raw : List Char} (hempty : stripped raw ≠ []) (hbrace : stripped raw ≠ ['\x7d']) :
    st.line n raw =
      if String.ofList (splitMnemonic (stripped raw)).1 = "fused" then st.openAt n (splitMnemonic (stripped raw)).2
      else (Opcode.ofMnemonic? (String.ofList (splitMnemonic (stripped raw)).1)).elim
        (.error (.unknownMnemonic (String.ofList (splitMnemonic (stripped raw)).1)))
        fun opcode => st.add <$> instruction opcode (splitMnemonic (stripped raw)).2 := by
  unfold State.line
  split
  · exact absurd ‹_› hempty
  · exact absurd ‹_› hbrace
  · dsimp only
    cases Opcode.ofMnemonic? (String.ofList (splitMnemonic (stripped raw)).1) with
    | none => rfl
    | some opcode => cases instruction opcode (splitMnemonic (stripped raw)).2 <;> rfl

/-- The line of an instruction, however far it is indented. -/
theorem line_text (st : State) (n k : Nat) {i : Instruction} (h : i.WellShaped) :
    st.line n (List.replicate k ' ' ++ i.text) = .ok (st.add i) := by
  have hfused : i.opcode.mnemonic ≠ "fused" := by
    intro e
    exact Instruction.opcode_ne_fused h (Opcode.eq_fused_of_mnemonic e)
  have hsolid := Instruction.solid_text h
  have hstripped := Text.stripped_solid hsolid k
  obtain ⟨c, rest, hc, -⟩ := hsolid.front
  have hempty : i.text ≠ [] := hc ▸ List.cons_ne_nil c rest
  rw [← hstripped] at hempty
  have hbrace := i.text_ne_close
  rw [← hstripped] at hbrace
  rw [State.line_eq st n hempty hbrace, hstripped, Instruction.splitMnemonic_text, String.ofList_toList, if_neg hfused,
    Opcode.ofMnemonic?_mnemonic, Option.elim_some, instruction_operandText h]
  rfl

def openText (count : Nat) : List Char :=
  ['f', 'u', 's', 'e', 'd'] ++ [' '] ++ Numeral.decimal count ++ [' '] ++ ['\x7b']

theorem solid_openText (count : Nat) : Solid (openText count) := by
  have hword : Solid ['f', 'u', 's', 'e', 'd'] := solid_of_all (by decide) rfl
  have hopen : Solid ['\x7b'] := solid_of_all (by decide) rfl
  exact (hword.join (solid_decimal count) rfl).join hopen rfl

theorem line_openText (items : List Stream.Item) (n k count : Nat) :
    State.line ⟨items, none⟩ n (List.replicate k ' ' ++ openText count) = .ok ⟨items, some (n, [])⟩ := by
  have hsplit : splitMnemonic (openText count) =
      (['f', 'u', 's', 'e', 'd'], Numeral.decimal count ++ [' '] ++ ['\x7b']) := rfl
  have hname : String.ofList ['f', 'u', 's', 'e', 'd'] = "fused" := rfl
  have hlast : (Numeral.decimal count ++ [' '] ++ ['\x7b']).getLast? = some '\x7b' := by simp
  have hstripped := Text.stripped_solid (solid_openText count) k
  have hempty : stripped (List.replicate k ' ' ++ openText count) ≠ [] := by
    rw [hstripped]
    exact List.cons_ne_nil _ _
  have hbrace : stripped (List.replicate k ' ' ++ openText count) ≠ ['\x7d'] := by
    rw [hstripped]
    intro e
    cases e
  rw [State.line_eq _ n hempty hbrace, hstripped, hsplit, if_pos hname]
  simp only [State.openAt, hlast, if_true]
  rfl

theorem line_close {items : List Stream.Item} {n opened : Nat} {steps : List Instruction} (h : steps.length ≤ 255) :
    State.line ⟨items, some (opened, steps)⟩ n ['\x7d'] = .ok ⟨.group steps.reverse :: items, none⟩ := by
  have hstripped : stripped ['\x7d'] = ['\x7d'] := by decide
  simp only [State.line, hstripped, State.close, if_neg (Nat.not_lt.mpr h)]

/-! ## Without the offset column -/

/-- A text without its first `n` bytes; nothing, if they end inside a character or there are fewer. -/
def behind : (n : Nat) → List Char → List Char
  | 0, cs => cs
  | _ + 1, [] => []
  | n + 1, c :: cs => if c.utf8Size ≤ n + 1 then behind (n + 1 - c.utf8Size) cs else []

theorem behind_append {xs : List Char} (hx : ∀ c ∈ xs, c.utf8Size = 1) {n : Nat} (hn : n ≤ xs.length)
    (ys : List Char) : behind n (xs ++ ys) = xs.drop n ++ ys := by
  induction xs generalizing n with
  | nil =>
    obtain rfl := Nat.le_zero.mp hn
    rw [behind]
    rfl
  | cons c xs ih =>
    cases n with
    | zero =>
      rw [behind]
      rfl
    | succ n =>
      have hc := hx c List.mem_cons_self
      rw [List.cons_append, behind, hc, if_pos (Nat.le_add_left 1 n), Nat.add_sub_cancel, List.drop_succ_cons]
      exact ih (fun d hd => hx d (List.mem_cons_of_mem c hd)) (Nat.le_of_succ_le_succ hn)

theorem behind_suffix (n : Nat) (cs : List Char) : behind n cs <:+ cs := by
  induction cs generalizing n with
  | nil => cases n <;> simp [behind]
  | cons c cs ih =>
    cases n with
    | zero => simp [behind]
    | succ n =>
      rw [behind]
      split
      · exact (ih _).trans (List.suffix_cons c cs)
      · exact List.nil_suffix

/-- A text without the first six bytes of every line. -/
def cutColumn (text : String) : String :=
  String.ofList (['\n'].intercalate ((Text.lines text.toList).map (behind 6)))

/-- Of the offset column at most blanks are left. -/
theorem behind_offsetText {offset : Nat} (h : offset < 16777216) (rest : List Char) :
    ∃ k, behind 6 (offsetText offset ++ rest) = List.replicate k ' ' ++ rest := by
  obtain ⟨h4, h6⟩ := Numeral.length_hex h
  have hsize : ∀ c ∈ offsetText offset, c.utf8Size = 1 := by
    intro c hc
    rcases List.mem_append.mp hc with hc | hc
    · exact Numeral.forall_mem_hex (P := fun c => c.utf8Size = 1) (by decide) 4 offset c hc
    · rw [show c = ' ' by simpa using hc]
      rfl
  have hcolumn : offsetText offset = Numeral.hex 4 offset ++ List.replicate 2 ' ' := rfl
  refine ⟨2 - (6 - (Numeral.hex 4 offset).length), ?_⟩
  rw [behind_append hsize (by simp [hcolumn]; omega), hcolumn, List.drop_append, List.drop_of_length_le h6,
    List.nil_append, List.drop_replicate]

/-! ## Runs of lines -/

/-- Lines that are taken in leave the others to be taken in behind them. -/
theorem State.lines_append {st mid : State} {n : Nat} {xs : List (List Char)} (hx : st.lines n xs = .ok mid)
    (ys : List (List Char)) : st.lines n (xs ++ ys) = mid.lines (n + xs.length) ys := by
  induction xs generalizing st n with
  | nil =>
    cases hx
    rfl
  | cons x xs ih =>
    rw [List.cons_append, State.lines]
    rw [State.lines] at hx
    cases h : st.line n x with
    | error p =>
      rw [h] at hx
      cases hx
    | ok next =>
      rw [h] at hx
      rw [List.length_cons, Nat.add_comm xs.length, ← Nat.add_assoc]
      exact ih hx

theorem State.lines_cons {st mid st' : State} {n : Nat} {x : List Char} {xs : List (List Char)}
    (hx : st.line n x = .ok mid) (hxs : mid.lines (n + 1) xs = .ok st') : st.lines n (x :: xs) = .ok st' := by
  rw [State.lines, hx]
  exact hxs

/-- Instructions written one below the other are added one after the other. -/
theorem lines_stepLines (st : State) (n blanks : Nat) {offset : Nat} {is : List Instruction}
    (hw : ∀ i ∈ is, i.WellShaped) (ho : offset + total (is.map Instruction.width) ≤ 16777216) :
    st.lines n ((stepLines (List.replicate blanks ' ') offset is).map (behind 6)) = .ok (is.foldl State.add st) := by
  induction is generalizing st n offset with
  | nil => rfl
  | cons i is ih =>
    rw [List.map_cons, total_cons] at ho
    have hpos := i.width_pos
    obtain ⟨k, hk⟩ := behind_offsetText (show offset < 16777216 by omega) (List.replicate blanks ' ' ++ i.text)
    rw [← List.append_assoc, ← List.append_assoc, List.replicate_append_replicate] at hk
    rw [stepLines, List.map_cons, hk]
    exact State.lines_cons (line_text st n _ (hw i List.mem_cons_self))
      (ih (st.add i) (n + 1) (fun j hj => hw j (List.mem_cons_of_mem i hj)) (by omega))

theorem foldl_add_opened (items : List Stream.Item) (opened : Nat) (steps is : List Instruction) :
    is.foldl State.add ⟨items, some (opened, steps)⟩ = ⟨items, some (opened, is.reverse ++ steps)⟩ := by
  induction is generalizing steps with
  | nil => rfl
  | cons i is ih =>
    rw [List.foldl_cons, State.add, ih, List.reverse_cons, List.append_assoc]
    rfl

/-- Taking in the lines of an item adds the item. -/
theorem lines_itemLines (items : List Stream.Item) (n : Nat) {item : Stream.Item} {offset : Nat} (hw : item.WellFormed)
    (ho : offset + item.width ≤ 16777216) :
    State.lines ⟨items, none⟩ n ((itemLines offset item).map (behind 6)) = .ok ⟨item :: items, none⟩ := by
  have hshaped := hw.shaped
  cases item with
  | plain i => exact lines_stepLines _ n 0 hshaped ho
  | group is =>
    obtain ⟨h2, h255, -, -⟩ := hw
    have hwidth : offset + 2 + total (is.map Instruction.width) ≤ 16777216 := by
      simp only [Stream.Item.width] at ho
      omega
    obtain ⟨k, hk⟩ := behind_offsetText (show offset < 16777216 by omega) (openText is.length)
    have hopen := line_openText items n k is.length
    have hsteps := lines_stepLines ⟨items, some (n, [])⟩ (n + 1) 4 hshaped hwidth
    have hclose : behind 6 [' ', ' ', ' ', ' ', ' ', ' ', '\x7d'] = ['\x7d'] := by decide
    rw [foldl_add_opened, List.append_nil] at hsteps
    have hlines : (itemLines offset (.group is)).map (behind 6) =
        behind 6 (offsetText offset ++ openText is.length) ::
          ((stepLines [' ', ' ', ' ', ' '] (offset + 2) is).map (behind 6) ++ [['\x7d']]) := by
      simp [itemLines, openText, hclose]
    rw [hlines, hk]
    refine State.lines_cons hopen ((State.lines_append hsteps _).trans (State.lines_cons (line_close ?_) ?_))
    · rw [List.length_reverse]
      exact h255
    · rw [List.reverse_reverse]
      rfl

/-! ## Whole listings -/

def linesFrom : (offset : Nat) → List Stream.Item → List (List Char)
  | _, [] => []
  | offset, item :: rest => itemLines offset item ++ linesFrom (offset + item.width) rest

def listItem (written : Array (List Char) × Nat) (item : Stream.Item) : Array (List Char) × Nat :=
  (written.1 ++ (itemLines written.2 item).toArray, written.2 + item.width)

theorem foldl_listItem (ls : Array (List Char)) (offset : Nat) (items : List Stream.Item) :
    (items.foldl listItem (ls, offset)).1.toList = ls.toList ++ linesFrom offset items := by
  induction items generalizing ls offset with
  | nil => simp [linesFrom]
  | cons item items ih => simp [listItem, ih, linesFrom]

def closingLines (doneAt : Option Nat) : List (List Char) :=
  (doneAt.map fun offset => offsetText offset ++ "done".toList).toList

theorem closingLines_some (offset : Nat) : closingLines (some offset) = [offsetText offset ++ [] ++ Instruction.done.text] := by
  rw [List.append_nil]
  rfl

theorem listingLines_eq (d : Stream.Decoded) : listingLines d = linesFrom 0 d.items ++ closingLines d.doneAt := by
  have h : listingLines d = (d.items.foldl listItem (#[], 0)).1.toList ++ closingLines d.doneAt := rfl
  rw [h, foldl_listItem]
  rfl

theorem newline_not_mem_offsetText (offset : Nat) : '\n' ∉ offsetText offset := by
  intro hc
  rcases List.mem_append.mp hc with hc | hc
  · exact Numeral.forall_mem_hex (P := fun c => c ≠ '\n') (by decide) 4 offset _ hc rfl
  · revert hc
    decide

theorem newline_not_mem_line {offset : Nat} {indent text : List Char} (hi : '\n' ∉ indent) (ht : Solid text) :
    '\n' ∉ offsetText offset ++ indent ++ text := by
  intro hc
  rcases List.mem_append.mp hc with hc | hc
  · rcases List.mem_append.mp hc with hc | hc
    · exact newline_not_mem_offsetText offset hc
    · exact hi hc
  · exact absurd (List.all_eq_true.mp ht.tame _ hc) (by decide)

theorem newline_not_mem_stepLines {indent : List Char} {offset : Nat} {is : List Instruction} (hi : '\n' ∉ indent)
    (hw : ∀ i ∈ is, i.WellShaped) : ∀ l ∈ stepLines indent offset is, '\n' ∉ l := by
  induction is generalizing offset with
  | nil =>
    intro l hl
    cases hl
  | cons i is ih =>
    intro l hl
    rcases List.mem_cons.mp hl with rfl | hl
    · exact newline_not_mem_line hi (Instruction.solid_text (hw i List.mem_cons_self))
    · exact ih (fun j hj => hw j (List.mem_cons_of_mem i hj)) l hl

theorem newline_not_mem_itemLines {item : Stream.Item} (offset : Nat) (hw : item.WellFormed) :
    ∀ l ∈ itemLines offset item, '\n' ∉ l := by
  have hshaped := hw.shaped
  cases item with
  | plain i => exact newline_not_mem_stepLines (by decide) hshaped
  | group is =>
    intro l hl
    rcases List.mem_cons.mp hl with rfl | hl
    · have h : '\n' ∉ offsetText offset ++ [] ++ openText is.length :=
        newline_not_mem_line (by decide) (solid_openText is.length)
      simpa [openText] using h
    rcases List.mem_append.mp hl with hl | hl
    · exact newline_not_mem_stepLines (by decide) hshaped l hl
    · rw [List.mem_singleton.mp hl]
      decide

theorem newline_not_mem_linesFrom {items : List Stream.Item} (offset : Nat) (hw : ∀ item ∈ items, item.WellFormed) :
    ∀ l ∈ linesFrom offset items, '\n' ∉ l := by
  induction items generalizing offset with
  | nil =>
    intro l hl
    cases hl
  | cons item items ih =>
    intro l hl
    rcases List.mem_append.mp hl with hl | hl
    · exact newline_not_mem_itemLines offset (hw item List.mem_cons_self) l hl
    · exact ih _ (fun x hx => hw x (List.mem_cons_of_mem item hx)) l hl

theorem lines_linesFrom {items : List Stream.Item} (before : List Stream.Item) (n : Nat) {offset : Nat}
    (hw : ∀ item ∈ items, item.WellFormed) (ho : offset + total (items.map Stream.Item.width) ≤ 16777216) :
    State.lines ⟨before, none⟩ n ((linesFrom offset items).map (behind 6)) = .ok ⟨items.reverse ++ before, none⟩ := by
  induction items generalizing before n offset with
  | nil => rfl
  | cons item items ih =>
    rw [List.map_cons, total_cons] at ho
    rw [linesFrom, List.map_append, List.reverse_cons, List.append_assoc]
    rw [State.lines_append (lines_itemLines before n (hw item List.mem_cons_self) (by omega))]
    exact ih (item :: before) _ (fun x hx => hw x (List.mem_cons_of_mem item hx)) (by omega)

theorem cutColumn_ofLines {ls : List (List Char)} (h : ∀ l ∈ ls, '\n' ∉ l) :
    cutColumn (String.ofList (Listing.ofLines ls)) = String.ofList (Listing.ofLines (ls.map (behind 6))) := by
  rw [cutColumn, String.toList_ofList, Text.lines_ofLines h, List.map_append, ← Text.intercalate_concat_nil]
  rfl

theorem parse_ofLines {ls : List (List Char)} {items : List Stream.Item} (h : ∀ l ∈ ls, '\n' ∉ l)
    (hrun : State.lines {} 1 ls = .ok ⟨items, none⟩) : parse (Listing.ofLines ls) = .ok items.reverse := by
  have hend : State.lines {} 1 (ls ++ [[]]) = .ok ⟨items, none⟩ := State.lines_append hrun [[]]
  rw [parse, Text.lines_ofLines h, hend]

theorem newline_not_mem_closingLines (doneAt : Option Nat) : ∀ l ∈ closingLines doneAt, '\n' ∉ l := by
  intro l hl
  cases doneAt with
  | none => cases hl
  | some offset =>
    rw [closingLines_some, List.mem_singleton] at hl
    rw [hl]
    exact newline_not_mem_line (by decide) (Instruction.solid_text ⟨rfl, rfl, rfl⟩)

theorem lines_closingLines (items : List Stream.Item) (n : Nat) {doneAt : Option Nat}
    (h : ∀ offset, doneAt = some offset → offset < 16777216) :
    State.lines ⟨items, none⟩ n ((closingLines doneAt).map (behind 6)) =
      .ok ⟨(if doneAt.isSome then [.plain .done] else []) ++ items, none⟩ := by
  cases doneAt with
  | none => rfl
  | some offset =>
    obtain ⟨k, hk⟩ := behind_offsetText (h offset rfl) ([] ++ Instruction.done.text)
    rw [closingLines_some, List.append_assoc, List.map_singleton, hk]
    exact State.lines_cons (line_text _ n k ⟨rfl, rfl, rfl⟩) rfl

/-- A listing without its offsets is read as the items it was written for. -/
theorem parse_listing {d : Stream.Decoded} (hw : ∀ item ∈ d.items, item.WellFormed)
    (hl : total (d.items.map Stream.Item.width) ≤ 16777216)
    (hd : ∀ offset, d.doneAt = some offset → offset < 16777216) :
    parse (cutColumn (String.ofList (Listing.ofLines (listingLines d)))).toList =
      .ok (d.items ++ d.script.closing) := by
  have hnl : ∀ l ∈ listingLines d, '\n' ∉ l := by
    intro l hl
    rw [listingLines_eq] at hl
    rcases List.mem_append.mp hl with hl | hl
    · exact newline_not_mem_linesFrom 0 hw l hl
    · exact newline_not_mem_closingLines d.doneAt l hl
  have hcut : ∀ l ∈ (listingLines d).map (behind 6), '\n' ∉ l := by
    intro l hl hc
    obtain ⟨whole, hm, rfl⟩ := List.mem_map.mp hl
    exact hnl whole hm ((behind_suffix 6 whole).subset hc)
  have hrun := lines_linesFrom [] 1 hw (by omega : 0 + _ ≤ 16777216)
  have hall := (State.lines_append hrun _).trans (lines_closingLines _ _ hd)
  rw [← List.map_append, ← listingLines_eq] at hall
  rw [cutColumn_ofLines hnl, String.toList_ofList, parse_ofLines hcut hall, Stream.Script.closing, Stream.Decoded.script]
  cases d.doneAt with
  | none => simp
  | some offset => simp

end Assembly

end LaneScript
