/-
  LaneScript.Proofs.SourceLines — the lines of source text and the items they spell.

  A line is blank, opens a group, closes one or holds an instruction; `Line.Written` says
  how each of them is written. An item has its lines: the one of a plain instruction, or
  those of the steps of a group between an opening and a closing line. A text spells items
  just where its lines, the blank ones left out, are those of the items in their order,
  and no group has more than 255 steps (`parse_eq_ok_iff`): each line taken in is added to
  the lines that the state stands for (`said_take`), and a state takes in every line that
  it waits for (`Awaits.take`).
-/
import LaneScript.Proofs.Reassembly
import LaneScript.Proofs.Tokens

namespace LaneScript

theorem Opcode.mnemonic_of_ofMnemonic? {name : String} {o : Opcode} (h : ofMnemonic? name = some o) : o.mnemonic = name := by
  simpa using List.find?_some h

/-! ## Lines -/

namespace Assembly

inductive Line where
  | blank
  | opening
  | closing
  | code (i : Instruction)
  deriving DecidableEq, Repr

/-- The text is a word, or a word and the rest behind a blank. -/
def Splits (text word rest : List Char) : Prop :=
  text = word ∧ rest = [] ∨ ∃ c, Text.isBlank c = true ∧ text = word ++ c :: rest

/-- How a line is written that says so, its comment and the blanks at its ends left out. -/
def Line.Written : Line → (text : List Char) → Prop
  | .blank, text => text = []
  | .opening, text => ∃ rest, Splits text (Opcode.mnemonic .fused).toList rest ∧ rest.getLast? = some '\x7b'
  | .closing, text => text = ['\x7d']
  | .code i, text => ∃ rest, Splits text i.opcode.mnemonic.toList rest ∧ i.WellShaped ∧ Spells i.operandTokens rest

def Line.code? : Line → Option Instruction
  | .code i => some i
  | _ => none

def nonblank (ls : List Line) : List Line := ls.filter (· ≠ .blank)

end Assembly

def Stream.Item.lines : Stream.Item → List Assembly.Line
  | .plain i => [.code i]
  | .group steps => .opening :: steps.map .code ++ [.closing]

namespace Assembly

structure IsSource (text : List Char) (ls : List Line) (items : List Stream.Item) : Prop where
  written : List.Forall₂ (fun raw l => Line.Written l (stripped raw)) (Text.lines text) ls
  blocks : nonblank ls = items.flatMap Stream.Item.lines
  short : ∀ steps, .group steps ∈ items → steps.length ≤ 255

theorem splitMnemonic_eq_iff {text word rest : List Char} :
    splitMnemonic text = (word, rest) ↔ (∀ c ∈ word, Text.isBlank c = false) ∧ Splits text word rest := by
  apply Iff.intro
  · intro h
    obtain ⟨rfl, rfl⟩ := Prod.mk.inj h
    refine ⟨fun c hc => by simpa using List.mem_takeWhile_imp hc, ?_⟩
    have e := @List.takeWhile_append_dropWhile _ (!Text.isBlank ·) text
    cases hd : text.dropWhile (!Text.isBlank ·) with
    | nil =>
      rw [hd, List.append_nil] at e
      exact .inl ⟨e.symm, rfl⟩
    | cons c rest =>
      have hc := List.head?_dropWhile_not (!Text.isBlank ·) text
      rw [hd] at hc e
      exact .inr ⟨c, by simpa using hc, e.symm⟩
  · intro h
    obtain ⟨hword, h⟩ := h
    have hword : ∀ c ∈ word, (!Text.isBlank c) = true := fun c hc => by rw [hword c hc]; rfl
    rcases h with ⟨rfl, rfl⟩ | ⟨c, hc, rfl⟩
    · rw [splitMnemonic, List.takeWhile_eq_self_iff.mpr hword, List.dropWhile_eq_nil_iff.mpr hword]
      rfl
    · rw [splitMnemonic, List.takeWhile_append_of_pos hword, List.dropWhile_append_of_pos hword]
      simp [hc]

theorem split_mnemonic {text rest : List Char} {o : Opcode} (h : Splits text o.mnemonic.toList rest) :
    splitMnemonic text = (o.mnemonic.toList, rest) :=
  splitMnemonic_eq_iff.mpr ⟨fun c hc => (o.mnemonic_chars c hc).2.1, h⟩

/-- A text that begins with a mnemonic is neither empty nor a brace. -/
theorem ne_of_splits {text rest : List Char} {o : Opcode} (h : Splits text o.mnemonic.toList rest) :
    text ≠ [] ∧ text ≠ ['\x7d'] := by
  obtain ⟨c, cs, hc⟩ := List.exists_cons_of_ne_nil o.mnemonic_word.1
  have hbrace := (o.mnemonic_chars c (by rw [hc]; exact List.mem_cons_self)).2.2
  have hhead : ∃ more, text = c :: more := by
    rcases h with ⟨rfl, -⟩ | ⟨d, -, rfl⟩
    · exact ⟨cs, hc⟩
    · exact ⟨cs ++ d :: rest, by rw [hc]; rfl⟩
  obtain ⟨more, rfl⟩ := hhead
  exact ⟨List.cons_ne_nil c more, fun e => hbrace (List.cons.inj e).1⟩

/-! ## One line -/

def State.take (st : State) (number : Nat) : Line → Except Problem State
  | .blank => .ok st
  | .opening => if st.opened.isSome then .error .nestedGroup else .ok { st with opened := some (number, []) }
  | .closing => st.close
  | .code i => .ok (st.add i)

variable {st st' : State} {n : Nat} {raw : List Char} {l : Line}

theorem line_of_written (h : l.Written (stripped raw)) (st : State) (n : Nat) : st.line n raw = st.take n l := by
  cases l with
  | blank =>
    have h : stripped raw = [] := h
    simp only [State.line, h, State.take]
  | closing =>
    have h : stripped raw = ['\x7d'] := h
    simp only [State.line, h, State.take]
  | opening =>
    obtain ⟨rest, hs, hlast⟩ := h
    have hsplit := split_mnemonic hs
    obtain ⟨hne, hbrace⟩ := ne_of_splits hs
    have hname : String.ofList (Opcode.mnemonic .fused).toList = "fused" := rfl
    rw [State.line_eq st n hne hbrace, hsplit, if_pos hname]
    simp only [State.openAt, hlast, if_true, State.take]
  | code i =>
    obtain ⟨rest, hs, hw, hspell⟩ := h
    have hsplit := split_mnemonic hs
    obtain ⟨hne, hbrace⟩ := ne_of_splits hs
    have hfused : i.opcode.mnemonic ≠ "fused" := by
      intro e
      exact Instruction.opcode_ne_fused hw (Opcode.eq_fused_of_mnemonic e)
    rw [State.line_eq st n hne hbrace, hsplit, String.ofList_toList, if_neg hfused, Opcode.ofMnemonic?_mnemonic,
      Option.elim_some, instruction_eq_ok_iff.mpr ⟨rfl, hw, hspell⟩]
    rfl

/-- A line that is taken in says something. -/
theorem exists_written (h : st.line n raw = .ok st') : ∃ l, Line.Written l (stripped raw) := by
  by_cases hempty : stripped raw = []
  · exact ⟨.blank, hempty⟩
  by_cases hbrace : stripped raw = ['\x7d']
  · exact ⟨.closing, hbrace⟩
  rw [State.line_eq st n hempty hbrace] at h
  obtain ⟨word, rest, hsplit⟩ : ∃ word rest, splitMnemonic (stripped raw) = (word, rest) := ⟨_, _, rfl⟩
  obtain ⟨-, hs⟩ := splitMnemonic_eq_iff.mp hsplit
  rw [hsplit] at h
  by_cases hname : String.ofList word = "fused"
  · obtain rfl : word = (Opcode.mnemonic .fused).toList := by
      rw [← String.toList_ofList (l := word), hname]
      rfl
    rw [if_pos hname] at h
    unfold State.openAt at h
    split at h
    · cases h
    · split at h
      · exact ⟨.opening, rest, hs, ‹_›⟩
      · cases h
  · rw [if_neg hname] at h
    cases ho : Opcode.ofMnemonic? (String.ofList word) with
    | none =>
      rw [ho] at h
      cases h
    | some opcode =>
      rw [ho] at h
      cases hi : instruction opcode rest with
      | error p =>
        rw [Option.elim_some, hi] at h
        cases h
      | ok i =>
        obtain ⟨rfl, hw, hspell⟩ := instruction_eq_ok_iff.mp hi
        have hword : i.opcode.mnemonic.toList = word := by
          rw [Opcode.mnemonic_of_ofMnemonic? ho, String.toList_ofList]
        exact ⟨.code i, rest, hword ▸ hs, hw, hspell⟩

/-! ## All lines -/

def State.said (st : State) : List Line :=
  st.items.reverse.flatMap Stream.Item.lines ++
    match st.opened with
    | none => []
    | some (_, steps) => .opening :: steps.reverse.map .code

theorem said_none (items : List Stream.Item) : State.said ⟨items, none⟩ = items.reverse.flatMap Stream.Item.lines :=
  List.append_nil _

theorem said_take (h : st.take n l = .ok st') : st'.said = st.said ++ nonblank [l] := by
  obtain ⟨items, opened⟩ := st
  cases l with
  | blank =>
    cases h
    exact (List.append_nil _).symm
  | opening =>
    cases opened with
    | some o => cases h
    | none =>
      cases h
      simp [State.said, nonblank]
  | closing =>
    cases opened with
    | none => cases h
    | some o =>
      obtain ⟨line, steps⟩ := o
      simp only [State.take, State.close] at h
      split at h
      · cases h
      · cases h
        simp [State.said, nonblank, Stream.Item.lines]
  | code i =>
    cases h
    cases opened with
    | none => simp [State.said, State.add, nonblank, Stream.Item.lines]
    | some o => simp [State.said, State.add, nonblank]

theorem nonblank_cons (l : Line) (ls : List Line) : nonblank (l :: ls) = nonblank [l] ++ nonblank ls :=
  List.filter_append [l] ls

theorem said_lines {raws : List (List Char)} (h : st.lines n raws = .ok st') :
    ∃ ls, List.Forall₂ (fun raw l => Line.Written l (stripped raw)) raws ls ∧ st'.said = st.said ++ nonblank ls := by
  induction raws generalizing st n with
  | nil =>
    cases h
    exact ⟨[], .nil, (List.append_nil _).symm⟩
  | cons raw raws ih =>
    rw [State.lines] at h
    split at h
    · cases h
    · rename_i mid hm
      obtain ⟨l, hl⟩ := exists_written hm
      rw [line_of_written hl] at hm
      obtain ⟨ls, hls, hsaid⟩ := ih h
      refine ⟨l :: ls, .cons hl hls, ?_⟩
      rw [hsaid, said_take hm, List.append_assoc, ← nonblank_cons]

/-- The lines that a state waits for, to end with the given items, newest first. -/
inductive State.Awaits : State → List Line → List Stream.Item → Prop
  | outside (done items : List Stream.Item) (short : ∀ steps, .group steps ∈ items → steps.length ≤ 255) :
    Awaits ⟨done, none⟩ (items.flatMap Stream.Item.lines) (items.reverse ++ done)
  | inside (done items : List Stream.Item) (opened : Nat) (steps more : List Instruction)
      (room : steps.length + more.length ≤ 255) (short : ∀ steps, .group steps ∈ items → steps.length ≤ 255) :
    Awaits ⟨done, some (opened, steps)⟩ (more.map .code ++ .closing :: items.flatMap Stream.Item.lines)
      (items.reverse ++ .group (steps.reverse ++ more) :: done)

/-- A state takes in the line that it waits for next. -/
theorem State.Awaits.take {ls wanted : List Line} {out : List Stream.Item} (h : st.Awaits wanted out)
    (e : wanted = l :: ls) (n : Nat) : ∃ st', st.take n l = .ok st' ∧ st'.Awaits ls out := by
  cases h with
  | outside done items short =>
    cases items with
    | nil => cases e
    | cons item items =>
      have hshort : ∀ steps, .group steps ∈ items → steps.length ≤ 255 :=
        fun steps hs => short steps (List.mem_cons_of_mem item hs)
      rw [List.reverse_cons, List.append_assoc]
      cases item with
      | plain i =>
        cases e
        exact ⟨_, rfl, .outside (.plain i :: done) items hshort⟩
      | group steps =>
        have hroom : ([] : List Instruction).length + steps.length ≤ 255 := by
          rw [List.length_nil, Nat.zero_add]
          exact short steps List.mem_cons_self
        have hlines : (Stream.Item.group steps :: items).flatMap Stream.Item.lines =
            .opening :: (steps.map .code ++ .closing :: items.flatMap Stream.Item.lines) := by
          simp [Stream.Item.lines]
        rw [hlines] at e
        cases e
        exact ⟨_, rfl, .inside done items n [] steps hroom hshort⟩
  | inside done items opened steps more room short =>
    cases more with
    | nil =>
      cases e
      refine ⟨⟨.group steps.reverse :: done, none⟩, ?_, ?_⟩
      · exact if_neg (show ¬255 < steps.length from Nat.not_lt.mpr room)
      · rw [List.append_nil]
        exact .outside (.group steps.reverse :: done) items short
    | cons i more =>
      have hroom : (i :: steps).length + more.length ≤ 255 := by
        rw [List.length_cons] at room ⊢
        omega
      cases e
      have hmore := Awaits.inside done items opened (i :: steps) more hroom short
      rw [List.reverse_cons, List.append_assoc] at hmore
      exact ⟨_, rfl, hmore⟩

theorem State.Awaits.eq_of_nil {out : List Stream.Item} (h : st.Awaits [] out) : st = ⟨out, none⟩ := by
  generalize e : ([] : List Line) = wanted at h
  cases h with
  | outside done items short =>
    cases items with
    | nil => rfl
    | cons item items => cases item <;> cases e
  | inside done items opened steps more room short => cases more <;> cases e

/-- A state takes in all the lines that it waits for, with blank ones among them. -/
theorem State.Awaits.lines {raws : List (List Char)} {ls : List Line} {out : List Stream.Item}
    (hw : List.Forall₂ (fun raw l => Line.Written l (stripped raw)) raws ls) (h : st.Awaits (nonblank ls) out) (n : Nat) :
    st.lines n raws = .ok ⟨out, none⟩ := by
  induction hw generalizing st n with
  | nil =>
    rw [h.eq_of_nil]
    rfl
  | @cons raw l raws ls hl _ ih =>
    have hline := line_of_written hl st n
    by_cases hblank : l = .blank
    · subst hblank
      exact State.lines_cons hline (ih h (n + 1))
    · have hnext : nonblank (l :: ls) = l :: nonblank ls := List.filter_cons_of_pos (by simpa using hblank)
      obtain ⟨st', htake, hmore⟩ := h.take hnext n
      exact State.lines_cons (hline.trans htake) (ih hmore (n + 1))

/-- A text spells items just where its lines are theirs. -/
theorem parse_eq_ok_iff {text : List Char} {items : List Stream.Item} :
    parse text = .ok items ↔ ∃ ls, IsSource text ls items := by
  apply Iff.intro
  · intro h
    have hshaped := shaped_of_parse h
    unfold parse at h
    split at h
    · cases h
    · cases h
    · rename_i found hrun
      cases h
      obtain ⟨ls, hls, hsaid⟩ := said_lines hrun
      refine ⟨ls, hls, ?_, fun steps hsteps => (hshaped _ hsteps).1⟩
      rw [said_none] at hsaid
      exact hsaid.symm
  · intro h
    obtain ⟨ls, h⟩ := h
    have hstart : State.Awaits {} (nonblank ls) (items.reverse ++ []) := h.blocks ▸ .outside [] items h.short
    unfold parse
    rw [hstart.lines h.written]
    simp

/-! ## The instructions of a text -/

theorem code_nonblank (ls : List Line) : (nonblank ls).filterMap Line.code? = ls.filterMap Line.code? := by
  induction ls with
  | nil => rfl
  | cons l ls ih =>
    rw [nonblank_cons, List.filterMap_append, ih]
    cases l <;> rfl

theorem code_lines (item : Stream.Item) : item.lines.filterMap Line.code? = item.instructions := by
  cases item with
  | plain i => rfl
  | group steps =>
    have hsteps : (steps.map Line.code).filterMap Line.code? = steps := by
      rw [List.filterMap_map]
      exact List.filterMap_some
    show List.filterMap Line.code? (steps.map .code ++ [.closing]) = steps
    rw [List.filterMap_append, hsteps]
    exact List.append_nil steps

/-- The instructions of the lines are those of the items. -/
theorem IsSource.instructions {text : List Char} {ls : List Line} {items : List Stream.Item}
    (h : IsSource text ls items) : ls.filterMap Line.code? = items.flatMap Stream.Item.instructions := by
  rw [← code_nonblank, h.blocks, List.filterMap_flatMap]
  exact congrArg items.flatMap (funext code_lines)

theorem IsSource.shaped {text : List Char} {ls : List Line} {items : List Stream.Item}
    (h : IsSource text ls items) : ∀ item ∈ items, item.Shaped := shaped_of_parse (parse_eq_ok_iff.mpr ⟨ls, h⟩)

theorem assemble_eq_ok_iff {source : String} {code : Bytes} : assemble source = .ok code ↔
    ∃ ls items, IsSource source.toList ls items ∧ code = Stream.encode items := by
  apply Iff.intro
  · intro h
    obtain ⟨items, hp, h⟩ := Emission.bind_ok h
    cases h
    obtain ⟨ls, hls⟩ := parse_eq_ok_iff.mp hp
    exact ⟨ls, items, hls, rfl⟩
  · intro h
    obtain ⟨ls, items, hls, rfl⟩ := h
    rw [assemble, parse_eq_ok_iff.mpr ⟨ls, hls⟩]
    rfl

end Assembly

end LaneScript
