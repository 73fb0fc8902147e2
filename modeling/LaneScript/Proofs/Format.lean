/-
  LaneScript.Proofs.Format — the streams that reading accepts.

  A script is a list of items, closed by `done` or not. `Script.WellFormed` is the format
  in its own words: plain instructions with the operands their opcode asks for, groups of
  2 to 255 steps each of which hands the accumulator to the next, calls of functions the
  host has, one operand count per function. A stream `Spells` a script when it is the
  script's encoding but for bits that carry no meaning.

  Proved: reading succeeds on a stream just where it spells a well-formed script, and then
  it yields that script: the items, the shape of every function called, the offset of
  `done`, and for each instruction its number, its offset and its links.
-/
import LaneScript.Proofs.Items

namespace LaneScript

/-! ## Widths -/

namespace Instruction

theorem length_callWords (ss : List Source) : (callWords ss).length = 3 * ss.length := by
  induction ss with
  | nil => rfl
  | cons s ss ih =>
    rw [callWords, List.flatMap_cons, List.length_append, ← callWords, ih]
    simp only [List.length_cons, Bytes.length_word]
    omega

/-- The encoding of an instruction is as long as its width says. -/
theorem length_encode (i : Instruction) : i.encode.length = i.width := by
  have hs := length_sourceWords i.sources
  have hd := length_destWords i.dests
  have hc := length_callWords i.sources
  obtain ⟨opcode, payload, ss, ds⟩ := i
  cases opcode <;> simp only [encode, encodeBody, width, firstDestWord, callWords, List.length_cons, List.length_append,
    List.length_nil, Bytes.length_word] at hs hd hc ⊢
  case enterScope => cases payload <;> rfl
  case exitScope => cases payload <;> rfl
  all_goals omega

theorem width_pos (i : Instruction) : 0 < i.width := by
  rw [← i.length_encode]
  exact Nat.succ_pos _

end Instruction

namespace Stream

theorem length_flatMap_encode (is : List Instruction) :
    (is.flatMap Instruction.encode).length = total (is.map Instruction.width) := by
  induction is with
  | nil => rfl
  | cons i is ih => simp only [List.flatMap_cons, List.length_append, ih, i.length_encode, List.map_cons, total_cons]

theorem Item.length_encode (item : Item) : item.encode.length = item.width := by
  cases item with
  | plain i => exact i.length_encode
  | group is =>
    simp only [encode, width, List.length_cons, length_flatMap_encode]
    omega

theorem length_encode (items : List Item) : (encode items).length = total (items.map Item.width) := by
  induction items with
  | nil => rfl
  | cons item items ih =>
    rw [encode, List.flatMap_cons, List.length_append, ← encode, ih, item.length_encode, List.map_cons, total_cons]

/-! ## The format -/

structure IsPlain (i : Instruction) : Prop where
  shaped : i.WellShaped
  running : i.opcode ≠ .done
  sources : .acc ∉ i.sources
  dests : .acc ∉ i.dests

/-- Step `k` of a group of `n`: all but the first take the accumulator, all but the last hand it on. -/
structure IsStepAt (n k : Nat) (i : Instruction) : Prop where
  shaped : i.WellShaped
  category : i.category = .compute ∨ i.category = .output
  takes : i.sources.count .acc = if k = 0 then 0 else 1
  hands : .acc ∈ i.dests ↔ k + 1 < n

def Item.Allowed : Item → Prop
  | .plain i => IsPlain i
  | .group is => 2 ≤ is.length ∧ is.length ≤ 255 ∧ ∀ (k : Nat) (i : Instruction), is[k]? = some i → IsStepAt is.length k i

namespace Script

def instructions (s : Script) : List Instruction := s.items.flatMap Item.instructions

def calls (s : Script) : List (UInt16 × CallShape) := s.instructions.filterMap Instruction.call?

/-- What a host with `functions` functions can run. -/
structure WellFormed (functions : Nat) (s : Script) : Prop where
  table : functions ≤ maxFunctions
  items : ∀ item ∈ s.items, item.Allowed
  known : ∀ c ∈ s.calls, c.1.toNat < functions
  agree : ∀ c ∈ s.calls, ∀ c' ∈ s.calls, c.1 = c'.1 → c.2 = c'.2

def Spells (s : Script) (code : Bytes) : Prop := Bytes.Agree s.loose s.encode code

structure Yields (functions : Nat) (s : Script) (d : Decoded) : Prop where
  items : d.items = s.items
  doneAt : d.doneAt = if s.closed then some (s.encode.length - 1) else none
  table : d.calls.size = functions
  calls : ∀ (f : Nat) (shape : CallShape),
    d.calls[f]? = some (some shape) ↔ ∃ c ∈ s.calls, c.1.toNat = f ∧ c.2 = shape
  size : d.program.size = s.instructions.length
  /-- Instruction `k` of an item stands behind the items before it, the item's header and the `k` instructions before
      it; it is linked to the next one of the item and to the one before. -/
  nodes : ∀ (front : List Item) (item : Item) (back : List Item), s.items = front ++ item :: back →
    ∀ (k : Nat) (i : Instruction), item.instructions[k]? = some i →
      ∃ n, d.program[(front.flatMap Item.instructions).length + k]? = some n ∧ n.instr = i ∧
        n.offset = (Stream.encode front).length + item.lead + ((item.instructions.take k).flatMap Instruction.encode).length ∧
        n.feeds = (if k + 1 < item.instructions.length then
          some (((front.flatMap Item.instructions).length + k + 1 : Nat) : Int) else none) ∧
        n.fedBy = (if k = 0 then none else some ((front.flatMap Item.instructions).length + k - 1))

end Script

theorem isStep_iff {n k : Nat} {i : Instruction} : IsStepAt n k i ↔ IsStep i ∧
    i.sources.count .acc = (if k = 0 then 0 else 1) ∧ (.acc ∈ i.dests ↔ k + 1 < n) := by
  constructor
  · intro h
    exact ⟨⟨⟨h.shaped, fun _ => ⟨rfl, h.category⟩⟩, h.category⟩, h.takes, h.hands⟩
  · intro h
    obtain ⟨⟨hf, hc⟩, ht, hh⟩ := h
    exact ⟨hf.shaped, hc, ht, hh⟩

/-- A step that takes and hands on the accumulator as its number says is admitted to its place. -/
theorem IsStepAt.admits {n k : Nat} {i : Instruction} (hn : 2 ≤ n) (hk : k < n) (h : IsStepAt n k i) :
    (Place.of k (n - (k + 1))).admits i = true := by
  have hs : i.storesAcc = true ↔ k + 1 < n := by
    rw [Instruction.storesAcc, List.contains_iff_mem]
    exact h.hands
  have ht := h.takes
  unfold Place.of
  by_cases h0 : k = 0
  · rw [if_pos h0] at ht ⊢
    rw [Place.admits, ht, hs.mpr (by omega)]
    rfl
  rw [if_neg h0] at ht ⊢
  by_cases hl : n - (k + 1) = 0
  · have hno : i.storesAcc = false := by
      rw [← Bool.not_eq_true, hs]
      omega
    rw [if_pos hl, Place.admits, ht, hno]
    rfl
  · rw [if_neg hl, Place.admits, ht, hs.mpr (by omega)]
    rfl

/-- The format asks of an item what reading finds. -/
theorem Item.allowed_iff {item : Item} : item.Allowed ↔ item.WellFormed := by
  cases item with
  | plain i =>
    constructor
    · intro h
      refine ⟨⟨h.shaped, fun m => ?_⟩, h.running⟩
      rcases m with m | m
      · exact absurd m h.sources
      · exact absurd m h.dests
    · intro h
      obtain ⟨hs, hd⟩ := h.no_acc_of_plain
      exact ⟨h.1.shaped, h.2, hs, hd⟩
  | group is =>
    constructor
    · intro h
      obtain ⟨h2, h255, hk⟩ := h
      refine ⟨h2, h255, fun i hi => ?_, handOn_of_admits fun k i hi => ?_⟩
      · obtain ⟨k, hi⟩ := List.getElem?_of_mem hi
        exact (isStep_iff.mp (hk k i hi)).1
      · rw [Nat.zero_add]
        exact (hk k i hi).admits h2 (List.getElem?_eq_some_iff.mp hi).1
    · intro h
      refine ⟨h.1, h.2.1, fun k i hi => ?_⟩
      obtain ⟨hh, ht⟩ := h.acc_of_group hi
      exact isStep_iff.mpr ⟨h.2.2.1 i (List.mem_of_getElem? hi), ht, hh⟩

/-! ## The table of shapes -/

namespace CallTable

structure Shows (n : Nat) (calls : List (UInt16 × CallShape)) (table : CallTable) : Prop where
  size : table.size = n
  entry : ∀ (f : Nat) (shape : CallShape),
    table[f]? = some (some shape) ↔ ∃ c ∈ calls, c.1.toNat = f ∧ c.2 = shape

theorem shows_replicate (n : Nat) : Shows n [] (Array.replicate n none) := by
  refine ⟨by simp, fun f shape => ?_⟩
  simp [Array.getElem?_replicate]

variable {n : Nat} {calls more : List (UInt16 × CallShape)} {table table' : CallTable} {f : UInt16} {shape : CallShape}

/-- Calls that a table shows agree on the shape of each function. -/
theorem Shows.agree (h : Shows n calls table) {c c' : UInt16 × CallShape} (hc : c ∈ calls) (hc' : c' ∈ calls)
    (e : c.1 = c'.1) : c.2 = c'.2 := by
  have h1 := (h.entry c.1.toNat c.2).mpr ⟨c, hc, rfl, rfl⟩
  have h2 := (h.entry c.1.toNat c'.2).mpr ⟨c', hc', by rw [e], rfl⟩
  rw [h1] at h2
  exact Option.some.inj (Option.some.inj h2)

/-- What recording one call comes to. -/
theorem Shows.record_iff (h : Shows n calls table) : table.record f shape = .ok table' ↔
    f.toNat < n ∧ (∀ c ∈ calls, c.1 = f → c.2 = shape) ∧ table' = table.set! f.toNat (some shape) := by
  have hsize := h.size
  unfold record
  split
  · -- The table has no such function.
    rename_i hf
    have := Array.getElem?_eq_none_iff.mp hf
    constructor
    · intro hr
      cases hr
    · intro hr
      omega
  · -- The function was not called before.
    rename_i hf
    have hlt := (Array.getElem?_eq_some_iff.mp hf).1
    constructor
    · intro hr
      cases hr
      refine ⟨by omega, fun c hc e => ?_, rfl⟩
      have hshown := (h.entry f.toNat c.2).mpr ⟨c, hc, by rw [e], rfl⟩
      rw [hf] at hshown
      cases hshown
    · intro hr
      rw [hr.2.2]
  · rename_i seen hf
    have hlt := (Array.getElem?_eq_some_iff.mp hf).1
    obtain ⟨c, hc, hcf, hcs⟩ := (h.entry f.toNat seen).mp hf
    have hcf : c.1 = f := UInt16.toNat_inj.mp hcf
    by_cases he : seen = shape
    · -- Setting what stands there changes nothing.
      have hset : table.set! f.toNat (some shape) = table := by
        apply Array.ext_getElem?
        intro k
        rw [Array.set!_eq_setIfInBounds, Array.getElem?_setIfInBounds]
        split
        · rename_i e
          rw [← e, hf, he]
        · rfl
      rw [if_pos he, hset]
      constructor
      · intro hr
        cases hr
        refine ⟨by omega, fun c' hc' e => ?_, rfl⟩
        rw [← he, ← hcs]
        exact h.agree hc' hc (by rw [e, hcf])
      · intro hr
        rw [hr.2.2]
    · rw [if_neg he]
      constructor
      · intro hr
        cases hr
      · intro hr
        exact absurd (hcs.symm.trans (hr.2.1 c hc hcf)) he

theorem Shows.record (h : Shows n calls table) (hr : table.record f shape = .ok table') :
    Shows n (calls ++ [(f, shape)]) table' := by
  obtain ⟨hf, ha, rfl⟩ := h.record_iff.mp hr
  have hsize := h.size
  refine ⟨by simpa using hsize, fun k s => ?_⟩
  rw [Array.set!_eq_setIfInBounds, Array.getElem?_setIfInBounds]
  by_cases e : f.toNat = k
  · rw [if_pos e, if_pos (by omega)]
    constructor
    · intro hs
      cases hs
      exact ⟨(f, shape), by simp, e, rfl⟩
    · intro hs
      obtain ⟨c, hc, hk, rfl⟩ := hs
      rcases List.mem_append.mp hc with hc | hc
      · rw [ha c hc (UInt16.toNat_inj.mp (hk.trans e.symm))]
      · rw [List.mem_singleton.mp hc]
  · rw [if_neg e, h.entry]
    constructor
    · intro hs
      obtain ⟨c, hc, hk⟩ := hs
      exact ⟨c, List.mem_append_left _ hc, hk⟩
    · intro hs
      obtain ⟨c, hc, hk, hcs⟩ := hs
      rcases List.mem_append.mp hc with hc | hc
      · exact ⟨c, hc, hk, hcs⟩
      · rw [List.mem_singleton.mp hc] at hk
        exact absurd hk e

/-- The table that a list of calls leaves shows them, and they agree with it. -/
theorem Shows.recordAll (h : Shows n calls table)
    (hr : more.foldlM (fun t c => t.record c.1 c.2) table = .ok table') :
    Shows n (calls ++ more) table' ∧ ∀ c ∈ more, c.1.toNat < n := by
  induction more generalizing calls table with
  | nil =>
    cases hr
    exact ⟨by simpa using h, by simp⟩
  | cons c more ih =>
    rw [List.foldlM_cons] at hr
    cases hc : table.record c.1 c.2 with
    | error e =>
      rw [hc] at hr
      cases hr
    | ok mid =>
      rw [hc] at hr
      obtain ⟨hshow, hall⟩ := ih (h.record hc) hr
      refine ⟨by simpa using hshow, fun x hx => ?_⟩
      rcases List.mem_cons.mp hx with rfl | hx
      · exact (h.record_iff.mp hc).1
      · exact hall x hx

/-- Calls of known functions that agree with each other can be recorded. -/
theorem Shows.recordAll_isOk (h : Shows n calls table) (hk : ∀ c ∈ more, c.1.toNat < n)
    (ha : ∀ c ∈ calls ++ more, ∀ c' ∈ calls ++ more, c.1 = c'.1 → c.2 = c'.2) :
    ∃ table', more.foldlM (fun t c => t.record c.1 c.2) table = .ok table' := by
  induction more generalizing calls table with
  | nil => exact ⟨table, rfl⟩
  | cons c more ih =>
    have hc : table.record c.1 c.2 = .ok (table.set! c.1.toNat (some c.2)) := by
      apply h.record_iff.mpr
      refine ⟨hk c List.mem_cons_self, fun x hx e => ?_, rfl⟩
      exact ha x (List.mem_append_left _ hx) c (by simp) e
    obtain ⟨table', ht⟩ := ih (h.record hc) (fun x hx => hk x (List.mem_cons_of_mem _ hx))
      (by rw [List.append_assoc]; exact ha)
    refine ⟨table', ?_⟩
    rw [List.foldlM_cons, hc]
    exact ht

end CallTable

/-! ## Reading -/

namespace Script

variable {s : Script} {functions : Nat} {code : Bytes} {d : Decoded}

theorem doneFrom_zero (s : Script) : s.doneFrom 0 = if s.closed then some (s.encode.length - 1) else none := by
  unfold doneFrom
  split
  · rename_i hc
    simp [encode, hc, length_encode]
  · rfl

theorem visitAll_eq (s : Script) (hw : ∀ item ∈ s.items, item.Allowed) (table : CallTable) :
    table.visitAll s.items = s.calls.foldlM (fun t c => t.record c.1 c.2) table :=
  visitAll_eq_recordAll table fun item hi => Item.allowed_iff.mp (hw item hi)

/-- What is read is a well-formed script that the stream spells. -/
theorem wellFormed_of_decode (h : decode code functions = .ok d) :
    ∃ s : Script, s.WellFormed functions ∧ s.Spells code := by
  obtain ⟨hn, hw, hc, closed, -, ha⟩ := decode_eq_ok_iff.mp h
  have hitems : ∀ item ∈ d.items, item.Allowed := fun item hi => Item.allowed_iff.mpr (hw item hi)
  rw [visitAll_eq ⟨d.items, closed⟩ hitems] at hc
  obtain ⟨hshow, hknown⟩ := (CallTable.shows_replicate functions).recordAll hc
  exact ⟨⟨d.items, closed⟩, ⟨hn, hitems, hknown, fun c hc c' hc' e => hshow.agree hc hc' e⟩, ha⟩

theorem yields_program (hi : d.items = s.items) {front back : List Item} {item : Item} (e : s.items = front ++ item :: back)
    {k : Nat} {i : Instruction} (hk : item.instructions[k]? = some i) :
    d.program[(front.flatMap Item.instructions).length + k]? = some (Program.nodeAt front item k i) := by
  rw [Decoded.program, hi, e]
  exact Program.getElem?_ofItems hk

/-- A well-formed script is read from every stream that spells it. -/
theorem decode_of_spells (hw : s.WellFormed functions) (hs : s.Spells code) :
    ∃ d, decode code functions = .ok d ∧ s.Yields functions d := by
  have hshow := CallTable.shows_replicate functions
  obtain ⟨table, ht⟩ := hshow.recordAll_isOk hw.known (by simpa using hw.agree)
  obtain ⟨hshow, -⟩ := hshow.recordAll ht
  refine ⟨⟨s.items, table, s.doneFrom 0⟩, ?_, ?_⟩
  · apply decode_eq_ok_iff.mpr
    refine ⟨hw.table, fun item hi => Item.allowed_iff.mp (hw.items item hi), ?_, s.closed, rfl, hs⟩
    rw [visitAll_eq s hw.items]
    exact ht
  · refine ⟨rfl, s.doneFrom_zero, hshow.size, by simpa using hshow.entry, ?_, ?_⟩
    · show (Program.ofItems s.items).size = _
      rw [← Array.length_toList, ← List.length_map, Program.map_instr_ofItems]
      rfl
    · intro front item back e k i hk
      refine ⟨_, yields_program rfl e hk, rfl, ?_, rfl, rfl⟩
      rw [length_encode, length_flatMap_encode]
      rfl

end Script

/-- Reading accepts exactly the streams that spell a well-formed script, and yields that script. -/
theorem decode_exact (code : Bytes) (functions : Nat) :
    ((∃ d, decode code functions = .ok d) ↔ ∃ s : Script, s.WellFormed functions ∧ s.Spells code) ∧
      ∀ s : Script, s.WellFormed functions → s.Spells code →
        ∃ d, decode code functions = .ok d ∧ s.Yields functions d := by
  refine ⟨⟨?_, ?_⟩, fun s hw hs => Script.decode_of_spells hw hs⟩
  · intro h
    obtain ⟨d, hd⟩ := h
    exact Script.wellFormed_of_decode hd
  · intro h
    obtain ⟨s, hw, hs⟩ := h
    obtain ⟨d, hd, -⟩ := Script.decode_of_spells hw hs
    exact ⟨d, hd⟩

def chainScript : Script where
  items := [.group [⟨.compute .neg, .none, [.reg 3], [.acc]⟩, ⟨.compute .abs, .none, [.acc], [.reg 4]⟩],
    .plain ⟨.call, .call 1, [.reg 4], [.reg 5]⟩]
  closed := true

/-- Spells `chainScript` with most of its loose bits set. -/
def chainStream : Bytes :=
  [0x0f, 2, 0x10, 0xbc, 0, 3, 0xab, 0xcd, 0x11, 0x16, 0x77, 0x88, 0, 4, 0xb0, 0, 1, 1, 1, 0, 0, 4, 0, 5, 0]

theorem wellFormed_chainScript : chainScript.WellFormed 2 := by
  have hcalls : chainScript.calls = [(1, ⟨1, 1⟩)] := by decide
  refine ⟨by decide, ?_, by rw [hcalls]; decide, by rw [hcalls]; decide⟩
  intro item hi
  rcases List.mem_cons.mp hi with rfl | hi
  · refine ⟨by decide, by decide, fun k i hk => ?_⟩
    rcases k with _ | _ | k
    · cases hk
      exact ⟨⟨rfl, rfl, rfl⟩, .inl rfl, rfl, by simp⟩
    · cases hk
      exact ⟨⟨rfl, rfl, rfl⟩, .inl rfl, rfl, by simp⟩
    · cases hk
  · rw [List.mem_singleton.mp hi]
    exact ⟨⟨⟨1, rfl⟩, by decide, by decide, by simp⟩, by simp, by simp, by simp⟩

theorem decode_exact_chain : chainScript.WellFormed 2 ∧ chainScript.Spells chainStream ∧ chainScript.encode ≠ chainStream ∧
    ∃ d, decode chainStream 2 = .ok d ∧ chainScript.Yields 2 d := by
  have hs : chainScript.Spells chainStream := by
    unfold Script.Spells
    decide
  exact ⟨wellFormed_chainScript, hs, by decide, (decode_exact chainStream 2).2 chainScript wellFormed_chainScript hs⟩

end Stream

end LaneScript
