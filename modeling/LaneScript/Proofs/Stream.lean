/-
  LaneScript.Proofs.Stream — whole streams survive being written and read.

  `Item.WellFormed` is what an item of a stream looks like: a plain instruction that
  fits outside a group, or two to 255 steps that hand the accumulator on from the first
  to the last. Reading yields only such items (`decode_ok`), and such items, written one
  after the other and closed by `done`, are read back (`decode_encode`). The table of
  call shapes depends on the calls alone, in their order (`visitAll_eq_recordAll`).
-/
import LaneScript.Proofs.Encoding
import LaneScript.Stream

namespace LaneScript

def Instruction.call? (i : Instruction) : Option (UInt16 × Stream.CallShape) :=
  match i.payload with
  | .call f => some (f, ⟨i.sources.length, i.dests.length⟩)
  | _ => none

def Stream.Decoded.instructions (d : Stream.Decoded) : List Instruction := d.items.flatMap Stream.Item.instructions

namespace Stream

/-! ## Well-formed items -/

/-- Each step, the first standing at `pos`, hands the accumulator on as its place demands. -/
def HandOn : (pos : Nat) → List Instruction → Prop
  | _, [] => True
  | pos, i :: rest => (Place.of pos rest.length).admits i = true ∧ HandOn (pos + 1) rest

def IsStep (i : Instruction) : Prop := i.Fits true ∧ (i.category = .compute ∨ i.category = .output)

def Item.WellFormed : Item → Prop
  | .plain i => i.Fits false ∧ i.opcode ≠ .done
  | .group is => 2 ≤ is.length ∧ is.length ≤ 255 ∧ (∀ i ∈ is, IsStep i) ∧ HandOn 0 is

theorem Item.WellFormed.fits {item : Item} (h : item.WellFormed) {i : Instruction} (hi : i ∈ item.instructions) :
    ∃ chained, i.Fits chained := by
  cases item with
  | plain j =>
    obtain rfl : i = j := by simpa [instructions] using hi
    exact ⟨false, h.1⟩
  | group is => exact ⟨true, (h.2.2.1 i hi).1⟩

/-! ## Reading groups -/

theorem stepOpcode?_eq_some {b : UInt8} {o : Opcode} :
    stepOpcode? b = some o ↔ Opcode.ofByte? b = some o ∧ (o.category = .compute ∨ o.category = .output) := by
  constructor
  · intro h
    unfold stepOpcode? at h
    split at h
    · rename_i f hf; cases h; exact ⟨hf, .inl rfl⟩
    · rename_i e he; cases h; exact ⟨he, .inr rfl⟩
    · cases h
  · rintro ⟨h, hc⟩
    unfold stepOpcode?
    rw [h]
    cases o <;> simp_all [Opcode.category]

theorem step?_eq_some_iff {bytes rest : Bytes} {i : Instruction} :
    step? bytes = some (i, rest) ↔ IsStep i ∧ Bytes.Opens i.loose i.encode bytes rest := by
  simp only [step?, Option.bind_eq_bind, Option.bind_eq_some_iff, Prod.exists, Bytes.byte?_eq_some_iff,
    stepOpcode?_eq_some, Instruction.loose, Instruction.encode, Bytes.opens_cons_zero]
  have notFused {o : Opcode} (hc : o.category = .compute ∨ o.category = .output) : o ≠ .fused := by
    intro e
    simp [e, Opcode.category] at hc
  constructor
  · intro h
    obtain ⟨b, mid, rfl, o, ⟨ho, hc⟩, h⟩ := h
    obtain ⟨rfl, hfit, hb⟩ := (Instruction.body?_eq_some_iff (notFused hc)).mp h
    exact ⟨⟨hfit, hc⟩, mid, by rw [Opcode.byte_of_ofByte? ho], hb⟩
  · intro h
    obtain ⟨⟨hfit, hc⟩, mid, rfl, hb⟩ := h
    exact ⟨_, mid, rfl, i.opcode, ⟨Opcode.ofByte?_byte _, hc⟩,
      (Instruction.body?_eq_some_iff (notFused hc)).mpr ⟨rfl, hfit, hb⟩⟩

theorem steps_eq_ok_iff {offset count pos : Nat} {bytes rest : Bytes} {is : List Instruction} :
    steps offset count pos bytes = .ok (is, rest) ↔ is.length = count ∧ (∀ i ∈ is, IsStep i) ∧ HandOn pos is ∧
      Bytes.Opens (is.flatMap Instruction.loose) (is.flatMap Instruction.encode) bytes rest := by
  induction count generalizing pos bytes is with
  | zero =>
    constructor
    · intro h
      cases h
      exact ⟨rfl, by simp, trivial, Bytes.opens_nil.mpr rfl⟩
    · intro h
      obtain ⟨hl, -, -, ho⟩ := h
      obtain rfl := List.length_eq_zero_iff.mp hl
      obtain rfl := Bytes.opens_nil.mp ho
      rfl
  | succ count ih =>
    constructor
    · intro h
      simp only [steps] at h
      split at h
      · cases h
      · rename_i i mid hi
        split at h
        · rename_i ha
          cases hm : steps offset count (pos + 1) mid with
          | error e => rw [hm] at h; cases h
          | ok q =>
            rw [hm] at h
            cases h
            obtain ⟨hl, hs, ho, hb⟩ := ih.mp hm
            obtain ⟨hstep, hfirst⟩ := step?_eq_some_iff.mp hi
            refine ⟨by simp [hl], ?_, ⟨by rw [hl]; exact ha, ho⟩, ?_⟩
            · intro j hj
              rcases List.mem_cons.mp hj with rfl | hj
              · exact hstep
              · exact hs j hj
            · exact (Bytes.opens_append (Instruction.length_loose i)).mpr ⟨mid, hfirst, hb⟩
        · cases h
    · intro h
      obtain ⟨hl, hs, ho, hb⟩ := h
      cases is with
      | nil => cases hl
      | cons i is =>
        obtain ⟨ha, ho⟩ := ho
        obtain ⟨mid, hfirst, hb⟩ := (Bytes.opens_append (Instruction.length_loose i)).mp hb
        have hl : is.length = count := by simpa using hl
        have hm := ih.mpr ⟨hl, fun j hj => hs j (List.mem_cons_of_mem _ hj), ho, hb⟩
        rw [hl] at ha
        simp only [steps, step?_eq_some_iff.mpr ⟨hs i List.mem_cons_self, hfirst⟩, ha, if_true, hm]
        rfl

theorem group_eq_ok_iff {offset : Nat} {bytes rest : Bytes} {item : Item} :
    group offset bytes = .ok (item, rest) ↔ ∃ is, item = .group is ∧ item.WellFormed ∧
      Bytes.Opens (0 :: is.flatMap Instruction.loose) (UInt8.ofNat is.length :: is.flatMap Instruction.encode)
        bytes rest := by
  simp only [Bytes.opens_cons_zero]
  constructor
  · intro h
    unfold group at h
    split at h
    · cases h
    · rename_i count mid hc
      obtain rfl := Bytes.byte?_eq_some_iff.mp hc
      split at h
      · cases h
      · cases hs : steps offset count.toNat 0 mid with
        | error e => rw [hs] at h; cases h
        | ok q =>
          rw [hs] at h
          cases h
          obtain ⟨hl, hi, ho, hb⟩ := steps_eq_ok_iff.mp hs
          have := count.toNat_lt
          exact ⟨_, rfl, ⟨by omega, by omega, hi, ho⟩, mid, by rw [hl, UInt8.ofNat_toNat], hb⟩
  · intro h
    obtain ⟨is, rfl, ⟨h2, h255, hs, ho⟩, mid, rfl, hb⟩ := h
    have hc : (UInt8.ofNat is.length).toNat = is.length := by simp only [UInt8.toNat_ofNat']; omega
    simp only [group, Bytes.byte?, hc]
    rw [if_neg (by omega), steps_eq_ok_iff.mpr ⟨rfl, hs, ho, hb⟩]
    rfl

/-! ## Reading items -/

def Item.loose : Item → Bytes
  | .plain i => i.loose
  | .group steps => 0 :: 0 :: steps.flatMap Instruction.loose

theorem Item.length_loose (item : Item) : item.encode.length = item.loose.length := by
  cases item with
  | plain i => exact i.length_loose
  | group is =>
    simp only [encode, loose, List.length_cons]
    induction is with
    | nil => rfl
    | cons i is ih => simpa [i.length_loose] using ih

theorem front_done_iff {offset : Nat} {bytes : Bytes} :
    front offset bytes = .ok .done ↔ bytes = [Opcode.done.byte] := by
  constructor
  · intro h
    cases bytes with
    | nil => cases h
    | cons b rest =>
      simp only [front] at h
      split at h
      · cases h
      · rename_i hb
        split at h
        · rename_i hr
          rw [List.isEmpty_iff.mp hr, Opcode.byte_of_ofByte? hb]
        · cases h
      · cases hg : group offset rest with
        | error e => rw [hg] at h; cases h
        | ok q => rw [hg] at h; cases h
      · split at h <;> cases h
  · intro h
    rw [h]
    rfl

/-- An item is read just from the bytes that spell it. -/
theorem front_item_iff {offset : Nat} {bytes rest : Bytes} {item : Item} :
    front offset bytes = .ok (.item item rest) ↔ item.WellFormed ∧ Bytes.Opens item.loose item.encode bytes rest := by
  constructor
  · intro h
    cases bytes with
    | nil => cases h
    | cons b bytes =>
      simp only [front] at h
      split at h
      · cases h
      · split at h <;> cases h
      · rename_i hb
        cases hg : group offset bytes with
        | error e => rw [hg] at h; cases h
        | ok q =>
          rw [hg] at h
          cases h
          obtain ⟨is, hi, hw, ho⟩ := group_eq_ok_iff.mp hg
          refine ⟨hw, ?_⟩
          rw [hi]
          exact Bytes.opens_cons_zero.mpr ⟨bytes, by rw [Opcode.byte_of_ofByte? hb], ho⟩
      · rename_i o hd hf hb
        split at h
        · cases h
        · rename_i i r hi
          cases h
          obtain ⟨rfl, hfit, ho⟩ := (Instruction.body?_eq_some_iff hf).mp hi
          exact ⟨⟨hfit, hd⟩, Bytes.opens_cons_zero.mpr ⟨bytes, by rw [Opcode.byte_of_ofByte? hb], ho⟩⟩
  · intro h
    obtain ⟨hw, ho⟩ := h
    cases item with
    | plain i =>
      obtain ⟨hfit, hd⟩ := hw
      have hf : i.opcode ≠ .fused := by
        intro e
        have := hfit.shaped
        simp [Instruction.WellShaped, e] at this
      obtain ⟨mid, rfl, hb⟩ := Bytes.opens_cons_zero.mp ho
      simp only [front, Opcode.ofByte?_byte, (Instruction.body?_eq_some_iff hf).mpr ⟨rfl, hfit, hb⟩]
    | group is =>
      obtain ⟨mid, rfl, hb⟩ := Bytes.opens_cons_zero.mp ho
      simp only [front, Opcode.ofByte?_byte, group_eq_ok_iff.mpr ⟨is, rfl, hw, hb⟩]
      rfl

/-! ## Reading streams -/

def CallTable.visitAll (table : CallTable) (items : List Item) : Except Error CallTable := items.foldlM visit table

theorem CallTable.visitAll_cons_ok {table table' : CallTable} {item : Item} {items : List Item} :
    table.visitAll (item :: items) = .ok table' ↔
      ∃ mid, table.visit item = .ok mid ∧ mid.visitAll items = .ok table' := by
  simp only [visitAll, List.foldlM_cons]
  cases hv : table.visit item with
  | error e => simp [bind, Except.bind]
  | ok mid => simp [bind, Except.bind]

structure Script where
  items : List Item
  closed : Bool
  deriving DecidableEq, Repr

namespace Script

def encode (s : Script) : Bytes := Stream.encode s.items ++ if s.closed then [Opcode.done.byte] else []

def loose (s : Script) : Bytes := s.items.flatMap Item.loose ++ if s.closed then [0] else []

def doneFrom (s : Script) (offset : Nat) : Option Nat :=
  if s.closed then some (offset + total (s.items.map Item.width)) else none

end Script

theorem Item.encode_length_pos (item : Item) : 0 < item.encode.length := by
  cases item <;> simp [encode, Instruction.encode]

namespace Script

theorem length_loose (s : Script) : s.encode.length = s.loose.length := by
  obtain ⟨items, closed⟩ := s
  simp only [encode, loose, List.length_append]
  have hd : (if closed then [Opcode.done.byte] else []).length = (if closed then [(0 : UInt8)] else []).length := by
    cases closed <;> rfl
  rw [hd]
  congr 1
  induction items with
  | nil => rfl
  | cons item items ih =>
    simp only [Stream.encode, List.flatMap_cons, List.length_append, item.length_loose] at ih ⊢
    rw [ih]

theorem agree_nil_iff {s : Script} : Bytes.Agree s.loose s.encode [] ↔ s = ⟨[], false⟩ := by
  constructor
  · intro h
    obtain ⟨hl, h0⟩ := h.length_eq
    obtain ⟨items, closed⟩ := s
    rw [← h0] at hl
    cases items with
    | nil =>
      cases closed with
      | false => rfl
      | true => cases hl
    | cons item items =>
      have := item.encode_length_pos
      simp only [encode, Stream.encode, List.flatMap_cons, List.length_append, List.length_nil] at hl
      omega
  · intro h
    subst h
    trivial

theorem agree_cons_iff {item : Item} {items : List Item} {closed : Bool} {bytes : Bytes} :
    Bytes.Agree (loose ⟨item :: items, closed⟩) (encode ⟨item :: items, closed⟩) bytes ↔
      ∃ rest, Bytes.Opens item.loose item.encode bytes rest ∧
        Bytes.Agree (loose ⟨items, closed⟩) (encode ⟨items, closed⟩) rest := by
  simp only [loose, encode, Stream.encode, List.flatMap_cons, List.append_assoc, Bytes.agree_append item.length_loose]
  constructor
  · intro h
    obtain ⟨front, rest, e, hf, hr⟩ := h
    exact ⟨rest, ⟨front, hf, e⟩, hr⟩
  · intro h
    obtain ⟨rest, ⟨front, hf, e⟩, hr⟩ := h
    exact ⟨front, rest, e, hf, hr⟩

end Script

/-- The bytes at `offset` spell well-formed items that lead from `before` and `calls` to `d`. -/
def Spelled (offset : Nat) (bytes : Bytes) (before : List Item) (calls : CallTable) (d : Decoded) : Prop :=
  ∃ s : Script, d = ⟨before.reverse ++ s.items, d.calls, s.doneFrom offset⟩ ∧ (∀ item ∈ s.items, item.WellFormed) ∧
    calls.visitAll s.items = .ok d.calls ∧ Bytes.Agree s.loose s.encode bytes

theorem spelled_nil {offset : Nat} {before : List Item} {calls : CallTable} {d : Decoded} :
    Spelled offset [] before calls d ↔ d = ⟨before.reverse, calls, none⟩ := by
  simp only [Spelled, Script.agree_nil_iff]
  constructor
  · intro h
    obtain ⟨s, hd, -, hc, rfl⟩ := h
    cases hc
    simpa [Script.doneFrom] using hd
  · intro h
    subst h
    exact ⟨⟨[], false⟩, by simp [Script.doneFrom], by simp, rfl, rfl⟩

theorem Item.length_lt_of_opens {item : Item} {bytes rest : Bytes}
    (h : Bytes.Opens item.loose item.encode bytes rest) : rest.length < bytes.length := by
  obtain ⟨front, hf, rfl⟩ := h
  obtain ⟨hl, hl'⟩ := hf.length_eq
  have := item.encode_length_pos
  rw [List.length_append]
  omega

/-- Reading bytes that spell well-formed items fails at most at a call. -/
theorem readFrom_of_agree {s : Script} {rounds offset : Nat} {bytes : Bytes} (hr : bytes.length ≤ rounds)
    (hw : ∀ item ∈ s.items, item.WellFormed) (ha : Bytes.Agree s.loose s.encode bytes) (before : List Item)
    (calls : CallTable) : readFrom rounds offset bytes before calls =
      (calls.visitAll s.items).map fun table => ⟨before.reverse ++ s.items, table, s.doneFrom offset⟩ := by
  obtain ⟨items, closed⟩ := s
  induction rounds generalizing offset bytes items before calls with
  | zero =>
    obtain rfl := List.length_eq_zero_iff.mp (Nat.le_zero.mp hr)
    cases Script.agree_nil_iff.mp ha
    simp [readFrom, CallTable.visitAll, Script.doneFrom, pure, Except.pure, Except.map]
  | succ rounds ih =>
    cases bytes with
    | nil =>
      cases Script.agree_nil_iff.mp ha
      simp [readFrom, CallTable.visitAll, Script.doneFrom, pure, Except.pure, Except.map]
    | cons b bytes =>
      cases items with
      | nil =>
        cases closed with
        | false => exact ha.elim
        | true =>
          have hb := Bytes.agree_zeros.mp (show Bytes.Agree (List.replicate [Opcode.done.byte].length 0) _ _ from ha)
          simp [readFrom, front_done_iff.mpr hb, CallTable.visitAll, Script.doneFrom, pure, Except.pure, Except.map]
      | cons item items =>
        obtain ⟨rest, ho, ha⟩ := Script.agree_cons_iff.mp ha
        have hshort := Item.length_lt_of_opens ho
        have hf : front offset (b :: bytes) = .ok (.item item rest) :=
          front_item_iff.mpr ⟨hw item List.mem_cons_self, ho⟩
        simp only [readFrom, hf, CallTable.visitAll, List.foldlM_cons]
        cases calls.visit item with
        | error e => rfl
        | ok calls =>
          refine (ih (by omega) _ _ items (fun x hx => hw x (List.mem_cons_of_mem _ hx)) ha).trans ?_
          simp [CallTable.visitAll, Script.doneFrom, Nat.add_assoc, bind, Except.bind]

/-- Reading succeeds just on the bytes that spell well-formed items whose calls the table takes. -/
theorem readFrom_eq_ok_iff {rounds offset : Nat} {bytes : Bytes} {before : List Item} {calls : CallTable} {d : Decoded}
    (hr : bytes.length ≤ rounds) :
    readFrom rounds offset bytes before calls = .ok d ↔ Spelled offset bytes before calls d := by
  constructor
  · intro h
    induction rounds generalizing offset bytes before calls with
    | zero =>
      obtain rfl := List.length_eq_zero_iff.mp (Nat.le_zero.mp hr)
      cases h
      exact spelled_nil.mpr rfl
    | succ rounds ih =>
      cases bytes with
      | nil =>
        cases h
        exact spelled_nil.mpr rfl
      | cons b bytes =>
        simp only [readFrom] at h
        split at h
        · cases h
        · rename_i hf
          cases h
          rw [front_done_iff.mp hf]
          exact ⟨⟨[], true⟩, by simp [Script.doneFrom], by simp, rfl, Bytes.agree_refl rfl⟩
        · rename_i item rest hf
          obtain ⟨hw, ho⟩ := front_item_iff.mp hf
          have hshort := Item.length_lt_of_opens ho
          split at h
          · cases h
          · rename_i calls' hv
            obtain ⟨⟨more, closed⟩, hd, hws, hc, ha⟩ := ih (by omega) h
            refine ⟨⟨item :: more, closed⟩, ?_, ?_, ?_, Script.agree_cons_iff.mpr ⟨rest, ho, ha⟩⟩
            · rw [hd]
              simp [Script.doneFrom, Nat.add_assoc]
            · intro x hx
              rcases List.mem_cons.mp hx with rfl | hx
              · exact hw
              · exact hws x hx
            · exact CallTable.visitAll_cons_ok.mpr ⟨calls', hv, hc⟩
  · intro h
    obtain ⟨s, hd, hw, hc, ha⟩ := h
    rw [readFrom_of_agree hr hw ha, hc, hd]
    rfl

/-- A stream is read just where its bytes spell well-formed items whose calls the host's table takes. -/
theorem decode_eq_ok_iff {code : Bytes} {functions : Nat} {d : Decoded} :
    decode code functions = .ok d ↔ functions ≤ maxFunctions ∧ (∀ item ∈ d.items, item.WellFormed) ∧
      CallTable.visitAll (Array.replicate functions none) d.items = .ok d.calls ∧
        ∃ closed, d.doneAt = Script.doneFrom ⟨d.items, closed⟩ 0 ∧
          Bytes.Agree (Script.loose ⟨d.items, closed⟩) (Script.encode ⟨d.items, closed⟩) code := by
  unfold decode
  by_cases hn : maxFunctions < functions
  · rw [if_pos hn]
    constructor
    · intro h
      cases h
    · intro h
      exact absurd h.1 (by omega)
  · rw [if_neg hn, readFrom_eq_ok_iff (Nat.le_refl _)]
    obtain ⟨items, calls, doneAt⟩ := d
    constructor
    · intro h
      obtain ⟨⟨more, closed⟩, hd, hw, hc, ha⟩ := h
      simp only [List.reverse_nil, List.nil_append, Decoded.mk.injEq, true_and] at hd
      obtain ⟨rfl, rfl⟩ := hd
      exact ⟨by omega, hw, hc, closed, rfl, ha⟩
    · intro h
      obtain ⟨-, hw, hc, closed, hd, ha⟩ := h
      exact ⟨⟨items, closed⟩, by simpa using hd, hw, hc, ha⟩

/-- A stream that spells well-formed items is read wherever the host's table takes their calls. -/
theorem decode_of_agree {s : Script} {code : Bytes} (hw : ∀ item ∈ s.items, item.WellFormed)
    (ha : Bytes.Agree s.loose s.encode code) (functions : Nat) :
    decode code functions =
      if maxFunctions < functions then .error .tableTooLarge
      else
        (CallTable.visitAll (Array.replicate functions none) s.items).map
          fun table => ⟨s.items, table, s.doneFrom 0⟩ := by
  rw [decode, readFrom_of_agree (Nat.le_refl _) hw ha]
  rfl

/-- A stream that can be read holds well-formed items, whose calls agree with the host's table. -/
theorem decode_ok {code : Bytes} {functions : Nat} {d : Decoded} (h : decode code functions = .ok d) :
    functions ≤ maxFunctions ∧ (∀ item ∈ d.items, item.WellFormed) ∧
      CallTable.visitAll (Array.replicate functions none) d.items = .ok d.calls := by
  obtain ⟨hn, hw, hc, -⟩ := decode_eq_ok_iff.mp h
  exact ⟨hn, hw, hc⟩

def Decoded.script (d : Decoded) : Script := ⟨d.items, d.doneAt.isSome⟩

theorem decode_script_iff {code : Bytes} {functions : Nat} {d : Decoded} : decode code functions = .ok d ↔
    functions ≤ maxFunctions ∧ (∀ item ∈ d.items, item.WellFormed) ∧
      CallTable.visitAll (Array.replicate functions none) d.items = .ok d.calls ∧
        d.doneAt = d.script.doneFrom 0 ∧ Bytes.Agree d.script.loose d.script.encode code := by
  rw [decode_eq_ok_iff]
  constructor
  · intro h
    obtain ⟨hn, hw, hc, closed, hd, ha⟩ := h
    have hclosed : d.doneAt.isSome = closed := by
      rw [hd]
      cases closed <;> rfl
    rw [Decoded.script, hclosed]
    exact ⟨hn, hw, hc, hd, ha⟩
  · intro h
    obtain ⟨hn, hw, hc, hd, ha⟩ := h
    exact ⟨hn, hw, hc, _, hd, ha⟩

/-- Well-formed items are read back from their bytes. -/
theorem decode_encode {items : List Item} {functions : Nat} {calls : CallTable} (hn : functions ≤ maxFunctions)
    (hw : ∀ item ∈ items, item.WellFormed)
    (hc : CallTable.visitAll (Array.replicate functions none) items = .ok calls) :
    decode (encode items ++ [Opcode.done.byte]) functions = .ok ⟨items, calls, some (total (items.map Item.width))⟩ := by
  apply decode_eq_ok_iff.mpr
  exact ⟨hn, hw, hc, true, by simp [Script.doneFrom], Bytes.agree_refl (Script.length_loose ⟨items, true⟩)⟩

/-! ## Calls -/

theorem visit_eq_record (table : CallTable) {item : Item} (h : item.WellFormed) :
    table.visit item = (item.instructions.filterMap Instruction.call?).foldlM (fun t c => t.record c.1 c.2) table := by
  cases item with
  | plain i =>
    simp only [CallTable.visit, Item.instructions, List.filterMap_cons, Instruction.call?]
    split
    · simp_all
    · simp_all; rfl
  | group is =>
    have : is.filterMap Instruction.call? = [] := by
      rw [List.filterMap_eq_nil_iff]
      intro i hi
      obtain ⟨hf, hc⟩ := h.2.2.1 i hi
      have hs := hf.shaped
      unfold Instruction.WellShaped at hs
      unfold Instruction.call?
      rcases hc with hc | hc <;> (unfold Instruction.category Opcode.category at hc; split at hc <;> simp_all)
      obtain ⟨⟨d, f, e⟩, -⟩ := hs
      simp [e]
    simp only [CallTable.visit, Item.instructions, this]
    rfl

/-- The table depends on the calls in the stream and their order alone. -/
theorem visitAll_eq_recordAll (table : CallTable) {items : List Item} (h : ∀ item ∈ items, item.WellFormed) :
    table.visitAll items =
      ((items.flatMap Item.instructions).filterMap Instruction.call?).foldlM (fun t c => t.record c.1 c.2) table := by
  induction items generalizing table with
  | nil => rfl
  | cons item items ih =>
    simp only [CallTable.visitAll, List.foldlM_cons, List.flatMap_cons, List.filterMap_append, List.foldlM_append,
      visit_eq_record table (h item List.mem_cons_self)]
    congr 1
    funext t
    exact ih t (fun x hx => h x (List.mem_cons_of_mem _ hx))

end Stream

end LaneScript
