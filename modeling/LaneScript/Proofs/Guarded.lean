/-
  LaneScript.Proofs.Guarded — reading a packed image without leaving the buffer.

  `Guarded.load?` reads a buffer as `load` does, in the same order, but takes every
  slice through `Bytes.slice?`, which has no answer for a range that runs backwards or
  past the end. Proved: for every buffer it answers, and as `load` does. So the checks
  come early enough that no slice of a buffer can miss, whatever its header counts.
-/
import LaneScript.Proofs.Framed

namespace LaneScript

/-- The bytes from `start` to before `stop`; `none` for a range that is not one of the buffer's. -/
def Bytes.slice? (bytes : Bytes) (start stop : Nat) : Option Bytes :=
  if start ≤ stop ∧ stop ≤ bytes.length then some ((bytes.drop start).take (stop - start)) else none

theorem Bytes.slice?_of_le {bytes : Bytes} {start stop : Nat} (hstart : start ≤ stop) (hstop : stop ≤ bytes.length) :
    bytes.slice? start stop = some ((bytes.drop start).take (stop - start)) :=
  if_pos ⟨hstart, hstop⟩

theorem Bytes.slice?_to_end {bytes : Bytes} {start : Nat} (h : start ≤ bytes.length) :
    bytes.slice? start bytes.length = some (bytes.drop start) := by
  rw [slice?_of_le h (Nat.le_refl _), ← List.length_drop, List.take_length]

namespace Guarded

variable {buffer : Bytes}

/-! ## Header and hash -/

def fieldAt? (buffer : Bytes) (offset width : Nat) : Option Nat :=
  (buffer.slice? offset (offset + width)).map Bytes.ofLe

def header? (buffer : Bytes) : Option (Option Header) :=
  if buffer.length < Header.totalBytes then some none
  else do
    let word offset := (fieldAt? buffer offset 2).map UInt16.ofNat
    let long offset := (fieldAt? buffer offset 4).map UInt32.ofNat
    return some {
      codeLength := ← long 0
      outputDatasets := ← long 4
      allocatedConstants := ← word 8
      registers := ← long 10
      constants := ← word 14
      inputs := ← word 16
      outputFields := ← word 18
      stillInputs := ← word 20
      inputDatasets := ← word 22
      outputs := ← word 24
      functions := ← long 26
      callRegisters := ← long 30
      spareRegisters := ← long 34
      lastFunction := (← long 38).toInt32
      flags := ← long 42 }

def storedHash? (buffer : Bytes) : Option UInt64 := (fieldAt? buffer Header.countBytes 8).map UInt64.ofNat

def contentHash? (buffer : Bytes) : Option UInt64 := do
  let front ← buffer.slice? 0 Header.countBytes
  let back ← buffer.slice? Header.fieldBytes buffer.length
  return Digest.short (front ++ List.replicate 8 0 ++ back)

theorem fieldAt?_eq {offset width : Nat} (h : offset + width ≤ buffer.length) :
    fieldAt? buffer offset width = some (Header.fieldAt buffer offset width) := by
  rw [fieldAt?, Bytes.slice?_of_le (Nat.le_add_right _ _) h, Nat.add_sub_cancel_left]
  rfl

theorem header?_eq (buffer : Bytes) : header? buffer = some (Header.read? buffer) := by
  unfold header? Header.read?
  by_cases hlen : buffer.length < Header.totalBytes
  · rw [if_pos hlen, if_pos hlen]
  · have hlen' : 64 ≤ buffer.length := Nat.not_lt.mp hlen
    rw [if_neg hlen, if_neg hlen]
    simp (disch := omega) only [fieldAt?_eq]
    rfl

theorem storedHash?_eq (h : Header.totalBytes ≤ buffer.length) : storedHash? buffer = some (Header.storedHash buffer) := by
  have hfield : Header.countBytes + 8 ≤ buffer.length := Nat.le_trans (by decide) h
  rw [storedHash?, fieldAt?_eq hfield]
  rfl

theorem contentHash?_eq (h : Header.totalBytes ≤ buffer.length) : contentHash? buffer = LaneScript.contentHash? buffer := by
  have hfront : Header.countBytes ≤ buffer.length := Nat.le_trans (by decide) h
  have hback : Header.fieldBytes ≤ buffer.length := Nat.le_trans (by decide) h
  unfold contentHash? LaneScript.contentHash?
  rw [Bytes.slice?_of_le (Nat.zero_le _) hfront, Bytes.slice?_to_end hback, if_neg (Nat.not_lt.mpr hback)]
  rfl

theorem exists_contentHash? (h : Header.totalBytes ≤ buffer.length) : ∃ hash, LaneScript.contentHash? buffer = some hash := by
  have h : 54 ≤ buffer.length := Nat.le_trans (by decide) h
  exact ⟨_, if_neg (Nat.not_lt.mpr h)⟩

/-! ## Sections -/

def gapsZero? (buffer : Bytes) : (stop : Nat) → List Span → Option Bool
  | stop, [] => (buffer.slice? stop buffer.length).map Load.isZero
  | stop, s :: rest => do
    let between ← buffer.slice? stop s.offset.toNat
    let others ← gapsZero? buffer s.stop.toNat rest
    return Load.isZero between && others

def paddingOk? (buffer : Bytes) (layout : Layout) : Option Bool := do
  let header ← buffer.slice? Header.fieldBytes Header.totalBytes
  let others ← gapsZero? buffer Header.totalBytes layout.spans
  return Load.isZero header && others

def sectionBytes? (buffer : Bytes) (layout : Layout) (s : Section) : Option Bytes :=
  match (Section.all.zip layout.spans).find? (·.1 == s) with
  | some (_, span) => buffer.slice? span.offset.toNat span.stop.toNat
  | none => some []

def view? (buffer : Bytes) (h : Header) : Option Loaded := do
  let bytes := sectionBytes? buffer (Layout.ofHeader h)
  return {
    header := h
    hash := ← storedHash? buffer
    code := ← bytes .code
    constants := ⟨← bytes .constants⟩
    inputs := ⟨← bytes .inputs⟩
    inputOffsets := ⟨← bytes .inputOffsets⟩
    outputDatasets := ⟨← bytes .outputDatasets⟩
    outputTypes := ⟨← bytes .outputTypes⟩
    outputFields := ⟨← bytes .outputFields⟩
    functions := ⟨← bytes .functions⟩
    buffer }

section Layout

variable {stop : UInt64} {sizes : List UInt64}

/-- Every span of a layout stands between its start and its end. -/
theorem span_within (room : Layout.Room stop sizes) {s : Span} (hs : s ∈ (Layout.place stop sizes).spans) :
    s.stop.toNat = s.offset.toNat + s.size.toNat ∧ s.stop.toNat ≤ (Layout.place stop sizes).total.toNat := by
  induction sizes generalizing stop with
  | nil => cases hs
  | cons size sizes ih =>
    obtain ⟨hroom, hstop⟩ := room.tail
    rcases List.mem_cons.mp hs with rfl | hs
    · exact ⟨hstop.trans (by rw [room.align]), Layout.le_total hroom⟩
    · exact ih hroom hs

/-- Each gap ends where the next span begins, and the last one at the end of the buffer. -/
theorem gapsZero?_eq (room : Layout.Room stop sizes) (htotal : (Layout.place stop sizes).total.toNat ≤ buffer.length) :
    gapsZero? buffer stop.toNat (Layout.place stop sizes).spans =
      some (Load.gapsZero buffer stop.toNat (Layout.place stop sizes).spans) := by
  induction sizes generalizing stop with
  | nil =>
    have hstop := Nat.le_trans (Layout.le_total room) htotal
    rw [Layout.place, gapsZero?, Load.gapsZero, Bytes.slice?_to_end hstop]
    rfl
  | cons size sizes ih =>
    obtain ⟨hroom, hstop⟩ := room.tail
    have hfront : stop.toNat ≤ (align16 stop).toNat := by rw [room.align]; omega
    have hback : (align16 stop).toNat ≤ buffer.length := by
      have := Nat.le_trans (Layout.le_total hroom) htotal
      rw [room.align]
      omega
    have hrest := ih hroom htotal
    show gapsZero? buffer stop.toNat (⟨align16 stop, size⟩ :: (Layout.place (Span.stop ⟨align16 stop, size⟩) sizes).spans) = _
    rw [gapsZero?, Bytes.slice?_of_le hfront hback, hrest]
    rfl

end Layout

variable {h : Header}

theorem paddingOk?_eq (hlen : Header.totalBytes ≤ buffer.length)
    (htotal : (Layout.ofHeader h).total.toNat ≤ buffer.length) :
    paddingOk? buffer (Layout.ofHeader h) = some (Load.paddingOk buffer (Layout.ofHeader h)) := by
  have hgaps : gapsZero? buffer Header.totalBytes (Layout.ofHeader h).spans =
      some (Load.gapsZero buffer Header.totalBytes (Layout.ofHeader h).spans) :=
    gapsZero?_eq (Layout.room_ofHeader h) htotal
  unfold paddingOk?
  rw [Bytes.slice?_of_le (by decide) hlen, hgaps]
  rfl

theorem sectionBytes?_eq (htotal : (Layout.ofHeader h).total.toNat ≤ buffer.length) (s : Section) :
    sectionBytes? buffer (Layout.ofHeader h) s = some (Load.sectionBytes buffer (Layout.ofHeader h) s) := by
  unfold sectionBytes? Load.sectionBytes
  cases hfind : (Section.all.zip (Layout.ofHeader h).spans).find? (·.1 == s) with
  | none => rfl
  | some found =>
    obtain ⟨t, span⟩ := found
    have hmem := (List.of_mem_zip (List.mem_of_find?_eq_some hfind)).2
    obtain ⟨hstop, hle⟩ := span_within (Layout.room_ofHeader h) hmem
    show buffer.slice? span.offset.toNat span.stop.toNat = _
    rw [Bytes.slice?_of_le (by omega) (Nat.le_trans hle htotal), hstop, Nat.add_sub_cancel_left]
    rfl

theorem view?_eq (hlen : Header.totalBytes ≤ buffer.length) (htotal : (Layout.ofHeader h).total.toNat ≤ buffer.length) :
    view? buffer h = some (Load.view buffer h) := by
  unfold view? Load.view
  simp only [storedHash?_eq hlen, sectionBytes?_eq htotal]
  rfl

/-! ## The whole buffer -/

/-- Reads a packed image; `none` where a slice would leave the buffer. -/
def load? (buffer : Bytes) : Option (Except Rejection Loaded) := do
  match ← header? buffer with
  | none => some (.error .short)
  | some h =>
    let layout := Layout.ofHeader h
    if layout.total.toNat ≠ buffer.length then some (.error .length)
    else
      let stored ← storedHash? buffer
      let hash ← contentHash? buffer
      if hash ≠ stored then some (.error .hash)
      else
        let padding ← paddingOk? buffer layout
        if !padding then some (.error .padding)
        else
          let m ← view? buffer h
          match Load.functionsOk m with
          | .error e => some (.error e)
          | .ok _ =>
            if !Load.inputsOk m then some (.error .inputs)
            else if !Load.outputsOk m then some (.error .outputs)
            else some (.ok m)

/-- No slice leaves the buffer: the guarded reading always answers, and as `load` does. -/
theorem load?_eq (buffer : Bytes) : load? buffer = some (load buffer) := by
  unfold load? load
  rw [header?_eq]
  cases hread : Header.read? buffer with
  | none => rfl
  | some h =>
    have hlen := (Header.read?_eq_some_iff.mp hread).1
    by_cases htotal : (Layout.ofHeader h).total.toNat = buffer.length
    · obtain ⟨hash, hhash⟩ := exists_contentHash? hlen
      have hle := Nat.le_of_eq htotal
      -- Every slice answers now, and the two readings make the same choices.
      simp only [Option.bind_eq_bind, Option.bind_some, htotal, ne_eq, not_true, if_false, storedHash?_eq hlen,
        contentHash?_eq hlen, hhash, paddingOk?_eq hlen hle, view?_eq hlen hle, Option.some.injEq]
      by_cases hstored : hash = Header.storedHash buffer
      · rw [if_neg (not_not_intro hstored), if_neg (not_not_intro hstored)]
        split
        · rfl
        · cases Load.functionsOk (Load.view buffer h) with
          | error e => rfl
          | ok _ =>
            dsimp only
            split
            · rfl
            · split <;> rfl
      · rw [if_pos hstored, if_pos hstored]
    · simp only [Option.bind_eq_bind, Option.bind_some, ne_eq, htotal, not_false_eq_true, if_true]

end Guarded

end LaneScript
