/-
  LaneScript.Proofs.Placement — every header has a sound layout, and is read back from where it was written.

  `Guarded.layout?` lays out a header as `Layout.ofHeader` does, but takes every sum and
  every product through `add?` and `mul?`, which have no answer where a 64-bit word
  would wrap. Proved, for every header (`layout_sound`), with its counts anywhere in the
  range of their fields:
  - the guarded layout answers, and as `ofHeader` does, so nothing wraps;
  - the sections have the sizes that the counts give, each on a multiple of 16 and behind
    the header, in order and less than 16 bytes behind the one before;
  - the total is the least multiple of 16 that is not before the end of the last;
  - written into a buffer that has room for a header, count by count at their offsets,
    the counts are read back, and the rest of the buffer is as before.
-/
import LaneScript.Proofs.InPlace
import Mathlib.Data.List.Chain

namespace LaneScript

/-! ## Words that do not wrap -/

namespace Guarded

def add? (a b : UInt64) : Option UInt64 := if a.toNat + b.toNat < UInt64.size then some (a + b) else none

def mul? (a b : UInt64) : Option UInt64 := if a.toNat * b.toNat < UInt64.size then some (a * b) else none

theorem add?_eq {a b : UInt64} (h : a.toNat + b.toNat < UInt64.size) : add? a b = some (a + b) := if_pos h

theorem mul?_eq {a b : UInt64} (h : a.toNat * b.toNat < UInt64.size) : mul? a b = some (a * b) := if_pos h

def offsetEntries? (h : Header) : Option UInt64 :=
  if h.inputDatasets = 0 then some 0 else do add? (← mul? 2 h.inputDatasets.toUInt64) 1

def size? (h : Header) : Section → Option UInt64
  | .code => some h.codeLength.toUInt64
  | .constants => mul? 2 h.constants.toUInt64
  | .inputs => mul? 2 h.inputs.toUInt64
  | .inputOffsets => do mul? 2 (← offsetEntries? h)
  | .outputDatasets => mul? 2 h.outputs.toUInt64
  | .outputTypes => some h.outputs.toUInt64
  | .outputFields => mul? 2 h.outputs.toUInt64
  | .functions => mul? 16 h.functions.toUInt64

def align16? (n : UInt64) : Option UInt64 := do mul? (← add? (n / 16) (if n % 16 = 0 then 0 else 1)) 16

def place? : (stop : UInt64) → (sizes : List UInt64) → Option Layout
  | stop, [] => do return ⟨[], ← align16? stop⟩
  | stop, size :: rest => do
    let offset ← align16? stop
    let layout ← place? (← add? offset size) rest
    return { layout with spans := ⟨offset, size⟩ :: layout.spans }

def layout? (h : Header) : Option Layout := do
  place? (UInt64.ofNat Header.totalBytes) (← Section.all.mapM (size? h))

theorem offsetEntries?_eq (h : Header) : offsetEntries? h = some (UInt64.ofNat h.offsetEntries) := by
  have hlt := h.inputDatasets.toNat_lt
  have hsize : UInt64.size = 18446744073709551616 := rfl
  unfold offsetEntries? Header.offsetEntries
  by_cases hz : h.inputDatasets = 0
  · rw [if_pos hz, if_pos hz]
    rfl
  · have htwice : (2 * h.inputDatasets.toUInt64).toNat = 2 * h.inputDatasets.toNat := by simp; omega
    have hmul : mul? 2 h.inputDatasets.toUInt64 = some (2 * h.inputDatasets.toUInt64) := mul?_eq (by simp; omega)
    have hadd : add? (2 * h.inputDatasets.toUInt64) 1 = some (2 * h.inputDatasets.toUInt64 + 1) :=
      add?_eq (by rw [htwice]; simp; omega)
    rw [if_neg hz, if_neg hz, hmul, Option.bind_eq_bind, Option.bind_some, hadd, Option.some.injEq, ← UInt64.toNat_inj,
      UInt64.toNat_add, htwice]
    simp

theorem size?_eq (h : Header) (s : Section) : size? h s = some (s.size h) := by
  have hsize : UInt64.size = 18446744073709551616 := rfl
  have word : ∀ w : UInt16, mul? 2 w.toUInt64 = some (2 * w.toUInt64) := by
    intro w
    have := w.toNat_lt
    exact mul?_eq (by simp; omega)
  cases s with
  | code | outputTypes => rfl
  | constants | inputs | outputDatasets | outputFields => exact word _
  | inputOffsets =>
    have hlt : 2 * h.offsetEntries < 68719476736 := Section.length_lt h .inputOffsets
    rw [size?, offsetEntries?_eq, Option.bind_eq_bind, Option.bind_some]
    exact mul?_eq (by simp; omega)
  | functions =>
    have := h.functions.toNat_lt
    exact mul?_eq (by simp; omega)

theorem align16?_eq {n : UInt64} (h : n.toNat + 15 < UInt64.size) : align16? n = some (align16 n) := by
  have hsize : UInt64.size = 18446744073709551616 := rfl
  have hunits : (n / 16).toNat = n.toNat / 16 := by simp
  -- How many sixteens there are, counting one that is not full.
  have hup : (n / 16).toNat + (if n % 16 = 0 then (0 : UInt64) else 1).toNat = (n.toNat + 15) / 16 := by
    by_cases hn : n % 16 = 0
    · have hz : n.toNat % 16 = 0 := congrArg UInt64.toNat hn
      rw [if_pos hn, hunits, UInt64.toNat_zero]
      omega
    · have hz : n.toNat % 16 ≠ 0 := fun e => hn (UInt64.toNat_inj.mp e)
      rw [if_neg hn, hunits, UInt64.toNat_one]
      omega
  have hsum : (n / 16 + if n % 16 = 0 then 0 else 1).toNat = (n.toNat + 15) / 16 := by
    rw [UInt64.toNat_add, hup]
    exact Nat.mod_eq_of_lt (by omega)
  have hproduct : (n / 16 + if n % 16 = 0 then 0 else 1).toNat * (16 : UInt64).toNat < UInt64.size := by
    rw [hsum, show (16 : UInt64).toNat = 16 from rfl]
    omega
  rw [align16?, add?_eq (by omega), Option.bind_eq_bind, Option.bind_some, mul?_eq hproduct]
  rfl

theorem place?_eq {stop : UInt64} {sizes : List UInt64} (room : Layout.Room stop sizes) :
    place? stop sizes = some (Layout.place stop sizes) := by
  induction sizes generalizing stop with
  | nil =>
    unfold Layout.Room at room
    rw [place?, align16?_eq (by omega)]
    rfl
  | cons size sizes ih =>
    obtain ⟨hroom, hstop⟩ := room.tail
    have hlt := UInt64.toNat_lt_size (Span.stop ⟨align16 stop, size⟩)
    have halign : align16? stop = some (align16 stop) := by
      unfold Layout.Room at room
      exact align16?_eq (by omega)
    have hadd : add? (align16 stop) size = some (Span.stop ⟨align16 stop, size⟩) :=
      add?_eq (by rw [room.align]; omega)
    rw [place?, halign, Option.bind_eq_bind, Option.bind_some, hadd, Option.bind_eq_bind, Option.bind_some, ih hroom]
    rfl

theorem layout?_eq (h : Header) : layout? h = some (Layout.ofHeader h) := by
  have hsizes : Section.all.mapM (size? h) = some (Section.all.map (Section.size h)) := by
    rw [funext (size?_eq h)]
    exact List.mapM_pure
  rw [layout?, hsizes, Option.bind_eq_bind, Option.bind_some, place?_eq (Layout.room_ofHeader h)]
  rfl

end Guarded

/-! ## Sections one behind the other -/

def Span.reach (s : Span) : Nat := s.offset.toNat + s.size.toNat

/-- A span begins behind another one, and less than 16 bytes behind its end. -/
def Span.Next (s t : Span) : Prop := s.reach ≤ t.offset.toNat ∧ t.offset.toNat < s.reach + 16

def Header.span : Span := ⟨0, UInt64.ofNat Header.totalBytes⟩

theorem add_gap_le {n m : Nat} (hm : m % 16 = 0) (h : n ≤ m) : n + gap n ≤ m := by
  unfold gap
  omega

namespace Layout

variable {stop : UInt64} {sizes : List UInt64}

theorem map_size_place (stop : UInt64) (sizes : List UInt64) : (place stop sizes).spans.map Span.size = sizes := by
  induction sizes generalizing stop with
  | nil => rfl
  | cons size sizes ih => exact congrArg (size :: ·) (ih _)

theorem offset_place (room : Room stop sizes) {s : Span} (hs : s ∈ (place stop sizes).spans) :
    s.offset.toNat % 16 = 0 ∧ stop.toNat ≤ s.offset.toNat := by
  induction sizes generalizing stop with
  | nil => cases hs
  | cons size sizes ih =>
    obtain ⟨hroom, hstop⟩ := room.tail
    rcases List.mem_cons.mp hs with rfl | hs
    · rw [room.align]
      exact ⟨add_gap _, Nat.le_add_right _ _⟩
    · obtain ⟨haligned, hle⟩ := ih hroom hs
      exact ⟨haligned, by omega⟩

/-- The span that is placed next reaches to where the others are placed behind. -/
theorem reach_next {size : UInt64} (room : Room stop (size :: sizes)) :
    Span.reach ⟨align16 stop, size⟩ = (Span.stop ⟨align16 stop, size⟩).toNat := by
  rw [room.tail.2, Span.reach, room.align]

theorem pairwise_place (room : Room stop sizes) :
    (place stop sizes).spans.Pairwise fun s t => s.reach ≤ t.offset.toNat := by
  induction sizes generalizing stop with
  | nil => exact List.Pairwise.nil
  | cons size sizes ih =>
    refine List.pairwise_cons.mpr ⟨fun t ht => ?_, ih room.tail.1⟩
    rw [reach_next room]
    exact (offset_place room.tail.1 ht).2

theorem isChain_place (room : Room stop sizes) {first : Span} (hfirst : first.reach = stop.toNat) :
    (first :: (place stop sizes).spans).IsChain Span.Next := by
  induction sizes generalizing stop first with
  | nil => exact List.isChain_singleton _
  | cons size sizes ih =>
    have hgap := gap_le stop.toNat
    refine List.isChain_cons_cons.mpr ⟨?_, ih room.tail.1 (reach_next room)⟩
    unfold Span.Next
    rw [hfirst, room.align]
    omega

/-- The whole ends where the gap behind the last span does. -/
theorem total_place (room : Room stop sizes) {first : Span} (hfirst : first.reach = stop.toNat) :
    ∃ last, (first :: (place stop sizes).spans).getLast? = some last ∧
      (place stop sizes).total.toNat = last.reach + gap last.reach := by
  induction sizes generalizing stop first with
  | nil => exact ⟨first, rfl, by rw [hfirst]; exact room.align⟩
  | cons size sizes ih =>
    obtain ⟨last, hlast, htotal⟩ := ih room.tail.1 (reach_next room)
    exact ⟨last, List.getLast?_cons_cons.trans hlast, htotal⟩

structure Sound (h : Header) (l : Layout) : Prop where
  sizes : l.spans.map (fun s => s.size.toNat) = Section.all.map (Section.length h)
  /-- No end of a section wraps. -/
  stops : ∀ s ∈ l.spans, s.stop.toNat = s.reach
  aligned : ∀ s ∈ l.spans, s.offset.toNat % 16 = 0
  behind : ∀ s ∈ l.spans, Header.totalBytes ≤ s.offset.toNat
  apart : l.spans.Pairwise fun s t => s.reach ≤ t.offset.toNat
  close : (Header.span :: l.spans).IsChain Span.Next
  /-- The total is the least multiple of 16 that is not before the end of the last section. -/
  total : ∃ last, l.spans.getLast? = some last ∧ l.total.toNat % 16 = 0 ∧ last.reach ≤ l.total.toNat ∧
    ∀ n, n % 16 = 0 → last.reach ≤ n → l.total.toNat ≤ n

theorem sound_ofHeader (h : Header) : (ofHeader h).Sound h := by
  have room := room_ofHeader h
  have hheader : Header.span.reach = (UInt64.ofNat Header.totalBytes).toNat := rfl
  exact {
    sizes := by
      have hwords := map_size_place (UInt64.ofNat Header.totalBytes) (Section.all.map (Section.size h))
      have hsizes := congrArg (List.map UInt64.toNat) hwords
      rw [List.map_map, List.map_map] at hsizes
      exact hsizes.trans (List.map_congr_left fun s _ => s.toNat_size h)
    stops := fun s hs => (Guarded.span_within room hs).1
    aligned := fun s hs => (offset_place room hs).1
    behind := fun s hs => (offset_place room hs).2
    apart := pairwise_place room
    close := isChain_place room hheader
    total := by
      obtain ⟨last, hlast, htotal⟩ := total_place room hheader
      refine ⟨last, List.getLast?_cons_cons.symm.trans hlast, ?_⟩
      rw [ofHeader, htotal]
      exact ⟨add_gap _, Nat.le_add_right _ _, fun n hn hle => add_gap_le hn hle⟩ }

end Layout

/-! ## Counts in place -/

/-- The counts, written at the front of a buffer, are read back, and nothing behind them changes. -/
structure Header.Rereads (h : Header) (buffer : Bytes) : Prop where
  inPlace : Guarded.writeHeader? h buffer = some (h.writeTo buffer)
  read : Header.read? (h.writeTo buffer) = some h
  length : (h.writeTo buffer).length = buffer.length
  rest : ∀ i, Header.countBytes ≤ i → (h.writeTo buffer)[i]? = buffer[i]?

theorem Header.rereads (h : Header) {buffer : Bytes} (hlen : totalBytes ≤ buffer.length) : h.Rereads buffer := by
  have hfront : (buffer.take countBytes).length = countBytes := by
    rw [List.length_take]
    exact Nat.min_eq_left (Nat.le_trans (by decide) hlen)
  have hcount : countBytes ≤ buffer.length := Nat.le_trans (by decide) hlen
  have hsame : (h.writeTo buffer).length = buffer.length := by
    rw [writeTo, List.length_append, length_encode, List.length_drop]
    omega
  exact {
    inPlace := by
      have hwrite := Guarded.writeHeader?_eq h (buffer.drop countBytes) hfront
      rw [List.take_append_drop] at hwrite
      exact hwrite
    read := Header.read?_eq_some_iff.mpr ⟨by rw [hsame]; exact hlen, List.take_left' h.length_encode⟩
    length := hsame
    rest := by
      intro i hi
      rw [writeTo, List.getElem?_append_right (by rw [length_encode]; exact hi), length_encode, List.getElem?_drop,
        Nat.add_sub_cancel' hi] }

/-! ## Every header -/

/-- Whatever a header counts, its layout is computed without a word that wraps and is sound, and the header is
    read back from any buffer that has room for it. -/
theorem layout_sound (h : Header) : Guarded.layout? h = some (Layout.ofHeader h) ∧ (Layout.ofHeader h).Sound h ∧
    ∀ buffer : Bytes, Header.totalBytes ≤ buffer.length → h.Rereads buffer :=
  ⟨Guarded.layout?_eq h, Layout.sound_ofHeader h, fun _ => h.rereads⟩

/-- A header with every count as large as its field allows, and the function number as small as can be. -/
def widest : Header where
  codeLength := 0xffffffff
  outputDatasets := 0xffffffff
  allocatedConstants := 0xffff
  registers := 0xffffffff
  constants := 0xffff
  inputs := 0xffff
  outputFields := 0xffff
  stillInputs := 0xffff
  inputDatasets := 0xffff
  outputs := 0xffff
  functions := 0xffffffff
  callRegisters := 0xffffffff
  spareRegisters := 0xffffffff
  lastFunction := -2147483648
  flags := 0xffffffff

theorem layout_sound_widest : Header.totalBytes ≤ (List.replicate 70 (1 : UInt8)).length ∧
    Guarded.layout? widest = some (Layout.ofHeader widest) ∧ (Layout.ofHeader widest).total = 73015296048 ∧
      Header.read? (widest.writeTo (List.replicate 70 1)) = some widest ∧
        (widest.writeTo (List.replicate 70 1))[46]? = some 1 := by
  have hlen : Header.totalBytes ≤ (List.replicate 70 (1 : UInt8)).length := by decide
  obtain ⟨hlayout, -, hwritten⟩ := layout_sound widest
  exact ⟨hlen, hlayout, by decide, (hwritten _ hlen).read, (hwritten _ hlen).rest 46 (Nat.le_refl _)⟩

end LaneScript
