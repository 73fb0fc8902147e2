/-
  LaneScript.Proofs.InPlace — packing an image without leaving the buffer.

  `Guarded.pack?` packs an image into a buffer of zeros that has its full length from the
  start: the counts one by one at their offsets, then every section value by value into
  its span, then the hash. Every write goes through `Bytes.revise?`, which has no answer
  for a range that is not one of the buffer's, and a section takes only whole values.
  Proved: for every image, packable or not, it answers, and with what `pack` gives. So no
  section is written past its end, whatever the lengths of the arrays were cut to, and
  what no write reaches is still zero.
-/
import LaneScript.Proofs.Guarded

namespace LaneScript

/-- What is in front fills its share, and the rest is fitted behind it. -/
theorem Bytes.fit_append {front : Bytes} {n : Nat} (h : front.length ≤ n) (back : Bytes) :
    fit n (front ++ back) = front ++ fit (n - front.length) back := by
  simp only [fit, List.take_append, List.take_of_length_le h, List.length_append, List.append_assoc, Nat.sub_add_eq]

theorem Bytes.fit_nil (n : Nat) : fit n [] = List.replicate n 0 := by
  simp [fit]

/-- The buffer with the bytes from `start` to before `stop` put through `f`; `none` for a range that is not one of the
    buffer's. -/
def Bytes.revise? (buffer : Bytes) (start stop : Nat) (f : Bytes → Bytes) : Option Bytes :=
  (buffer.slice? start stop).map fun part => buffer.take start ++ f part ++ buffer.drop stop

theorem Bytes.revise?_append {front part : Bytes} (back : Bytes) {start stop : Nat} (f : Bytes → Bytes)
    (hstart : front.length = start) (hstop : start + part.length = stop) :
    (front ++ part ++ back).revise? start stop f = some (front ++ f part ++ back) := by
  subst hstart hstop
  have hlen : front.length + part.length ≤ (front ++ part ++ back).length := by
    rw [List.length_append, List.length_append]
    exact Nat.le_add_right _ _
  rw [revise?, slice?_of_le (Nat.le_add_right _ _) hlen, Option.map_some, Nat.add_sub_cancel_left,
    List.drop_left' List.length_append, List.append_assoc front, List.drop_left' rfl, List.take_left' rfl,
    List.take_left' rfl]

namespace Guarded

/-! ## The counts -/

def put? (buffer : Bytes) (field : Nat × Bytes) : Option Bytes :=
  buffer.revise? field.1 (field.1 + field.2.length) fun _ => field.2

def fields (h : Header) : List (Nat × Bytes) :=
  [(0, Bytes.le 4 h.codeLength.toNat), (4, Bytes.le 4 h.outputDatasets.toNat), (8, Bytes.le 2 h.allocatedConstants.toNat),
    (10, Bytes.le 4 h.registers.toNat), (14, Bytes.le 2 h.constants.toNat), (16, Bytes.le 2 h.inputs.toNat),
    (18, Bytes.le 2 h.outputFields.toNat), (20, Bytes.le 2 h.stillInputs.toNat), (22, Bytes.le 2 h.inputDatasets.toNat),
    (24, Bytes.le 2 h.outputs.toNat), (26, Bytes.le 4 h.functions.toNat), (30, Bytes.le 4 h.callRegisters.toNat),
    (34, Bytes.le 4 h.spareRegisters.toNat), (38, Bytes.le 4 h.lastFunction.toUInt32.toNat), (42, Bytes.le 4 h.flags.toNat)]

def writeHeader? (h : Header) (buffer : Bytes) : Option Bytes := (fields h).foldlM put? buffer

def Abut : (offset : Nat) → List (Nat × Bytes) → Prop
  | _, [] => True
  | offset, field :: rest => field.1 = offset ∧ Abut (offset + field.2.length) rest

theorem put?_run {written middle : Bytes} (back : Bytes) {run : List (Nat × Bytes)} (h : Abut written.length run)
    (hm : middle.length = (run.flatMap Prod.snd).length) :
    run.foldlM put? (written ++ middle ++ back) = some (written ++ run.flatMap Prod.snd ++ back) := by
  induction run generalizing written middle with
  | nil =>
    rw [List.length_eq_zero_iff.mp hm]
    rfl
  | cons field run ih =>
    obtain ⟨hoffset, hrest⟩ := h
    rw [List.flatMap_cons, List.length_append] at hm
    have hsplit : written ++ middle ++ back =
        written ++ middle.take field.2.length ++ (middle.drop field.2.length ++ back) := by
      rw [List.append_assoc, List.append_assoc, ← List.append_assoc (middle.take _), List.take_append_drop]
    have hput : put? (written ++ middle ++ back) field =
        some (written ++ field.2 ++ (middle.drop field.2.length ++ back)) := by
      rw [put?, hsplit]
      refine Bytes.revise?_append _ _ hoffset.symm ?_
      rw [List.length_take, Nat.min_eq_left (by omega)]
    rw [List.foldlM_cons, hput, Option.bind_eq_bind, Option.bind_some, ← List.append_assoc, ih, List.flatMap_cons,
      List.append_assoc written]
    · rw [List.length_append]
      exact hrest
    · rw [List.length_drop]
      omega

/-- The counts stand in front, and the rest of the buffer is left. -/
theorem writeHeader?_eq (h : Header) {middle : Bytes} (back : Bytes) (hm : middle.length = Header.countBytes) :
    writeHeader? h (middle ++ back) = some (h.encode ++ back) := by
  have hfields : (fields h).flatMap Prod.snd = h.encode := by simp [fields, Header.encode]
  have habut : Abut ([] : Bytes).length (fields h) := by simp [Abut, fields]
  have hrun := put?_run back habut (by rw [hfields, hm, Header.length_encode])
  rw [hfields, List.nil_append, List.nil_append] at hrun
  exact hrun

theorem writeHeader?_zeros (h : Header) {n : Nat} (hn : Header.totalBytes ≤ n) :
    writeHeader? h (List.replicate n 0) = some (h.encode ++ List.replicate (Header.totalBytes - Header.countBytes) 0 ++
      List.replicate (n - Header.totalBytes) 0) := by
  have hsplit : List.replicate n (0 : UInt8) = List.replicate Header.countBytes 0 ++
      (List.replicate (Header.totalBytes - Header.countBytes) 0 ++ List.replicate (n - Header.totalBytes) 0) := by
    rw [List.replicate_append_replicate, List.replicate_append_replicate]
    congr 1
    unfold Header.totalBytes Header.countBytes at *
    omega
  rw [hsplit, writeHeader?_eq h _ List.length_replicate, List.append_assoc]

/-! ## The sections -/

/-- Chunks of `width` bytes written over a part from its beginning on, until one of them is used up. -/
def overlay (width : Nat) : (part : Bytes) → (chunks : List Bytes) → Bytes
  | part, [] => part
  | part, chunk :: rest => if part.length < width then part else chunk ++ overlay width (part.drop width) rest

def chunks (m : Image) : Section → Nat × List Bytes
  | .code => (1, m.code.map fun b => [b])
  | .constants => (2, m.constants.map fun w => Bytes.le 2 w.toNat)
  | .inputs => (2, m.inputs.map fun w => Bytes.le 2 w.toNat)
  | .inputOffsets => (2, m.inputOffsets.map fun w => Bytes.le 2 w.toNat)
  | .outputDatasets => (2, m.outputDatasets.map fun w => Bytes.le 2 w.toNat)
  | .outputTypes => (1, m.outputTypes.map fun b => [b])
  | .outputFields => (2, m.outputFields.map fun w => Bytes.le 2 w.toNat)
  | .functions => (16, m.functions.map ExternalFn.encode)

def writeSection? (m : Image) (buffer : Bytes) (target : Span × Section) : Option Bytes :=
  buffer.revise? target.1.offset.toNat target.1.stop.toNat fun part =>
    overlay (chunks m target.2).1 part (chunks m target.2).2

/-- Over zeros, whole chunks are what a part of that size holds of them. -/
theorem overlay_zeros {width n : Nat} {cs : List Bytes} (hc : ∀ c ∈ cs, c.length = width)
    (hn : n % width = 0) : overlay width (List.replicate n 0) cs = Bytes.fit n cs.flatten := by
  induction cs generalizing n with
  | nil => exact (Bytes.fit_nil n).symm
  | cons c cs ih =>
    have hlen := hc c List.mem_cons_self
    have hcs : ∀ c' ∈ cs, c'.length = width := fun c' hc' => hc c' (List.mem_cons_of_mem _ hc')
    rw [overlay, List.length_replicate]
    by_cases hlt : n < width
    · have hzero : n = 0 := by rw [← hn, Nat.mod_eq_of_lt hlt]
      rw [if_pos hlt, hzero]
      rfl
    · have hle : width ≤ n := Nat.not_lt.mp hlt
      rw [if_neg hlt, List.drop_replicate, ih hcs (by rw [← Nat.mod_eq_sub_mod hle, hn]), List.flatten_cons,
        Bytes.fit_append (hlen ▸ hle), hlen]

theorem flatten_chunks (m : Image) (s : Section) : (chunks m s).2.flatten = m.contents s := by
  have hword (ws : List UInt16) : (ws.map fun w => Bytes.le 2 w.toNat).flatten = Image.wordBytes ws := rfl
  have hbyte (bs : Bytes) : (bs.map fun b => [b]).flatten = bs := by
    rw [← List.flatMap_def, List.flatMap_singleton']
  cases s with
  | code => exact hbyte m.code
  | outputTypes => exact hbyte m.outputTypes
  | functions => exact List.flatMap_def.symm
  | constants | inputs | inputOffsets | outputDatasets | outputFields => exact hword _

/-- Chunks are of one width, and sections have room for whole chunks. -/
theorem chunks_sized (m : Image) (h : Header) (s : Section) :
    (∀ c ∈ (chunks m s).2, c.length = (chunks m s).1) ∧ s.length h % (chunks m s).1 = 0 := by
  have hword (ws : List UInt16) : ∀ c ∈ ws.map fun w => Bytes.le 2 w.toNat, c.length = 2 := by simp
  have hbyte (bs : Bytes) : ∀ c ∈ bs.map fun b => [b], c.length = 1 := by simp
  cases s with
  | code => exact ⟨hbyte _, Nat.mod_one _⟩
  | outputTypes => exact ⟨hbyte _, Nat.mod_one _⟩
  | functions => exact ⟨by simp [chunks, ExternalFn.encode], Nat.mul_mod_right 16 _⟩
  | constants | inputs | inputOffsets | outputDatasets | outputFields =>
    exact ⟨hword _, Nat.mul_mod_right 2 _⟩

theorem overlay_section (m : Image) (h : Header) (s : Section) :
    overlay (chunks m s).1 (List.replicate (s.size h).toNat 0) (chunks m s).2 = Bytes.fit (s.size h).toNat (m.contents s) := by
  obtain ⟨hc, hn⟩ := chunks_sized m h s
  rw [overlay_zeros hc (by rw [Section.toNat_size]; exact hn), flatten_chunks]

/-- Into a span of zeros a section is written as it is packed. -/
theorem writeSection?_zeros (m : Image) (h : Header) (s : Section) {front : Bytes} (back : Bytes) {span : Span}
    (hfront : front.length = span.offset.toNat) (hstop : span.stop.toNat = span.offset.toNat + (s.size h).toNat) :
    writeSection? m (front ++ List.replicate (s.size h).toNat 0 ++ back) (span, s) =
      some (front ++ Bytes.fit (s.size h).toNat (m.contents s) ++ back) := by
  have hspan : span.offset.toNat + (List.replicate (s.size h).toNat (0 : UInt8)).length = span.stop.toNat := by
    rw [List.length_replicate, hstop]
  rw [writeSection?, Bytes.revise?_append back _ hfront hspan, overlay_section]

/-- Sections are written one behind the other into what is still zero. -/
theorem writeSections?_eq (m : Image) (h : Header) {ss : List Section} {stop : UInt64} {front : Bytes}
    (room : Layout.Room stop (ss.map (Section.size h))) (hfront : front.length = stop.toNat) :
    ((Layout.place stop (ss.map (Section.size h))).spans.zip ss).foldlM (writeSection? m)
        (front ++ List.replicate ((Layout.place stop (ss.map (Section.size h))).total.toNat - stop.toNat) 0) =
      some (front ++ List.replicate (gap stop.toNat) 0 ++
        ss.flatMap fun s => pad16 (Bytes.fit (s.size h).toNat (m.contents s))) := by
  -- Along the sections: what stands in front of the next one grows by a gap and the section.
  induction ss generalizing stop front with
  | nil =>
    have htotal : (Layout.place stop []).total.toNat - stop.toNat = gap stop.toNat := by
      show (align16 stop).toNat - stop.toNat = gap stop.toNat
      rw [room.align, Nat.add_sub_cancel_left]
    rw [List.map_nil, htotal, List.flatMap_nil, List.append_nil]
    rfl
  | cons s ss ih =>
    have hoffset := room.align
    obtain ⟨hroom, hstop⟩ := room.tail
    have hle := Layout.le_total hroom
    have hstart : (front ++ List.replicate (gap stop.toNat) (0 : UInt8)).length = (align16 stop).toNat := by
      rw [List.length_append, List.length_replicate, hfront, hoffset]
    rw [List.map_cons, Layout.place]
    dsimp only
    have hzeros : List.replicate ((Layout.place (Span.stop ⟨align16 stop, s.size h⟩)
        (ss.map (Section.size h))).total.toNat - stop.toNat) (0 : UInt8) = List.replicate (gap stop.toNat) 0 ++
          (List.replicate (s.size h).toNat 0 ++ List.replicate ((Layout.place (Span.stop ⟨align16 stop, s.size h⟩)
            (ss.map (Section.size h))).total.toNat - (Span.stop ⟨align16 stop, s.size h⟩).toNat) 0) := by
      rw [List.replicate_append_replicate, List.replicate_append_replicate]
      congr 1
      omega
    rw [hzeros, ← List.append_assoc, ← List.append_assoc, List.zip_cons_cons, List.foldlM_cons,
      writeSection?_zeros m h s _ hstart (by rw [hstop, hoffset]), Option.bind_eq_bind, Option.bind_some, ih hroom]
    · have hgap : gap (Span.stop ⟨align16 stop, s.size h⟩).toNat = gap (s.size h).toNat := by
        rw [hstop, gap_add (add_gap _)]
      have hpad : pad16 (Bytes.fit (s.size h).toNat (m.contents s)) =
          Bytes.fit (s.size h).toNat (m.contents s) ++ List.replicate (gap (s.size h).toNat) 0 := by
        rw [pad16, Bytes.length_fit, gap]
      rw [hgap, List.flatMap_cons, hpad]
      simp only [List.append_assoc]
    · rw [List.length_append, Bytes.length_fit, hstart, hoffset, hstop]

/-! ## The whole buffer -/

/-- Packs an image; `none` where a write would leave the buffer. -/
def pack? (m : Image) : Option Bytes := do
  let layout := Layout.ofHeader m.synced
  let buffer ← writeHeader? m.synced (List.replicate layout.total.toNat 0)
  let buffer ← (layout.spans.zip Section.all).foldlM (writeSection? m) buffer
  let hash ← contentHash? buffer
  put? buffer (Header.countBytes, Bytes.le 8 hash.toNat)

/-- Storing the hash in place is restamping. -/
theorem put?_hash {front : Bytes} (body : Bytes) (hf : front.length = Header.countBytes) :
    ((contentHash? (front ++ List.replicate (Header.totalBytes - Header.countBytes) 0 ++ body)).bind fun hash =>
      put? (front ++ List.replicate (Header.totalBytes - Header.countBytes) 0 ++ body)
        (Header.countBytes, Bytes.le 8 hash.toNat)) =
      some (restamp (front ++ List.replicate (Header.totalBytes - Header.countBytes) 0 ++ body)) := by
  -- The zeros are those of the hash and those behind it.
  have hsplit : front ++ List.replicate (Header.totalBytes - Header.countBytes) 0 ++ body =
      front ++ List.replicate 8 0 ++ (List.replicate (Header.totalBytes - Header.fieldBytes) 0 ++ body) := by
    rw [List.append_assoc, List.append_assoc, ← List.append_assoc (List.replicate 8 0), List.replicate_append_replicate]
    rfl
  rw [hsplit]
  generalize hback : List.replicate (Header.totalBytes - Header.fieldBytes) 0 ++ body = back
  have hmiddle : (List.replicate 8 (0 : UInt8)).length = 8 := List.length_replicate
  have hlen : Header.totalBytes ≤ (front ++ List.replicate 8 0 ++ back).length := by
    rw [← hback, List.length_append, List.length_append, List.length_append, hf, hmiddle, List.length_replicate,
      ← Nat.add_assoc]
    exact Nat.le_add_right _ _
  have hfield : ¬ (front ++ List.replicate 8 0 ++ back).length < Header.fieldBytes :=
    Nat.not_lt.mpr (Nat.le_trans (by decide) hlen)
  have htake : (front ++ List.replicate 8 0 ++ back).take Header.countBytes = front := by
    rw [List.append_assoc, List.take_left' hf]
  have hdrop : (front ++ List.replicate 8 0 ++ back).drop Header.fieldBytes = back :=
    List.drop_left' (by rw [List.length_append, hf, hmiddle]; rfl)
  rw [contentHash?_eq hlen, ← restampBy_short, restampBy_eq hf hmiddle, stamped, LaneScript.contentHash?,
    if_neg hfield, htake, hdrop, Option.bind_some, put?, Bytes.length_le]
  exact Bytes.revise?_append back _ hf (by rw [hmiddle])

/-- No write leaves the buffer: the guarded packing always answers, and as `pack` does. -/
theorem pack?_eq (m : Image) : pack? m = some m.pack := by
  have hroom := Layout.room_ofHeader m.synced
  have hheader := writeHeader?_zeros m.synced
    (show Header.totalBytes ≤ (Layout.ofHeader m.synced).total.toNat from Layout.le_total hroom)
  have hfront : (m.synced.encode ++ List.replicate (Header.totalBytes - Header.countBytes) (0 : UInt8)).length =
      (UInt64.ofNat Header.totalBytes).toNat := by
    rw [List.length_append, Header.length_encode, List.length_replicate]
    rfl
  -- Behind the header nothing has to be filled up.
  have hsections : ((Layout.ofHeader m.synced).spans.zip Section.all).foldlM (writeSection? m) (m.synced.encode ++
      List.replicate (Header.totalBytes - Header.countBytes) 0 ++
        List.replicate ((Layout.ofHeader m.synced).total.toNat - Header.totalBytes) 0) =
      some (m.synced.encode ++ List.replicate (Header.totalBytes - Header.countBytes) 0 ++ [] ++ m.body) :=
    writeSections?_eq m m.synced hroom hfront
  unfold pack? Image.pack
  simp only [hheader, hsections, List.append_nil, Option.bind_eq_bind, Option.bind_some]
  exact put?_hash m.body m.synced.length_encode

end Guarded

end LaneScript
