/-
  LaneScript.Proofs.Framed — the buffers that pass the outer checks.

  A buffer passes the checks of length, hash and padding exactly if it is `framed`:
  counts, hash, zeros, and then sections of the sizes that the counts give, each filled
  up with zeros. Nothing of a framed buffer is free beyond its header and its sections.
  The digest is any function of the bytes it covers: `loadBy` loads a buffer as `load`
  does, and `Image.packBy` packs an image as `pack` does, with such a function in its place.
-/
import LaneScript.Image.Load
import LaneScript.Proofs.View

namespace LaneScript

variable {digest : Bytes → UInt64}

/-! ## Any digest -/

def contentHashBy? (digest : Bytes → UInt64) (buffer : Bytes) : Option UInt64 :=
  if buffer.length < Header.fieldBytes then none
  else some (digest (buffer.take Header.countBytes ++ List.replicate 8 0 ++ buffer.drop Header.fieldBytes))

def restampBy (digest : Bytes → UInt64) (buffer : Bytes) : Bytes :=
  match contentHashBy? digest buffer with
  | none => buffer
  | some hash => buffer.take Header.countBytes ++ Bytes.le 8 hash.toNat ++ buffer.drop Header.fieldBytes

def Image.packBy (digest : Bytes → UInt64) (m : Image) : Bytes :=
  restampBy digest (m.synced.encode ++ List.replicate (Header.totalBytes - Header.countBytes) 0 ++ m.body)

def loadBy (digest : Bytes → UInt64) (buffer : Bytes) : Except Rejection Loaded :=
  match Header.read? buffer with
  | none => .error .short
  | some h =>
    let layout := Layout.ofHeader h
    if layout.total.toNat ≠ buffer.length then .error .length
    else if contentHashBy? digest buffer ≠ some (Header.storedHash buffer) then .error .hash
    else if !Load.paddingOk buffer layout then .error .padding
    else
      let m := Load.view buffer h
      match Load.functionsOk m with
      | .error e => .error e
      | .ok _ =>
        if !Load.inputsOk m then .error .inputs
        else if !Load.outputsOk m then .error .outputs
        else .ok m

theorem contentHashBy?_short : contentHashBy? Digest.short = contentHash? := rfl

theorem restampBy_short : restampBy Digest.short = restamp := by
  funext buffer
  cases h : contentHash? buffer with
  | none => simp only [restampBy, restamp, contentHashBy?_short, h]
  | some hash => simp only [restampBy, restamp, contentHashBy?_short, h]

theorem packBy_short : Image.packBy Digest.short = Image.pack := by
  funext m
  unfold Image.packBy Image.pack
  rw [restampBy_short]

theorem loadBy_short : loadBy Digest.short = load := rfl

/-! ## The hash -/

def stamped (digest : Bytes → UInt64) (front back : Bytes) : Bytes :=
  front ++ Bytes.le 8 (digest (front ++ List.replicate 8 0 ++ back)).toNat ++ back

/-- Restamping depends on nothing but what stands around the hash. -/
theorem restampBy_eq {front middle back : Bytes} (hf : front.length = Header.countBytes) (hm : middle.length = 8) :
    restampBy digest (front ++ middle ++ back) = stamped digest front back := by
  have htake : (front ++ middle ++ back).take Header.countBytes = front := by
    rw [List.append_assoc, List.take_left' hf]
  have hdrop : (front ++ middle ++ back).drop Header.fieldBytes = back :=
    List.drop_left' (by rw [List.length_append, hf, hm]; rfl)
  have hlen : ¬ (front ++ middle ++ back).length < Header.fieldBytes := by
    rw [List.length_append, List.length_append, hf, hm]
    exact Nat.not_lt.mpr (Nat.le_add_right _ _)
  unfold restampBy contentHashBy?
  rw [if_neg hlen, htake, hdrop]
  rfl

/-- A buffer is its stored hash and what stands around it. -/
theorem around_storedHash {buffer : Bytes} (hlen : Header.totalBytes ≤ buffer.length) :
    buffer.take Header.countBytes ++ Bytes.le 8 (Header.storedHash buffer).toNat ++ buffer.drop Header.fieldBytes =
      buffer := by
  have hstored : Bytes.le 8 (Header.storedHash buffer).toNat = (buffer.drop Header.countBytes).take 8 := by
    refine Bytes.le_quad ?_
    rw [List.length_take, List.length_drop]
    unfold Header.totalBytes at hlen
    unfold Header.countBytes
    omega
  rw [hstored, ← List.take_add, show Header.countBytes + 8 = Header.fieldBytes from rfl, List.take_append_drop]

/-- The stored hash is that of the contents exactly if the buffer is a stamped one. -/
theorem contentHashBy?_iff {buffer : Bytes} (hlen : Header.totalBytes ≤ buffer.length) :
    contentHashBy? digest buffer = some (Header.storedHash buffer) ↔
      buffer = stamped digest (buffer.take Header.countBytes) (buffer.drop Header.fieldBytes) := by
  have hsplit := around_storedHash hlen
  have hfield : ¬ buffer.length < Header.fieldBytes := Nat.not_lt.mpr (Nat.le_trans (by decide) hlen)
  unfold contentHashBy? stamped
  rw [if_neg hfield, Option.some_inj]
  constructor
  · intro h
    rw [h, hsplit]
  · intro h
    have hle := List.append_cancel_left (List.append_cancel_right (hsplit.trans h))
    have hread := congrArg Bytes.ofLe hle
    rw [Bytes.ofLe_le (UInt64.toNat_lt _), Bytes.ofLe_le (UInt64.toNat_lt _)] at hread
    exact (UInt64.toNat_inj.mp hread).symm

/-! ## Sections and the zeros between them -/

theorem Section.mem_all (s : Section) : s ∈ Section.all := by
  cases s <;> decide

namespace Load

theorem isZero_iff {bytes : Bytes} : isZero bytes = true ↔ bytes = List.replicate bytes.length 0 := by
  simp [isZero, List.eq_replicate_iff]

variable {buffer : Bytes}

/-- Parts stand behind `stop`, each on a multiple of 16, with zeros between them and at the end. -/
def Laid (buffer : Bytes) (stop : Nat) (parts : List Bytes) : Prop :=
  buffer.drop stop = List.replicate (gap stop) 0 ++ parts.flatMap pad16

/-- One more part in front: the zeros up to it, the part, and what is laid behind it. -/
theorem laid_cons {stop : Nat} {part : Bytes} {parts : List Bytes} :
    Laid buffer stop (part :: parts) ↔ (buffer.drop stop).take (gap stop) = List.replicate (gap stop) 0 ∧
      (buffer.drop (stop + gap stop)).take part.length = part ∧ Laid buffer (stop + gap stop + part.length) parts := by
  have hgap : gap (stop + gap stop + part.length) = gap part.length := gap_add (add_gap stop) _
  have hpad : pad16 part = part ++ List.replicate (gap part.length) 0 := rfl
  unfold Laid
  rw [hgap, List.flatMap_cons, hpad, List.append_assoc]
  constructor
  · intro h
    have hfront : buffer.drop (stop + gap stop) = part ++ (List.replicate (gap part.length) 0 ++ parts.flatMap pad16) := by
      rw [← List.drop_drop, h, List.drop_left' List.length_replicate]
    refine ⟨?_, ?_, ?_⟩
    · rw [h, List.take_left' List.length_replicate]
    · rw [hfront, List.take_left' rfl]
    · rw [← List.drop_drop, hfront, List.drop_left' rfl]
  · intro h
    obtain ⟨hzero, hpart, hrest⟩ := h
    rw [← hrest, ← List.drop_drop (i := part.length), ← hzero]
    conv => rhs; rhs; lhs; rw [← hpart]
    rw [List.take_append_drop, ← List.drop_drop, List.take_append_drop]

/-- Behind the header nothing has to be filled up. -/
theorem laid_totalBytes {parts : List Bytes} :
    Laid buffer (UInt64.ofNat Header.totalBytes).toNat parts ↔ buffer.drop Header.totalBytes = parts.flatMap pad16 := by
  have hstart : (UInt64.ofNat Header.totalBytes).toNat = Header.totalBytes := rfl
  have hgap : gap Header.totalBytes = 0 := rfl
  unfold Laid
  rw [hstart, hgap, List.replicate_zero, List.nil_append]

section Place

variable {stop : UInt64} {sizes : List UInt64}

/-- Where the gaps of a layout are zero, what stands in its spans is laid. -/
theorem laid_of_gapsZero (room : Layout.Room stop sizes) (htotal : (Layout.place stop sizes).total.toNat = buffer.length)
    (hz : gapsZero buffer stop.toNat (Layout.place stop sizes).spans = true) :
    Laid buffer stop.toNat ((Layout.place stop sizes).spans.map (·.slice buffer)) ∧
      ((Layout.place stop sizes).spans.map (·.slice buffer)).map List.length = sizes.map UInt64.toNat := by
  -- Along the sizes: the first gap and part come off in front, and the next gap begins where the part ends.
  induction sizes generalizing stop with
  | nil =>
    have hlen : (align16 stop).toNat = buffer.length := htotal
    rw [room.align] at hlen
    have hzero := isZero_iff.mp (show isZero (buffer.drop stop.toNat) = true from hz)
    rw [List.length_drop, show buffer.length - stop.toNat = gap stop.toNat by omega] at hzero
    exact ⟨hzero.trans (List.append_nil _).symm, rfl⟩
  | cons size sizes ih =>
    have ha := room.align
    obtain ⟨hroom, hstop⟩ := room.tail
    rw [Layout.place, gapsZero, Bool.and_eq_true] at hz
    obtain ⟨hfront, hback⟩ := hz
    obtain ⟨hlaid, hsizes⟩ := ih hroom htotal hback
    have hend : stop.toNat + gap stop.toNat + size.toNat ≤ buffer.length := by
      rw [← hstop, ← htotal]
      exact Layout.le_total hroom
    have hlen : (Span.slice ⟨align16 stop, size⟩ buffer).length = size.toNat := by
      show ((buffer.drop (align16 stop).toNat).take size.toNat).length = size.toNat
      rw [List.length_take, List.length_drop, ha]
      exact Nat.min_eq_left (by omega)
    have hzero := isZero_iff.mp hfront
    rw [ha, Nat.add_sub_cancel_left] at hzero
    refine ⟨laid_cons.mpr ⟨?_, ?_, ?_⟩, ?_⟩
    · rw [hzero, List.length_take, List.length_drop, Nat.min_eq_left (by omega)]
    · rw [hlen, ← ha]
      rfl
    · rw [hlen, ← hstop]
      exact hlaid
    · show _ :: _ = _ :: _
      rw [hlen, hsizes]

/-- What is laid stands in the spans of the layout of its sizes, and the gaps are zero. -/
theorem gapsZero_of_laid {parts : List Bytes} (room : Layout.Room stop sizes) (hle : stop.toNat ≤ buffer.length)
    (hsizes : parts.map List.length = sizes.map UInt64.toNat) (h : Laid buffer stop.toNat parts) :
    (Layout.place stop sizes).total.toNat = buffer.length ∧
      gapsZero buffer stop.toNat (Layout.place stop sizes).spans = true ∧
        (Layout.place stop sizes).spans.map (·.slice buffer) = parts := by
  induction sizes generalizing stop parts with
  | nil =>
    cases List.map_eq_nil_iff.mp hsizes
    have hzero : buffer.drop stop.toNat = List.replicate (gap stop.toNat) 0 := h.trans (List.append_nil _)
    have hlen := congrArg List.length hzero
    rw [List.length_drop, List.length_replicate] at hlen
    refine ⟨?_, ?_, rfl⟩
    · show (align16 stop).toNat = buffer.length
      rw [room.align]
      omega
    · show isZero (buffer.drop stop.toNat) = true
      rw [isZero_iff, hzero, List.length_replicate]
  | cons size sizes ih =>
    obtain ⟨part, parts, rfl, hpart, hsizes⟩ := List.map_eq_cons_iff.mp hsizes
    have ha := room.align
    obtain ⟨hroom, hstop⟩ := room.tail
    obtain ⟨hfront, hslice, hback⟩ := laid_cons.mp h
    rw [hpart] at hslice hback
    rw [← hstop] at hback
    have hlen := congrArg List.length hslice
    have hzero := congrArg List.length hfront
    rw [List.length_take, List.length_drop] at hlen hzero
    rw [List.length_replicate] at hzero
    obtain ⟨htotal, hgaps, hspans⟩ := ih hroom (by omega) hsizes hback
    refine ⟨htotal, ?_, ?_⟩
    · rw [Layout.place, gapsZero, Bool.and_eq_true, ha, Nat.add_sub_cancel_left, isZero_iff, hfront,
        List.length_replicate]
      exact ⟨rfl, hgaps⟩
    · show Span.slice ⟨align16 stop, size⟩ buffer :: _ = part :: parts
      rw [← hspans, Span.slice, ha, hslice]

end Place

/-- Sections stand in the order of the spans. -/
theorem map_sectionBytes (buffer : Bytes) (h : Header) :
    Section.all.map (sectionBytes buffer (Layout.ofHeader h)) = (Layout.ofHeader h).spans.map (·.slice buffer) := rfl

end Load

/-! ## Framed buffers -/

def framedBack (parts : Section → Bytes) : Bytes :=
  List.replicate (Header.totalBytes - Header.fieldBytes) 0 ++ Section.all.flatMap fun s => pad16 (parts s)

def framed (digest : Bytes → UInt64) (h : Header) (parts : Section → Bytes) : Bytes :=
  stamped digest h.encode (framedBack parts)

def Sized (h : Header) (parts : Section → Bytes) : Prop := ∀ s, (parts s).length = s.length h

namespace Load

/-- What `load` checks before it looks into the sections. -/
structure Outer (digest : Bytes → UInt64) (buffer : Bytes) (h : Header) : Prop where
  header : Header.read? buffer = some h
  length : (Layout.ofHeader h).total.toNat = buffer.length
  hash : contentHashBy? digest buffer = some (Header.storedHash buffer)
  padding : paddingOk buffer (Layout.ofHeader h) = true

variable {buffer : Bytes} {h : Header} {parts : Section → Bytes}

/-- A buffer that passes is framed by its own sections. -/
theorem Outer.eq_framed (ho : Outer digest buffer h) : Sized h (sectionBytes buffer (Layout.ofHeader h)) ∧
    buffer = framed digest h (sectionBytes buffer (Layout.ofHeader h)) := by
  obtain ⟨hlen, hcounts⟩ := Header.read?_eq_some_iff.mp ho.header
  obtain ⟨hpad, hgaps⟩ := Bool.and_eq_true_iff.mp ho.padding
  obtain ⟨hlaid, hsizes⟩ := laid_of_gapsZero (Layout.room_ofHeader h) ho.length hgaps
  rw [← Layout.ofHeader, ← map_sectionBytes] at hlaid hsizes
  have hbody : buffer.drop Header.totalBytes =
      Section.all.flatMap fun s => pad16 (sectionBytes buffer (Layout.ofHeader h) s) := by
    rw [laid_totalBytes, List.flatMap_map] at hlaid
    exact hlaid
  have hzero := isZero_iff.mp hpad
  rw [List.length_take, List.length_drop, Nat.min_eq_left (Nat.sub_le_sub_right hlen _)] at hzero
  constructor
  · rw [List.map_map, List.map_map, List.map_inj_left] at hsizes
    intro s
    exact (hsizes s s.mem_all).trans (s.toNat_size h)
  · have hback : buffer.drop Header.fieldBytes = framedBack (sectionBytes buffer (Layout.ofHeader h)) := by
      unfold framedBack
      rw [← hbody, ← hzero, show Header.totalBytes = Header.fieldBytes + (Header.totalBytes - Header.fieldBytes) from rfl,
        ← List.drop_drop]
      exact (List.take_append_drop _ _).symm
    unfold framed
    rw [← hcounts, ← hback]
    exact (contentHashBy?_iff hlen).mp ho.hash

/-- A framed buffer passes, and its sections are what it was framed of. -/
theorem outer_framed (hs : Sized h parts) :
    Outer digest (framed digest h parts) h ∧ ∀ s, sectionBytes (framed digest h parts) (Layout.ofHeader h) s = parts s := by
  have hback : (framed digest h parts).drop Header.fieldBytes = framedBack parts := by
    refine List.drop_left' ?_
    rw [List.length_append, Header.length_encode, Bytes.length_le]
    rfl
  have hfront : (framed digest h parts).take Header.countBytes = h.encode := by
    unfold framed stamped
    rw [List.append_assoc, List.take_left' h.length_encode]
  have hbody : (framed digest h parts).drop Header.totalBytes = Section.all.flatMap fun s => pad16 (parts s) := by
    rw [show Header.totalBytes = Header.fieldBytes + (Header.totalBytes - Header.fieldBytes) from rfl, ← List.drop_drop,
      hback]
    exact List.drop_left' List.length_replicate
  have hlen : Header.totalBytes ≤ (framed digest h parts).length := by
    unfold framed stamped framedBack
    have hheader : Header.totalBytes = Header.countBytes + 8 + (Header.totalBytes - Header.fieldBytes) := rfl
    rw [List.length_append, List.length_append, List.length_append, h.length_encode, Bytes.length_le,
      List.length_replicate]
    omega
  have hlaid : Laid (framed digest h parts) (UInt64.ofNat Header.totalBytes).toNat (Section.all.map parts) := by
    rw [laid_totalBytes, List.flatMap_map]
    exact hbody
  obtain ⟨htotal, hgaps, hspans⟩ := gapsZero_of_laid (Layout.room_ofHeader h) hlen
    (by
      rw [List.map_map, List.map_map, List.map_inj_left]
      intro s _
      exact (hs s).trans (s.toNat_size h).symm) hlaid
  have hpad : isZero (((framed digest h parts).drop Header.fieldBytes).take (Header.totalBytes - Header.fieldBytes)) = true := by
    rw [hback, framedBack, List.take_left' List.length_replicate, isZero_iff, List.length_replicate]
  constructor
  · refine ⟨Header.read?_eq_some_iff.mpr ⟨hlen, hfront⟩, htotal, ?_, Bool.and_eq_true_iff.mpr ⟨hpad, hgaps⟩⟩
    rw [contentHashBy?_iff hlen, hfront, hback]
    rfl
  · intro s
    rw [← Layout.ofHeader, ← map_sectionBytes, List.map_inj_left] at hspans
    exact hspans s s.mem_all

/-! ## What is loaded -/

structure Accepted (digest : Bytes → UInt64) (buffer : Bytes) (m : Loaded) : Prop where
  outer : Outer digest buffer m.header
  view : m = Load.view buffer m.header
  functions : functionsOk m = .ok ()
  inputs : inputsOk m = true
  outputs : outputsOk m = true

theorem loadBy_ok_iff {m : Loaded} : loadBy digest buffer = .ok m ↔ Accepted digest buffer m := by
  constructor
  · intro hl
    unfold loadBy at hl
    split at hl
    · cases hl
    rename_i h hh
    dsimp only at hl
    by_cases hlen : (Layout.ofHeader h).total.toNat = buffer.length
    case neg =>
      rw [if_pos hlen] at hl
      cases hl
    by_cases hhash : contentHashBy? digest buffer = some (Header.storedHash buffer)
    case neg =>
      rw [if_neg (Decidable.not_not.mpr hlen), if_pos hhash] at hl
      cases hl
    rw [if_neg (Decidable.not_not.mpr hlen), if_neg (Decidable.not_not.mpr hhash)] at hl
    split at hl
    · cases hl
    rename_i hpad
    have hpad : paddingOk buffer (Layout.ofHeader h) = true := by simpa using hpad
    split at hl
    · cases hl
    rename_i hf
    split at hl
    · cases hl
    rename_i hi
    split at hl
    · cases hl
    rename_i ho
    cases hl
    exact ⟨⟨hh, hlen, hhash, hpad⟩, rfl, hf, by simpa using hi, by simpa using ho⟩
  · intro ha
    obtain ⟨⟨hh, hlen, hhash, hpad⟩, hv, hf, hi, ho⟩ := ha
    unfold loadBy
    simp [hh, hlen, hhash, hpad, ← hv, hf, hi, ho]

theorem load_ok_iff {m : Loaded} : load buffer = .ok m ↔ Accepted Digest.short buffer m := loadBy_ok_iff

end Load

end LaneScript
