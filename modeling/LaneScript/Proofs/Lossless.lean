/-
  LaneScript.Proofs.Lossless — what packing keeps of an image.

  Proved: a packable image that loads again comes back with its own counts and with
  every array, the slots of the callables cleared, whatever its header said before. One
  array can be lost: a table of input offsets that has an end and no data set is
  packable, and the layout of no data sets has no room for it.
-/
import LaneScript.Proofs.Repack

namespace LaneScript

def ExternalFn.unbound (f : ExternalFn) : ExternalFn := { f with slot := 0 }

/-- Slots are not stored. -/
theorem ExternalFn.flatMap_encode_unbound (fs : List ExternalFn) :
    (fs.map unbound).flatMap encode = fs.flatMap encode :=
  List.flatMap_map ..

namespace Image

variable {m n : Image} {l : Loaded}

/-- An image that counts itself and has nothing bound. -/
def unbound (m : Image) : Image :=
  { m with header := m.synced, functions := m.functions.map ExternalFn.unbound }

/-! ## Images that pack alike -/

/-- Packing looks at the counts, and at as much of each section as they give room for. -/
theorem pack_congr (hsynced : m.synced = n.synced)
    (hcontents : ∀ s, Bytes.fit (Section.size n.synced s).toNat (m.contents s) =
      Bytes.fit (Section.size n.synced s).toNat (n.contents s)) : m.pack = n.pack := by
  have hbody : m.body = n.body := by
    unfold body
    simp only [hsynced, hcontents]
  unfold pack
  rw [hsynced, hbody]

theorem synced_unbound (m : Image) : m.unbound.synced = m.synced := by
  unfold unbound synced
  simp only [List.length_map]

theorem pack_unbound (m : Image) : m.unbound.pack = m.pack := by
  refine pack_congr m.synced_unbound ?_
  intro s
  cases s with
  | functions => exact congrArg _ (ExternalFn.flatMap_encode_unbound m.functions)
  | _ => rfl

theorem packable_unbound (hp : m.Packable) : m.unbound.Packable := by
  have hlen : m.unbound.functions.length = m.functions.length := List.length_map _
  exact { hp with functions := hlen ▸ hp.functions }

def withoutOffsets (m : Image) : Image := { m with inputOffsets := [] }

/-- An end alone counts as no data set. -/
theorem synced_withoutOffsets (h : m.inputOffsets.length = 1) : m.withoutOffsets.synced = m.synced := by
  unfold withoutOffsets synced
  simp only [h]
  rfl

/-- Without data sets there is no room for an end. -/
theorem pack_withoutOffsets (h : m.inputOffsets.length = 1) : m.withoutOffsets.pack = m.pack := by
  refine pack_congr (synced_withoutOffsets h) ?_
  intro s
  cases s with
  | inputOffsets =>
    have hroom : Section.length m.synced .inputOffsets = 0 := by
      simp only [Section.length, Header.offsetEntries, synced, h]
      rfl
    rw [Section.toNat_size, hroom]
    rfl
  | _ => rfl

theorem packable_withoutOffsets (hp : m.Packable) : m.withoutOffsets.Packable := { hp with offsets := .inl rfl }

/-! ## Loading again -/

/-- What loads from a packed image is the image, unbound. -/
theorem toImage_of_load_pack (hp : m.Packable) (ho : m.WholeOffsets) (h : load m.pack = .ok l) :
    l.toImage = m.unbound := by
  have hslots : ∀ f ∈ m.unbound.functions, f.slot = 0 := by
    intro f hf
    obtain ⟨g, -, rfl⟩ := List.mem_map.mp hf
    rfl
  obtain ⟨houter, himage⟩ := toImage_view (packable_unbound hp) ho hslots
  rw [pack_unbound, synced_unbound] at houter himage
  have ha := Load.load_ok_iff.mp h
  have hheader : l.header = m.synced := Option.some.inj (ha.outer.header.symm.trans houter.header)
  rw [ha.view, hheader, himage]
  rfl

/-- A packable image that loads again comes back whole, with its own counts and nothing bound, except that a table
    of offsets that is an end alone comes back empty. -/
theorem load_pack_keeps (hp : m.isPackable = true) (h : load m.pack = .ok l) :
    (l.toImage = m.unbound ↔ m.inputOffsets.length ≠ 1) ∧
      (m.inputOffsets.length = 1 → l.toImage = m.unbound.withoutOffsets) := by
  have hp := isPackable_iff.mp hp
  by_cases hlone : m.inputOffsets.length = 1
  · have hempty : m.withoutOffsets.WholeOffsets := by
      intro hone
      cases hone
    have hlost : l.toImage = m.unbound.withoutOffsets := by
      rw [← pack_withoutOffsets hlone] at h
      rw [toImage_of_load_pack (packable_withoutOffsets hp) hempty h, unbound, synced_withoutOffsets hlone]
      rfl
    refine ⟨⟨?_, fun hne => absurd hlone hne⟩, fun _ => hlost⟩
    intro hwhole
    have hoffsets : m.inputOffsets = [] := congrArg Image.inputOffsets (hwhole.symm.trans hlost)
    rw [hoffsets] at hlone
    cases hlone
  · have hwhole : l.toImage = m.unbound := toImage_of_load_pack hp hlone h
    exact ⟨⟨fun _ => hlone, fun _ => hwhole⟩, fun hone => absurd hone hlone⟩

/-- The small image with its function bound and with a header that counts nothing. -/
def boundImage : Image :=
  { smallImage with
    header := { stillInputs := 1, outputDatasets := 1, lastFunction := 0 }
    functions := [{ slot := 7, sources := 2, dests := 1, registers := 3 }] }

theorem load_pack_keeps_bound : boundImage.isPackable = true ∧ ∃ l, load boundImage.pack = .ok l ∧
    (l.toImage = boundImage.unbound ↔ boundImage.inputOffsets.length ≠ 1) ∧
      (boundImage.inputOffsets.length = 1 → l.toImage = boundImage.unbound.withoutOffsets) := by
  have hp : boundImage.isPackable = true := by decide
  have ho : boundImage.unbound.inputOffsets.length ≠ 1 := by decide
  have hc : boundImage.unbound.Checked := {
    header := by decide
    slots := by decide
    lower := by decide
    upper := by decide
    inputs := .inr ⟨by decide, by decide, by decide, by decide⟩
    types := List.forall_mem_singleton.mpr (by decide)
    datasets := List.forall_mem_singleton.mpr (by decide) }
  obtain ⟨l, hl, -⟩ := load_pack (packable_unbound (isPackable_iff.mp hp)) ho hc
  rw [pack_unbound] at hl
  exact ⟨hp, l, hl, load_pack_keeps hp hl⟩

def loneEnd : Image := { inputOffsets := [0] }

/-- It is packable and loads again, and its table of offsets is gone. -/
theorem lone_end_lost : loneEnd.isPackable = true ∧
    ∃ l, load loneEnd.pack = .ok l ∧ l.toImage.inputOffsets = [] ∧ l.toImage ≠ loneEnd.unbound := by
  have hlone : loneEnd.inputOffsets.length = 1 := rfl
  have hp : loneEnd.isPackable = true := by decide
  have ho : loneEnd.withoutOffsets.inputOffsets.length ≠ 1 := by decide
  have hc : loneEnd.withoutOffsets.Checked := {
    header := by decide
    slots := by decide
    lower := by decide
    upper := by decide
    inputs := .inl ⟨rfl, rfl, rfl⟩
    types := List.forall_mem_nil _
    datasets := List.forall_mem_nil _ }
  obtain ⟨l, hl, himage⟩ := load_pack (packable_withoutOffsets (isPackable_iff.mp hp)) ho hc
  rw [pack_withoutOffsets hlone] at hl
  refine ⟨hp, l, hl, congrArg Image.inputOffsets himage, ?_⟩
  intro hwhole
  have hoffsets : ([] : List UInt16) = [0] := congrArg Image.inputOffsets (himage.symm.trans hwhole)
  cases hoffsets

end Image

end LaneScript
