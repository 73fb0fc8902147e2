/-
  LaneScript.Proofs.Iteration — a view gives the same values by index as one after the other.

  An index is a 64-bit word. Its product with the width of a value is checked, but the
  end of the range behind it is a sum that may wrap. Where it does, the range would run
  backwards, as a view is far shorter than a word can count and the wrapped end stands
  before the start; so there is no index whose range wraps around to a value.

  Proved, for every view of every buffer that loads (`load_views_agree`): iterating gives
  the values whose bytes stand one behind the other, as many as the size says; an index
  finds the value that iterating meets at that place, and no index from the size on
  finds anything.
-/
import LaneScript.Proofs.Indexing

namespace LaneScript

namespace View

variable {α : Type} [Stored α] {v : View α}

structure Agrees (v : View α) : Prop where
  size : v.toList.length = v.size
  /-- The values are read from the bytes one width after the other. -/
  value : ∀ k < v.size, v.toList[k]? = some (Stored.read ((v.bytes.drop (k * Stored.width α)).take (Stored.width α)))
  found : ∀ (i : UInt64) (a : α), v.get? i = some a ↔ i.toNat < v.size ∧ v.toList[i.toNat]? = some a
  missed : ∀ i : UInt64, v.get? i = none ↔ v.size ≤ i.toNat

theorem Reads.agrees (h : v.Reads v.toList) : v.Agrees where
  size := v.length_toList
  value k hk := getElem?_readFrom hk v.bytes
  found i a := by
    rw [h.2 i]
    refine ⟨fun ha => ⟨?_, ha⟩, And.right⟩
    rw [← v.length_toList]
    exact (List.getElem?_eq_some_iff.mp ha).1
  missed i := by rw [h.2 i, List.getElem?_eq_none_iff, v.length_toList]

end View

/-- Every view of a buffer that loads gives the same values by index as one after the other. -/
theorem load_views_agree {buffer : Bytes} {m : Loaded} (h : load buffer = .ok m) :
    m.constants.Agrees ∧ m.inputs.Agrees ∧ m.inputOffsets.Agrees ∧ m.outputDatasets.Agrees ∧ m.outputTypes.Agrees ∧
      m.outputFields.Agrees ∧ m.functions.Agrees := by
  have hs := (Load.load_ok_iff.mp h).sized
  -- The header gives each section room for whole values.
  have words : ∀ (s : Section) (v : View UInt16) (n : Nat), m.stored s = v.bytes → s.length m.header = 2 * n → v.Agrees :=
    fun s v n hv hn => (Loaded.reads_section hs hv hn (by decide) (by decide)).agrees
  have htypes : m.outputTypes.Reads m.outputTypes.toList :=
    Loaded.reads_section (s := .outputTypes) hs rfl (Nat.one_mul _).symm (by decide) (by decide)
  have hfunctions : m.functions.Reads m.functions.toList :=
    Loaded.reads_section (s := .functions) hs rfl rfl (by decide) (by decide)
  exact ⟨words .constants _ _ rfl rfl, words .inputs _ _ rfl rfl, words .inputOffsets _ _ rfl rfl,
    words .outputDatasets _ _ rfl rfl, htypes.agrees, words .outputFields _ _ rfl rfl, hfunctions.agrees⟩

/-- The last index whose product with the width still fits ends its range at 0, for words, bytes and rows alike. -/
theorem load_views_agree_small : ∃ m, load smallImage.pack = .ok m ∧ m.constants.get? 0 = some 7 ∧
    m.constants.get? 9223372036854775807 = none ∧ m.outputTypes.get? 18446744073709551615 = none ∧
      m.functions.get? 1152921504606846975 = none := by
  have hc : smallImage.Checked := {
    header := by decide
    slots := by decide
    lower := by decide
    upper := by decide
    inputs := .inr ⟨by decide, by decide, by decide, by decide⟩
    types := List.forall_mem_singleton.mpr (by decide)
    datasets := List.forall_mem_singleton.mpr (by decide) }
  have ho : smallImage.inputOffsets.length ≠ 1 := by decide
  obtain ⟨m, hm, himage⟩ := Image.load_pack (Image.isPackable_iff.mp (by decide)) ho hc
  obtain ⟨hconstants, -, -, -, htypes, -, hfunctions⟩ := load_views_agree hm
  have constants : m.constants.toList = [7] := congrArg Image.constants himage
  have types : m.outputTypes.toList = [Element.byte .half] := congrArg Image.outputTypes himage
  have functions : m.functions.toList.length = 1 := by
    rw [show m.functions.toList = smallImage.functions from congrArg Image.functions himage]
    rfl
  refine ⟨m, hm, ?_, ?_, ?_, ?_⟩
  · rw [hconstants.found, ← hconstants.size, constants]
    exact ⟨by decide, rfl⟩
  · rw [hconstants.missed, ← hconstants.size, constants]
    decide
  · rw [htypes.missed, ← htypes.size, types]
    decide
  · rw [hfunctions.missed, ← hfunctions.size, functions]
    decide

end LaneScript
