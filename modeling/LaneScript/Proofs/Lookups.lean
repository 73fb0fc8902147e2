/-
  LaneScript.Proofs.Lookups — no operand is without a number.

  Renumbering reads the nodes of an order and enters what each refers to; emission walks
  over the same nodes and looks it all up again. Unread results apart, which emission
  does not look up, both see the same operands, so every lookup finds something
  (`covered_ofOrder`). What is left to go wrong is that there are too many registers or
  too many bytes (`ofChains_error`).
-/
import LaneScript.Proofs.Dense

namespace LaneScript

namespace Renumbering

variable {p : Program} {l : Liveness} {order : List Nat} {r : Renumbering} {i : Nat} {n : Node}

/-- In a table that is not full, every key that was added has a number. -/
theorem exists_get?_addAll {ks : List Nat} (hlt : (({} : Numbering).addAll ks).size < Numbering.capacity) {k : Nat}
    (hk : k ∈ ks) : ∃ x, (({} : Numbering).addAll ks).get? k = some x := by
  obtain ⟨a, ha⟩ := List.getElem?_of_mem (Numbering.mem_addAll_of_lt Numbering.valid_empty hlt hk)
  exact ⟨_, ((Numbering.valid_addAll Numbering.valid_empty ks).get?_of_getElem? ha).1⟩

theorem mem_registersAt_of_source (hn : p[i]? = some n) {old : UInt16} (ho : .reg old ∈ n.instr.sources) :
    old.toNat ∈ registersAt p l i := by
  rw [registersAt, hn]
  exact List.mem_append_left _ (List.mem_filterMap.mpr ⟨.reg old, ho, rfl⟩)

theorem mem_registersAt_of_dest (hn : p[i]? = some n) {k : Nat} {old : UInt16} (ho : n.instr.dests[k]? = some (.reg old))
    (hu : l.isUnread i k = false) : old.toNat ∈ registersAt p l i := by
  rw [registersAt, hn]
  refine List.mem_append_right _ (List.mem_filterMap.mpr ⟨(.reg old, k), List.mk_mem_zipIdx_iff_getElem?.mpr ho, ?_⟩)
  simp [hu, Dest.reg?]

theorem mem_constantsAt (hn : p[i]? = some n) {old : UInt16} (ho : .const old ∈ n.instr.sources) :
    old.toNat ∈ constantsAt p i := by
  rw [constantsAt, hn]
  exact List.mem_filterMap.mpr ⟨.const old, ho, rfl⟩

theorem lt_allocatedConstants {t : Numbering} {k : Nat} (hk : k ∈ t.keys.toList) : k < allocatedConstants t := by
  rw [allocatedConstants, ← Array.foldl_toList]
  have grow (ks : List Nat) (top : Nat) : top ≤ ks.foldl (fun top c => max top (c + 1)) top ∧
      ∀ k ∈ ks, k < ks.foldl (fun top c => max top (c + 1)) top := by
    induction ks generalizing top with
    | nil => exact ⟨Nat.le_refl _, by simp⟩
    | cons c ks ih =>
      obtain ⟨h1, h2⟩ := ih (max top (c + 1))
      rw [List.foldl_cons]
      refine ⟨by omega, fun k hk => ?_⟩
      rcases List.mem_cons.mp hk with rfl | hk
      · omega
      · exact h2 k hk
  exact (grow _ _).2 k hk

/-- Distinct keys are no more than the largest of them allows. -/
theorem size_le_allocatedConstants {t : Numbering} (hv : t.Valid) : t.size ≤ allocatedConstants t := by
  have hsub : t.keys.toList ⊆ List.range (allocatedConstants t) := by
    intro k hk
    exact List.mem_range.mpr (lt_allocatedConstants hk)
  have := (List.subperm_of_subset hv.distinct hsub).length_le
  simpa [Numbering.size] using this

/-- A field that was met has its slot. -/
theorem exists_inputSlot? (hn : Numbered p l order r) (hc : Countable p order) {m : InputRef}
    (hm : m ∈ order.filterMap (inputAt p)) : ∃ slot, r.inputSlot? m.dataset m.field m.advance = some slot := by
  rw [inputSlot?_eq hn]
  have hfields := hc.fields
  generalize order.filterMap (inputAt p) = ms at hm hfields ⊢
  have hsize := size_fields_le hfields m.dataset.toNat
  have heq := fieldsAt_eq ms m.dataset.toNat
  have hmem : m.field.toNat ∈ fieldsOf ms m.dataset.toNat m.advance := List.mem_filterMap.mpr ⟨m, hm, by simp⟩
  obtain ⟨hv, hkeys⟩ := keys_inputTable (fieldTables ms m.dataset.toNat) (by rw [← fieldsAt]; omega)
  rw [← fieldsAt] at hv hkeys
  have hkey : fieldKey m.advance m.field.toNat ∈ (inputTable (fieldsAt ms m.dataset.toNat)).keys.toList := by
    rw [hkeys]
    rw [heq] at hsize ⊢
    dsimp only at hsize
    cases ha : m.advance with
    | true =>
      rw [ha] at hmem
      exact List.mem_append_left _
        (Numbering.mem_addAll_of_lt Numbering.valid_empty (by rw [Numbering.capacity]; omega) hmem)
    | false =>
      rw [ha] at hmem
      exact List.mem_append_right _ (List.mem_map_of_mem
        (Numbering.mem_addAll_of_lt Numbering.valid_empty (by rw [Numbering.capacity]; omega) hmem))
  obtain ⟨a, ha⟩ := List.getElem?_of_mem hkey
  exact ⟨_, (hv.get?_of_getElem? ha).1⟩

end Renumbering

namespace Emission

open Renumbering

variable {p : Program} {l : Liveness} {r : Renumbering}

structure Covered (r : Renumbering) (l : Liveness) (i : Nat) (x : Instruction) : Prop where
  registers : ∀ old, .reg old ∈ x.sources → ∃ new, r.registers.get? old.toNat = some new
  constants : ∀ old, .const old ∈ x.sources → ∃ new, r.constants.get? old.toNat = some new
  dests : ∀ (k : Nat) (old : UInt16), x.dests[k]? = some (.reg old) → l.isUnread i k = false →
    ∃ new, r.registers.get? old.toNat = some new
  inputs : ∀ e advance d f, x.opcode = .input e advance → x.payload = .field d f →
    ∃ slot, r.inputSlot? d f advance = some slot
  outputs : ∀ e d f, x.opcode = .output e → x.payload = .field d f → ∃ slot, r.slotOf.getD i none = some slot

theorem covered_ofOrder {order : List Nat} (hr : ofOrder p l order = .ok r) (hd : order.Nodup)
    (hs : r.registers.size ≤ 65535) {i : Nat} {n : Node} (hi : i ∈ order) (hn : p[i]? = some n) :
    Covered r l i n.instr := by
  have hnum := numbered_ofOrder hr
  have hc := ofOrder_isOk_iff.mp ⟨r, hr⟩
  have hregs {k : Nat} (hk : k ∈ registersAt p l i) : ∃ new, r.registers.get? k = some new := by
    rw [hnum.registers] at hs ⊢
    exact exists_get?_addAll (by rw [Numbering.capacity]; omega) (List.mem_flatMap.mpr ⟨i, hi, hk⟩)
  refine ⟨fun old ho => hregs (mem_registersAt_of_source hn ho), fun old ho => ?_,
    fun k old ho hu => hregs (mem_registersAt_of_dest hn ho hu), fun e advance d f ho hf => ?_, fun e d f ho hf => ?_⟩
  · have hle := size_le_allocatedConstants
      (Numbering.valid_addAll Numbering.valid_empty (order.flatMap (constantsAt p)))
    have hmax := hc.constants
    rw [hnum.constants]
    exact exists_get?_addAll (by rw [Numbering.capacity]; omega) (List.mem_flatMap.mpr ⟨i, hi, mem_constantsAt hn ho⟩)
  · have hat : inputAt p i = some ⟨d, f, advance⟩ := by
      simp [inputAt, hn, inputIn?, ho, Instruction.address, Instruction.datasetField?, hf]
    exact exists_inputSlot? hnum hc (m := ⟨d, f, advance⟩) (List.mem_filterMap.mpr ⟨i, hi, hat⟩)
  · have hat : slotAt p i = some ⟨d, e.byte, f⟩ := by
      simp [slotAt, hn, slotIn?, ho, Instruction.address, Instruction.datasetField?, hf]
    obtain ⟨x, hx⟩ := List.getElem?_of_mem hi
    exact ⟨_, (hnum.slot hc hd hx hat).1⟩

/-! ## What can still go wrong -/

theorem bind_error {ε α β : Type} {x : Except ε α} {f : α → Except ε β} {e : ε} (h : x >>= f = .error e) :
    x = .error e ∨ ∃ a, x = .ok a ∧ f a = .error e := by
  cases x with
  | error e' => cases h; exact .inl rfl
  | ok a => exact .inr ⟨a, rfl, h⟩

theorem mapM_error {ε α β : Type} {f : α → Except ε β} {xs : List α} {e : ε} (h : xs.mapM f = .error e) :
    ∃ x ∈ xs, f x = .error e := by
  induction xs with
  | nil => cases h
  | cons x xs ih =>
    rw [List.mapM_cons] at h
    rcases bind_error h with h | ⟨y, -, h⟩
    · exact ⟨x, List.mem_cons_self, h⟩
    · rcases bind_error h with h | ⟨ys, -, h⟩
      · obtain ⟨z, hz, h⟩ := ih h
        exact ⟨z, List.mem_cons_of_mem _ hz, h⟩
      · cases h

theorem numbered_ne_error {t : Numbering} {old : UInt16} (h : ∃ new, t.get? old.toNat = some new) (e : Error) :
    numbered t old ≠ .error e := by
  obtain ⟨new, h⟩ := h
  rw [numbered_ok.mpr h]
  nofun

theorem dests_error {i : Nat} {ds : List Dest} {pos spare : Nat} {e : Error}
    (hc : ∀ (k : Nat) (old : UInt16), ds[k]? = some (.reg old) → l.isUnread i (pos + k) = false →
      ∃ new, r.registers.get? old.toNat = some new)
    (h : dests r l i pos spare ds = .error e) : e = .overflow .registers := by
  induction ds generalizing pos spare with
  | nil => cases h
  | cons d ds ih =>
    have hrest (k : Nat) (old : UInt16) (hk : ds[k]? = some (.reg old)) (hu : l.isUnread i (pos + 1 + k) = false) :=
      hc (k + 1) old hk (by rw [Nat.add_comm k 1, ← Nat.add_assoc]; exact hu)
    cases d with
    | acc =>
      rcases bind_error h with h | ⟨_, -, h⟩
      · exact ih hrest h
      · cases h
    | reg old =>
      simp only [dests] at h
      split at h
      · split at h
        · cases h
          rfl
        · rcases bind_error h with h | ⟨_, -, h⟩
          · exact ih hrest h
          · cases h
      · rename_i hu
        rcases bind_error h with h | ⟨_, -, h⟩
        · exact absurd h (numbered_ne_error (hc 0 old rfl (by simpa using hu)) e)
        · rcases bind_error h with h | ⟨_, -, h⟩
          · exact ih hrest h
          · cases h

theorem source_ne_error {i : Nat} {x : Instruction} (hc : Covered r l i x) {s : Source} (hs : s ∈ x.sources) (e : Error) :
    source r s ≠ .error e := by
  intro h
  cases s with
  | acc => cases h
  | reg old =>
    rcases bind_error h with h | ⟨_, -, h⟩
    · exact numbered_ne_error (hc.registers old hs) e h
    · cases h
  | const old =>
    rcases bind_error h with h | ⟨_, -, h⟩
    · exact numbered_ne_error (hc.constants old hs) e h
    · cases h

theorem payload_ne_error {i : Nat} {x : Instruction} (hc : Covered r l i x) (e : Error) : payload r i x ≠ .error e := by
  intro h
  unfold payload at h
  split at h
  · rename_i hp ho
    obtain ⟨slot, hslot⟩ := hc.inputs _ _ _ _ ho hp
    rw [hslot] at h
    cases h
  · rename_i hp ho
    obtain ⟨slot, hslot⟩ := hc.outputs _ _ _ ho hp
    rw [hslot] at h
    cases h
  · cases h

theorem instruction_error {i : Nat} {x : Instruction} (hc : Covered r l i x) {e : Error}
    (h : instruction r l i x = .error e) : e = .overflow .registers := by
  rcases bind_error h with h | ⟨_, -, h⟩
  · obtain ⟨s, hs, h⟩ := mapM_error h
    exact absurd h (source_ne_error hc hs e)
  · rcases bind_error h with h | ⟨_, -, h⟩
    · refine dests_error (fun k old hk hu => hc.dests k old hk ?_) h
      rw [← hu, Nat.zero_add]
    · rcases bind_error h with h | ⟨_, -, h⟩
      · exact absurd h (payload_ne_error hc e)
      · cases h

def AllCovered (p : Program) (l : Liveness) (r : Renumbering) (nodes : List Nat) : Prop :=
  ∀ i ∈ nodes, ∃ n, p[i]? = some n ∧ Covered r l i n.instr

theorem steps_error {nodes : List Nat} (hc : AllCovered p l r nodes) {e : Error} (h : steps r l p nodes = .error e) :
    e = .overflow .registers := by
  induction nodes with
  | nil => cases h
  | cons i nodes ih =>
    obtain ⟨n, hn, hcov⟩ := hc i List.mem_cons_self
    simp only [steps, hn] at h
    rcases bind_error h with h | ⟨_, -, h⟩
    · exact instruction_error hcov h
    · rcases bind_error h with h | ⟨_, -, h⟩
      · exact ih (fun j hj => hc j (List.mem_cons_of_mem _ hj)) h
      · cases h

theorem item_error {nodes : List Nat} (hc : AllCovered p l r nodes) (hlen : nodes.length ≤ 255) {e : Error}
    (h : item r l p nodes = .error e) : e = .overflow .registers := by
  rw [item, if_neg (by omega)] at h
  rcases bind_error h with h | ⟨_, -, h⟩
  · exact steps_error hc h
  · split at h
    · cases h
    · cases h

/-- Chains whose operands all have numbers fail to be written only for want of room. -/
theorem ofChains_error {chains : List (List Nat)} (hc : r.registers.size ≤ 65535 → AllCovered p l r chains.flatten)
    (hlen : ∀ c ∈ chains, c.length ≤ 255) {e : Error} (h : ofChains p l r chains = .error e) :
    e = .overflow .registers ∨ e = .streamTooLong := by
  unfold ofChains at h
  split at h
  · cases h
    exact .inl rfl
  · rename_i hs
    rcases bind_error h with h | ⟨items, -, h⟩
    · obtain ⟨c, hmem, h⟩ := mapM_error h
      refine .inl (item_error (fun i hi => ?_) (hlen c hmem) h)
      exact hc (by omega) i (List.mem_flatten.mpr ⟨c, hmem, hi⟩)
    · dsimp only at h
      generalize (if items.isEmpty then [] else Stream.encode items ++ [Opcode.done.byte]) = code at h
      split at h
      · cases h
        exact .inr rfl
      · cases h

end Emission

end LaneScript
