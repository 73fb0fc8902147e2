/-
  LaneScript.Proofs.Tally — the counts of a renumbering, counted anew.

  A header holds numbers that come from running maxima and from the sizes of tables.
  Here they are said without either: the largest of some numbers (`largest`) and how
  many different ones there are (`distinct`). Proved: the tables of output fields have
  as many data sets as the largest one written asks for and as many entries as there
  are different pairs of data set and field; so it is for the tables of input fields,
  also when each field is referred to by its slot.
-/
import LaneScript.Proofs.FirstUse

namespace LaneScript

def largest (ns : List Nat) : Nat := ns.foldr max 0

theorem le_largest {n : Nat} {ns : List Nat} (h : n ∈ ns) : n ≤ largest ns := by
  induction ns with
  | nil => cases h
  | cons m ns ih =>
    rw [largest, List.foldr_cons]
    rcases List.mem_cons.mp h with rfl | h
    · exact Nat.le_max_left _ _
    · exact Nat.le_trans (ih h) (Nat.le_max_right _ _)

theorem largest_le {ns : List Nat} {bound : Nat} (h : ∀ n ∈ ns, n ≤ bound) : largest ns ≤ bound := by
  induction ns with
  | nil => exact Nat.zero_le _
  | cons n ns ih =>
    exact Nat.max_le.mpr ⟨h n List.mem_cons_self, ih fun m hm => h m (List.mem_cons_of_mem _ hm)⟩

theorem largest_append (ms ns : List Nat) : largest (ms ++ ns) = max (largest ms) (largest ns) := by
  induction ms with
  | nil => exact (Nat.zero_max _).symm
  | cons m ms ih =>
    show max m (largest (ms ++ ns)) = max (max m (largest ms)) (largest ns)
    rw [ih, Nat.max_assoc]

def distinct {α : Type} [BEq α] (xs : List α) : Nat := xs.eraseDups.length

theorem foldl_max_eq {α : Type} (f : α → Nat) (xs : List α) (top : Nat) :
    xs.foldl (fun top x => max top (f x)) top = max top (largest (xs.map f)) := by
  induction xs generalizing top with
  | nil => exact (Nat.max_zero top).symm
  | cons x xs ih =>
    rw [List.foldl_cons, ih, Nat.max_assoc]
    rfl

/-! ## Different ones -/

section Distinct

variable {α : Type} [BEq α] [LawfulBEq α]

theorem nodup_eraseDups (xs : List α) : xs.eraseDups.Nodup := by
  cases xs with
  | nil => exact List.nodup_nil
  | cons x xs =>
    rw [List.eraseDups_cons, List.nodup_cons]
    refine ⟨?_, nodup_eraseDups _⟩
    simp
termination_by xs.length
decreasing_by exact Nat.lt_succ_of_le (List.length_filter_le _ _)

theorem eraseDups_of_nodup {xs : List α} (h : xs.Nodup) : xs.eraseDups = xs := by
  induction xs with
  | nil => rfl
  | cons x xs ih =>
    obtain ⟨hx, hxs⟩ := List.nodup_cons.mp h
    have hfilter : xs.filter (fun y => !y == x) = xs := List.filter_eq_self.mpr fun y hy => by
      rw [Bool.not_eq_true', beq_eq_false_iff_ne]
      rintro rfl
      exact hx hy
    rw [List.eraseDups_cons, hfilter, ih hxs]

/-- It is enough to list each once. -/
theorem distinct_eq_length {xs ys : List α} (hy : ys.Nodup) (h : ∀ a, a ∈ xs ↔ a ∈ ys) : distinct xs = ys.length := by
  have hmem : ∀ a, a ∈ xs.eraseDups ↔ a ∈ ys := fun a => List.mem_eraseDups.trans (h a)
  exact ((List.perm_ext_iff_of_nodup (nodup_eraseDups xs) hy).mpr hmem).length_eq

theorem distinct_map {β : Type} [BEq β] [LawfulBEq β] {f : α → β} (hf : ∀ a b, f a = f b → a = b) (xs : List α) :
    distinct (xs.map f) = distinct xs := by
  refine (distinct_eq_length ((nodup_eraseDups xs).map_on fun a _ b _ => hf a b) ?_).trans (List.length_map _)
  intro b
  rw [List.mem_map, List.mem_map]
  exact exists_congr fun a => by rw [List.mem_eraseDups]

end Distinct

def secondsOf (ps : List (Nat × Nat)) (k : Nat) : List Nat := ps.filterMap fun p => if p.1 = k then some p.2 else none

theorem mem_secondsOf {ps : List (Nat × Nat)} {k a : Nat} : a ∈ secondsOf ps k ↔ (k, a) ∈ ps := by
  rw [secondsOf, List.mem_filterMap]
  constructor
  · intro h
    obtain ⟨p, hp, he⟩ := h
    split at he
    · rename_i hk
      cases he
      rw [← hk]
      exact hp
    · cases he
  · intro h
    exact ⟨(k, a), h, if_pos rfl⟩

theorem nodup_secondsOf {ps : List (Nat × Nat)} (h : ps.Nodup) (k : Nat) : (secondsOf ps k).Nodup := by
  refine h.filterMap ?_
  intro p q a hp hq
  obtain ⟨hpk, hpa⟩ := Option.ite_none_right_eq_some.mp hp
  obtain ⟨hqk, hqa⟩ := Option.ite_none_right_eq_some.mp hq
  exact Prod.ext (hpk.trans hqk.symm) (Option.some.inj (hpa.trans hqa.symm))

/-- One more at `a`, if `a` is counted at all. -/
theorem total_map_add_at (f : Nat → Nat) (a n : Nat) :
    total ((List.range n).map fun k => f k + if a = k then 1 else 0) =
      total ((List.range n).map f) + if a < n then 1 else 0 := by
  induction n with
  | zero => rfl
  | succ n ih =>
    rw [List.range_succ, List.map_append, List.map_append, total_append, total_append, ih]
    simp only [List.map_cons, List.map_nil, total_cons, total_nil]
    split <;> split <;> split <;> omega

/-- Pairs that begin below `n` are counted by what they begin with. -/
theorem length_eq_total {ps : List (Nat × Nat)} {n : Nat} (h : ∀ p ∈ ps, p.1 < n) :
    ps.length = total ((List.range n).map fun k => (secondsOf ps k).length) := by
  induction ps with
  | nil =>
    have hzero : (List.range n).map (fun k => (secondsOf [] k).length) = List.replicate n 0 := by
      simp [secondsOf, List.map_const']
    rw [hzero, total_replicate_zero]
    rfl
  | cons p ps ih =>
    have hcons : ∀ k, (secondsOf (p :: ps) k).length = (secondsOf ps k).length + if p.1 = k then 1 else 0 := by
      intro k
      by_cases hk : p.1 = k <;> simp [secondsOf, hk]
    simp only [hcons]
    rw [total_map_add_at, if_pos (h p List.mem_cons_self), ← ih fun q hq => h q (List.mem_cons_of_mem _ hq),
      List.length_cons]

/-- Different pairs are counted by what they begin with. -/
theorem distinct_pairs {ps : List (Nat × Nat)} {n : Nat} (h : ∀ p ∈ ps, p.1 < n) :
    distinct ps = total ((List.range n).map fun k => distinct (secondsOf ps k)) := by
  have hsame : ∀ k, distinct (secondsOf ps k) = (secondsOf ps.eraseDups k).length := by
    intro k
    refine distinct_eq_length (nodup_secondsOf (nodup_eraseDups ps) k) ?_
    intro a
    rw [mem_secondsOf, mem_secondsOf, List.mem_eraseDups]
  simp only [hsame]
  exact length_eq_total fun p hp => h p (List.mem_eraseDups.mp hp)

theorem le_total_of_mem {n : Nat} {ns : List Nat} (h : n ∈ ns) : n ≤ total ns := by
  induction ns with
  | nil => cases h
  | cons m ns ih =>
    rw [total_cons]
    rcases List.mem_cons.mp h with rfl | h
    · omega
    · have := ih h
      omega

theorem total_map_filter_le {α : Type} (f : α → Nat) {c d : α → Bool} (h : ∀ a, c a = true → d a = true) (xs : List α) :
    total ((xs.filter c).map f) ≤ total ((xs.filter d).map f) := by
  induction xs with
  | nil => exact Nat.le_refl _
  | cons x xs ih =>
    rw [List.filter_cons, List.filter_cons]
    by_cases hc : c x = true
    · rw [if_pos hc, if_pos (h x hc)]
      exact Nat.add_le_add_left ih _
    · rw [if_neg hc]
      split
      · exact Nat.le_trans ih (Nat.le_add_left _ _)
      · exact ih

theorem total_eq_zero {ns : List Nat} (h : ∀ n ∈ ns, n = 0) : total ns = 0 := by
  induction ns with
  | nil => rfl
  | cons n ns ih =>
    rw [total_cons, h n List.mem_cons_self, ih fun m hm => h m (List.mem_cons_of_mem _ hm)]

theorem map_toList_eq_range {α β : Type} (xs : Array α) (fill : α) (f : α → β) :
    xs.toList.map f = (List.range xs.size).map fun k => f (xs.getD k fill) := by
  refine List.ext_getElem (by simp) ?_
  intro k hk hk'
  simp only [List.length_map, Array.length_toList] at hk
  simp [Array.getD_eq_getD_getElem?, hk]

/-! ## Tables -/

/-- A table that is not full has as many entries as there were different keys. -/
theorem Numbering.size_eq_distinct {ks : List Nat} (hlt : (({} : Numbering).addAll ks).size < capacity) :
    (({} : Numbering).addAll ks).size = distinct ks := by
  rw [distinct, ← keys_eq_eraseDups hlt, Array.length_toList]
  rfl

namespace Renumbering

theorem size_addOutputs (ss : List OutputSlot) :
    (ss.foldl addOutput #[]).size = largest (ss.map fun s => s.dataset.toNat + 1) := by
  have run : ∀ (ss : List OutputSlot) (outputs : Array Numbering), (ss.foldl addOutput outputs).size =
      ss.foldl (fun top s => max top (s.dataset.toNat + 1)) outputs.size := by
    intro ss
    induction ss with
    | nil => exact fun outputs => rfl
    | cons s ss ih =>
      intro outputs
      rw [List.foldl_cons, List.foldl_cons, ih, size_addOutput]
  rw [run, foldl_max_eq]
  exact Nat.zero_max _

theorem getD_addOutputs (ss : List OutputSlot) (outputs : Array Numbering) (d : Nat) :
    (ss.foldl addOutput outputs).getD d {} =
      (outputs.getD d {}).addAll (secondsOf (ss.map fun s => (s.dataset.toNat, s.field.toNat)) d) := by
  induction ss generalizing outputs with
  | nil => rfl
  | cons s ss ih =>
    have hs : (addOutput outputs s).getD d {} =
        if s.dataset.toNat = d then (outputs.getD d {}).add s.field.toNat else outputs.getD d {} := by
      rw [addOutput, getD_modify _ _ _ (by rw [size_grow]; omega), getD_grow]
    rw [List.foldl_cons, ih, hs]
    by_cases hd : s.dataset.toNat = d <;> simp [hd, secondsOf, Numbering.addAll]

/-- The fields written are counted once for each data set. -/
theorem outputFieldCount_eq {ss : List OutputSlot} (h : outputFieldCount (ss.foldl addOutput #[]) ≤ 65535) :
    outputFieldCount (ss.foldl addOutput #[]) = distinct (ss.map fun s => (s.dataset.toNat, s.field.toNat)) := by
  have hbelow : ∀ p ∈ ss.map (fun s => (s.dataset.toNat, s.field.toNat)), p.1 < (ss.foldl addOutput #[]).size := by
    intro p hp
    obtain ⟨s, hs, rfl⟩ := List.mem_map.mp hp
    exact dataset_lt_size hs #[]
  rw [distinct_pairs hbelow]
  rw [outputFieldCount, map_toList_eq_range _ {}] at h ⊢
  refine congrArg total (List.map_congr_left ?_)
  intro d hd
  have hle := le_total_of_mem (List.mem_map_of_mem (f := fun k => ((ss.foldl addOutput #[]).getD k {}).size) hd)
  simp only [getD_addOutputs] at hle h ⊢
  exact Numbering.size_eq_distinct (Nat.lt_of_le_of_lt (Nat.le_trans hle h) (by decide))

/-! ## Inputs -/

def addresses (refs : List InputRef) (advance : Bool) : List (Nat × Nat) :=
  (refs.filter (·.advance == advance)).map fun m => (m.dataset.toNat, m.field.toNat)

theorem secondsOf_addresses (refs : List InputRef) (advance : Bool) (d : Nat) :
    secondsOf (addresses refs advance) d = fieldsOf refs d advance := by
  rw [secondsOf, addresses, List.filterMap_map, List.filterMap_filter]
  refine List.filterMap_congr fun m _ => ?_
  by_cases ha : m.advance = advance <;> simp [ha]

theorem size_addInputs_eq (refs : List InputRef) :
    (refs.foldl addInput #[]).size = largest (refs.map fun m => m.dataset.toNat + 1) := by
  rw [size_addInputs, foldl_max_eq]
  exact Nat.zero_max _

theorem total_fieldCounts (inputs : List InputFields) : total (fieldCounts inputs) =
    total (inputs.map fun fields => fields.advancing.size) + total (inputs.map fun fields => fields.still.size) := by
  induction inputs with
  | nil => rfl
  | cons fields inputs ih =>
    rw [fieldCounts_cons, List.map_cons, List.map_cons, total_cons, total_cons, total_cons, total_cons, ih]
    omega

/-- The fields of one kind, referred to by their slots, are counted once for each data set. -/
theorem distinct_addresses {ms : List InputRef}
    (hc : total ((fieldLists (ms.foldl addInput #[])).map List.length) ≤ 65535) :
    distinct (addresses (ms.map (bySlot ms)) true) =
        total ((ms.foldl addInput #[]).toList.map fun fields => fields.advancing.size) ∧
      distinct (addresses (ms.map (bySlot ms)) false) =
        total ((ms.foldl addInput #[]).toList.map fun fields => fields.still.size) := by
  have hbelow : ∀ advance, ∀ p ∈ addresses (ms.map (bySlot ms)) advance, p.1 < (ms.foldl addInput #[]).size := by
    intro advance p hp
    obtain ⟨m, hm, rfl⟩ := List.mem_map.mp hp
    rw [← size_bySlot, size_addInputs_eq]
    exact le_largest (List.mem_map_of_mem (f := fun m : InputRef => m.dataset.toNat + 1) (List.mem_filter.mp hm).1)
  rw [distinct_pairs (hbelow true), distinct_pairs (hbelow false)]
  simp only [map_toList_eq_range (ms.foldl addInput #[]) {}, secondsOf_addresses]
  constructor
  · refine congrArg total (List.map_congr_left ?_)
    intro d _
    rw [distinct, (slots_first_use hc d).1, List.length_range, fieldsAt]
  · refine congrArg total (List.map_congr_left ?_)
    intro d _
    rw [distinct, (slots_first_use hc d).2, List.length_range', fieldsAt]

end Renumbering

end LaneScript
