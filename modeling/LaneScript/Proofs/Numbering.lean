/-
  LaneScript.Proofs.Numbering — numbers and keys determine each other.

  A table is `Valid` when its keys are distinct, no more than there are numbers, and a
  key's number is its place among them. Adding keys keeps this (`valid_addAll`), and the
  places of keys never change. Renaming keys one to one renames the table
  (`keys_addAll_map`); in particular a table of numbers numbers each by itself.
-/
import LaneScript.Numbering
import Mathlib.Data.List.Basic

namespace LaneScript.Numbering

def addAll (n : Numbering) (ks : List Nat) : Numbering := ks.foldl add n

structure Valid (n : Numbering) : Prop where
  distinct : n.keys.toList.Nodup
  bound : n.size ≤ capacity
  number : ∀ k x, n.get? k = some x ↔ n.keys.toList[x.toNat]? = some k

theorem valid_empty : ({} : Numbering).Valid where
  distinct := List.nodup_nil
  bound := by simp [size]
  number k x := by simp [get?]

namespace Valid

variable {n : Numbering} {k : Nat}

theorem get?_of_getElem? (h : n.Valid) {i : Nat} (hi : n.keys.toList[i]? = some k) :
    n.get? k = some (UInt16.ofNat i) ∧ (UInt16.ofNat i).toNat = i := by
  have hlt : i < 65536 := by
    have h1 := (List.getElem?_eq_some_iff.mp hi).1
    have h2 := h.bound
    simp only [size, capacity, Array.length_toList] at h1 h2
    omega
  have e := UInt16.toNat_ofNat_of_lt' hlt
  refine ⟨(h.number k _).mpr ?_, e⟩
  rw [e]
  exact hi

theorem contains_iff (h : n.Valid) : n.numbers.contains k = true ↔ k ∈ n.keys.toList := by
  rw [Std.TreeMap.contains_eq_isSome_getElem?, Option.isSome_iff_exists]
  constructor
  · rintro ⟨x, hx⟩
    exact List.mem_of_getElem? ((h.number k x).mp hx)
  · intro hk
    obtain ⟨i, hi⟩ := List.getElem?_of_mem hk
    exact ⟨_, (h.get?_of_getElem? hi).1⟩

theorem lt_size (h : n.Valid) {x : UInt16} (hx : n.get? k = some x) : x.toNat < n.size := by
  have := (List.getElem?_eq_some_iff.mp ((h.number k x).mp hx)).1
  simpa [size] using this

theorem get?_inj (h : n.Valid) {j : Nat} {x : UInt16} (hk : n.get? k = some x) (hj : n.get? j = some x) : k = j := by
  have e := (h.number k x).mp hk
  rw [(h.number j x).mp hj] at e
  exact (Option.some.inj e).symm

end Valid

/-! ## Adding keys -/

theorem add_eq {n : Numbering} {k : Nat} (h : n.Valid) :
    n.add k = if k ∈ n.keys.toList ∨ capacity ≤ n.size then n
      else ⟨n.keys.push k, n.numbers.insert k (UInt16.ofNat n.size)⟩ := by
  simp only [add, h.contains_iff]
  rfl

theorem keys_add {n : Numbering} {k : Nat} (h : n.Valid) :
    (n.add k).keys.toList =
      if k ∈ n.keys.toList ∨ capacity ≤ n.size then n.keys.toList else n.keys.toList ++ [k] := by
  rw [add_eq h]
  split
  · rfl
  · rw [Array.toList_push]

theorem valid_add {n : Numbering} (h : n.Valid) (k : Nat) : (n.add k).Valid := by
  rw [add_eq h]
  split
  · exact h
  · rename_i hno
    rw [not_or, Nat.not_le] at hno
    obtain ⟨hk, hc⟩ := hno
    have hs : (UInt16.ofNat n.size).toNat = n.size := UInt16.toNat_ofNat_of_lt' hc
    refine ⟨?_, ?_, fun j x => ?_⟩
    · rw [Array.toList_push]
      exact List.nodup_append.mpr ⟨h.distinct, by simp, fun a ha b hb e =>
        hk (by rw [List.mem_singleton.mp hb] at e; rwa [e] at ha)⟩
    · rw [size, Array.size_push]
      exact hc
    · simp only [get?, Std.TreeMap.getElem?_insert, Std.LawfulEqCmp.compare_eq_iff_eq, Array.toList_push]
      have hj := h.number j x
      by_cases e : k = j
      · subst e
        rw [if_pos rfl]
        constructor
        · intro hx
          cases hx
          rw [hs, List.getElem?_append_right (by simp [size])]
          simp [size]
        · intro hx
          by_cases hlt : x.toNat < n.keys.toList.length
          · rw [List.getElem?_append_left hlt] at hx
            exact absurd (List.mem_of_getElem? hx) hk
          · have hle := (List.getElem?_eq_some_iff.mp hx).1
            simp only [List.length_append, List.length_singleton] at hle
            congr 1
            refine UInt16.toNat_inj.mp ?_
            rw [hs, size]
            simp only [Array.length_toList] at hlt hle
            omega
      · rw [if_neg e]
        refine hj.trans ?_
        by_cases hlt : x.toNat < n.keys.toList.length
        · rw [List.getElem?_append_left hlt]
        · rw [List.getElem?_eq_none (Nat.le_of_not_lt hlt), List.getElem?_append_right (Nat.le_of_not_lt hlt)]
          refine iff_of_false nofun fun hx => e ?_
          have := List.mem_of_getElem? hx
          simpa using (List.mem_singleton.mp this).symm

theorem valid_addAll {n : Numbering} (h : n.Valid) (ks : List Nat) : (n.addAll ks).Valid := by
  induction ks generalizing n with
  | nil => exact h
  | cons k ks ih => exact ih (valid_add h k)

theorem mem_keys_addAll {n : Numbering} (h : n.Valid) {ks : List Nat} {k : Nat} (hk : k ∈ (n.addAll ks).keys.toList) :
    k ∈ n.keys.toList ∨ k ∈ ks := by
  induction ks generalizing n with
  | nil => exact .inl hk
  | cons j ks ih =>
    rcases ih (valid_add h j) hk with hk | hk
    · rw [keys_add h] at hk
      split at hk
      · exact .inl hk
      · rcases List.mem_append.mp hk with hk | hk
        · exact .inl hk
        · exact .inr (by rw [List.mem_singleton.mp hk]; exact List.mem_cons_self)
    · exact .inr (List.mem_cons_of_mem _ hk)

/-- New keys come behind the old ones, in the order in which they are added. -/
theorem keys_addAll_of_new {n : Numbering} (h : n.Valid) {ks : List Nat} (hd : ks.Nodup)
    (hnew : ∀ k ∈ ks, k ∉ n.keys.toList) (hc : n.size + ks.length ≤ capacity) :
    (n.addAll ks).keys.toList = n.keys.toList ++ ks := by
  induction ks generalizing n with
  | nil => simp [addAll]
  | cons k ks ih =>
    obtain ⟨hk, hd⟩ := List.nodup_cons.mp hd
    rw [List.length_cons] at hc
    have hno : ¬ (k ∈ n.keys.toList ∨ capacity ≤ n.size) := by
      rintro (hm | hm)
      · exact hnew k List.mem_cons_self hm
      · omega
    have hkeys : (n.add k).keys.toList = n.keys.toList ++ [k] := by rw [keys_add h, if_neg hno]
    have hsize : (n.add k).size = n.size + 1 := by
      have := congrArg List.length hkeys
      simpa [size] using this
    show ((n.add k).addAll ks).keys.toList = _
    rw [ih (valid_add h k) hd (fun j hj hm => ?_) (by omega), hkeys, List.append_assoc]
    · rfl
    · rw [hkeys] at hm
      rcases List.mem_append.mp hm with hm | hm
      · exact hnew j (List.mem_cons_of_mem _ hj) hm
      · rw [List.mem_singleton.mp hm] at hj
        exact hk hj

theorem mem_of_mem_add {n : Numbering} (h : n.Valid) {k a : Nat} {ks : List Nat}
    (ha : a ∈ (n.add k).keys.toList ++ ks) : a ∈ n.keys.toList ++ k :: ks := by
  rw [keys_add h] at ha
  split at ha
  · rcases List.mem_append.mp ha with ha | ha
    · exact List.mem_append_left _ ha
    · exact List.mem_append_right _ (List.mem_cons_of_mem _ ha)
  · simpa using ha

/-- Renaming the keys one to one renames the table. -/
theorem keys_addAll_map {g : Nat → Nat} {n n' : Numbering} (h : n.Valid) (h' : n'.Valid)
    (he : n'.keys.toList = n.keys.toList.map g) {ks : List Nat}
    (hg : ∀ a ∈ n.keys.toList ++ ks, ∀ b ∈ n.keys.toList ++ ks, g a = g b → a = b) :
    (n'.addAll (ks.map g)).keys.toList = (n.addAll ks).keys.toList.map g := by
  induction ks generalizing n n' with
  | nil => exact he
  | cons k ks ih =>
    have hmem : g k ∈ n'.keys.toList ↔ k ∈ n.keys.toList := by
      rw [he, List.mem_map]
      refine ⟨?_, fun hk => ⟨k, hk, rfl⟩⟩
      rintro ⟨a, ha, e⟩
      rw [← hg a (List.mem_append_left _ ha) k (by simp) e]
      exact ha
    have hsize : n'.size = n.size := by
      have := congrArg List.length he
      simpa [size] using this
    refine ih (valid_add h k) (valid_add h' (g k)) ?_ fun a ha b hb => hg a ?_ b ?_
    · rw [keys_add h, keys_add h']
      simp only [hmem, hsize]
      split
      · exact he
      · rw [he, List.map_append, List.map_singleton]
    · exact mem_of_mem_add h ha
    · exact mem_of_mem_add h hb

theorem prefix_addAll {n : Numbering} (h : n.Valid) (ks : List Nat) : n.keys.toList <+: (n.addAll ks).keys.toList := by
  induction ks generalizing n with
  | nil => exact List.prefix_rfl
  | cons k ks ih =>
    refine List.IsPrefix.trans ?_ (ih (valid_add h k))
    rw [keys_add h]
    split
    · exact List.prefix_rfl
    · exact List.prefix_append _ _

/-- In a table that is not full, every key got its number. -/
theorem mem_addAll_of_lt {n : Numbering} (h : n.Valid) {ks : List Nat} (hlt : (n.addAll ks).size < capacity) {k : Nat}
    (hk : k ∈ ks) : k ∈ (n.addAll ks).keys.toList := by
  induction ks generalizing n with
  | nil => cases hk
  | cons a ks ih =>
    rcases List.mem_cons.mp hk with rfl | hk
    · refine (prefix_addAll (valid_add h k) ks).subset ?_
      have hle := (prefix_addAll h (k :: ks)).length_le
      simp only [Array.length_toList] at hle
      rw [keys_add h]
      split
      · rename_i hor
        exact hor.resolve_right (by simp only [size] at hlt ⊢; omega)
      · exact List.mem_append_right _ (List.mem_singleton.mpr rfl)
    · exact ih (valid_add h a) hlt hk

/-! ## Numbers as keys -/

def numberOf (n : Numbering) (k : Nat) : Nat := ((n.get? k).map UInt16.toNat).getD 0

theorem numberOf_eq {n : Numbering} {k : Nat} {x : UInt16} (h : n.get? k = some x) : n.numberOf k = x.toNat := by
  rw [numberOf, h]
  rfl

theorem numberOf_of_getElem? {n : Numbering} (h : n.Valid) {i k : Nat} (hi : n.keys.toList[i]? = some k) :
    n.numberOf k = i := by
  obtain ⟨hx, e⟩ := h.get?_of_getElem? hi
  rw [numberOf_eq hx, e]

theorem numberOf_inj {n : Numbering} (h : n.Valid) {a b : Nat} (ha : a ∈ n.keys.toList) (hb : b ∈ n.keys.toList)
    (e : n.numberOf a = n.numberOf b) : a = b := by
  obtain ⟨i, hi⟩ := List.getElem?_of_mem ha
  obtain ⟨j, hj⟩ := List.getElem?_of_mem hb
  rw [numberOf_of_getElem? h hi, numberOf_of_getElem? h hj] at e
  rw [e, hj] at hi
  exact (Option.some.inj hi).symm

theorem map_numberOf {n : Numbering} (h : n.Valid) : n.keys.toList.map n.numberOf = List.range n.size := by
  refine List.ext_getElem (by simp [size]) fun i hi hi' => ?_
  rw [List.getElem_map, List.getElem_range]
  exact numberOf_of_getElem? h (List.getElem?_eq_getElem _)

/-- Keys can be replaced by the numbers that they have, under some tag, in another table. -/
theorem keys_addAll_tagged {n : Numbering} (h : n.Valid) {tag : Nat → Nat} (ht : ∀ a b, tag a = tag b → a = b)
    {ks : List Nat} (hlt : (({} : Numbering).addAll ks).size < capacity)
    (hmem : ∀ k ∈ (({} : Numbering).addAll ks).keys.toList, tag k ∈ n.keys.toList) :
    (({} : Numbering).addAll (ks.map fun k => n.numberOf (tag k))).keys.toList =
      (({} : Numbering).addAll ks).keys.toList.map fun k => n.numberOf (tag k) := by
  have hin (a : Nat) (ha : a ∈ ({} : Numbering).keys.toList ++ ks) : tag a ∈ n.keys.toList :=
    hmem a (mem_addAll_of_lt valid_empty hlt (by simpa using ha))
  exact keys_addAll_map valid_empty valid_empty rfl fun a ha b hb e => ht a b (numberOf_inj h (hin a ha) (hin b hb) e)

/-- Numbering the numbers of keys gives each its own. -/
theorem keys_addAll_numberOf {ks : List Nat} (hlt : (({} : Numbering).addAll ks).size < capacity) :
    (({} : Numbering).addAll (ks.map (({} : Numbering).addAll ks).numberOf)).keys.toList =
      List.range (({} : Numbering).addAll ks).size := by
  have hv := valid_addAll valid_empty ks
  rw [← map_numberOf hv]
  exact keys_addAll_tagged hv (fun _ _ e => e) hlt fun _ hk => hk

theorem isIdentity_of_range {n : Numbering} {m : Nat} (h : n.keys.toList = List.range m) : n.isIdentity = true := by
  rw [isIdentity, pairs, h, List.all_eq_true]
  rintro ⟨k, i⟩ hk
  have := List.mk_mem_zipIdx_iff_getElem?.mp hk
  obtain ⟨hi, rfl⟩ := List.getElem?_eq_some_iff.mp this
  simp

theorem Valid.get?_of_range {n : Numbering} (h : n.Valid) {m : Nat} (hk : n.keys.toList = List.range m) {x : UInt16}
    (hx : x.toNat < m) : n.get? x.toNat = some x := by
  refine (h.number _ _).mpr ?_
  rw [hk, List.getElem?_range hx]

end LaneScript.Numbering
