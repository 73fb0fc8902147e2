/-
  LaneScript.Proofs.Bijection — a table of numbers stays a dense bijection, whatever is asked of it.

  A table is new, or made of keys in order, and is then asked for the numbers of keys. A
  call puts its key in the table, if there is room, and then looks it up; so `add` is what
  it leaves behind, answered or not. `Reached given n` says that a history of such calls
  leads to the table `n`, where `given` are the keys that were answered, one for each call.

  Proved, for every table that a history leads to (`reached_dense`):
  - the keys are those answered, in the order of their first answers, and at most 65536;
  - they have the numbers 0, 1, 2 and so on, and keys and numbers determine each other;
  - a new key is given the next number, and no later call changes a number;
  - a table is the identity exactly if its keys count up from 0;
  - a call fails exactly for a new key in a full table, and leaves the table as it was.
-/
import LaneScript.Proofs.Numbering

namespace LaneScript.Numbering

variable {n n' : Numbering} {k : Nat} {x : UInt16} {given : List Nat}

/-! ## One call -/

theorem number?_eq_some_iff : n.number? k = some (x, n') ↔ n' = n.add k ∧ n'.get? k = some x := by
  simp only [number?, Option.map_eq_some_iff, Prod.mk.injEq]
  constructor
  · rintro ⟨y, hy, rfl, rfl⟩
    exact ⟨rfl, hy⟩
  · rintro ⟨rfl, hx⟩
    exact ⟨x, hx, rfl, rfl⟩

theorem Valid.get?_eq_none_iff (h : n.Valid) : n.get? k = none ↔ k ∉ n.keys.toList := by
  rw [← h.contains_iff, Std.TreeMap.contains_eq_isSome_getElem?, Bool.not_eq_true, Option.isSome_eq_false_iff,
    Option.isNone_iff_eq_none]
  rfl

/-- What a call does to a table: the key has its number already, or is given the next one, or finds the table full. -/
theorem number?_cases (h : n.Valid) (k : Nat) :
    (∃ x, n.get? k = some x ∧ n.add k = n ∧ n.number? k = some (x, n)) ∨
      n.get? k = none ∧ n.size < capacity ∧ (n.add k).keys = n.keys.push k ∧
        n.number? k = some (UInt16.ofNat n.size, n.add k) ∨
      n.get? k = none ∧ n.size = capacity ∧ n.add k = n ∧ n.number? k = none := by
  have hadd := add_eq h (k := k)
  by_cases hk : k ∈ n.keys.toList
  · -- The key is there.
    rw [if_pos (.inl hk)] at hadd
    obtain ⟨i, hi⟩ := List.getElem?_of_mem hk
    have hx := (h.get?_of_getElem? hi).1
    exact .inl ⟨_, hx, hadd, number?_eq_some_iff.mpr ⟨hadd.symm, hx⟩⟩
  · have hnone := h.get?_eq_none_iff.mpr hk
    rcases Nat.lt_or_eq_of_le h.bound with hroom | hfull
    · -- The key is put behind the others, so its number is how many they are.
      rw [if_neg (by rintro (hm | hm); exacts [hk hm, Nat.not_le_of_lt hroom hm])] at hadd
      have hkeys : (n.add k).keys = n.keys.push k := by rw [hadd]
      have hplace : (n.add k).keys.toList[n.size]? = some k := by
        rw [hkeys, Array.toList_push, List.getElem?_append_right (by simp [size])]
        simp [size]
      have hx := ((valid_add h k).get?_of_getElem? hplace).1
      exact .inr (.inl ⟨hnone, hroom, hkeys, number?_eq_some_iff.mpr ⟨rfl, hx⟩⟩)
    · rw [if_pos (.inr (Nat.le_of_eq hfull.symm))] at hadd
      refine .inr (.inr ⟨hnone, hfull, hadd, ?_⟩)
      rw [number?, hadd, Option.map_eq_none_iff]
      exact hnone

/-- A key that had a number is answered with it, and any other with the next one. -/
theorem answer_cases (h : n.Valid) (ha : n.number? k = some (x, n')) :
    n' = n.add k ∧ (n.get? k = some x ∧ n' = n ∨ n.get? k = none ∧ x.toNat = n.size ∧ n'.keys = n.keys.push k) := by
  refine ⟨(number?_eq_some_iff.mp ha).1, ?_⟩
  rcases number?_cases h k with ⟨y, hy, -, ha'⟩ | ⟨hnone, hroom, hkeys, ha'⟩ | ⟨-, -, -, hr⟩
  · rw [ha] at ha'
    cases ha'
    exact .inl ⟨hy, rfl⟩
  · rw [ha] at ha'
    cases ha'
    exact .inr ⟨hnone, UInt16.toNat_ofNat_of_lt' hroom, hkeys⟩
  · rw [hr] at ha
    cases ha

/-- Only a new key in a full table is refused. -/
theorem number?_eq_none_iff (h : n.Valid) : n.number? k = none ↔ n.get? k = none ∧ n.size = capacity := by
  rcases number?_cases h k with ⟨x, hx, -, ha⟩ | ⟨-, hroom, -, ha⟩ | ⟨hnone, hfull, -, hr⟩
  · simp [hx, ha]
  · simp [ha, Nat.ne_of_lt hroom]
  · simp [hr, hnone, hfull]

theorem add_of_refused (h : n.Valid) (hr : n.number? k = none) : n.add k = n := by
  rcases number?_cases h k with ⟨x, -, -, ha⟩ | ⟨-, -, -, ha⟩ | ⟨-, -, hadd, -⟩
  · rw [hr] at ha
    cases ha
  · rw [hr] at ha
    cases ha
  · exact hadd

/-! ## Histories -/

inductive Reached : (given : List Nat) → Numbering → Prop
  | new : Reached [] {}
  | ordered {ks : List Nat} {n : Numbering} : ofKeys? ks = some n → Reached ks n
  | answered {given : List Nat} {n n' : Numbering} {k : Nat} {x : UInt16} :
      Reached given n → n.number? k = some (x, n') → Reached (given ++ [k]) n'
  | refused {given : List Nat} {n : Numbering} {k : Nat} :
      Reached given n → n.number? k = none → Reached given (n.add k)

structure InOrder (given : List Nat) (n : Numbering) : Prop where
  valid : n.Valid
  keys : n.keys.toList = given.eraseDups

theorem inOrder_new : InOrder [] {} := ⟨valid_empty, rfl⟩

theorem eraseDups_concat (ks : List Nat) (k : Nat) :
    (ks ++ [k]).eraseDups = if k ∈ ks then ks.eraseDups else ks.eraseDups ++ [k] := by
  rw [List.eraseDups_append]
  split <;> simp_all [List.removeAll, List.eraseDups_cons]

theorem InOrder.answered (h : InOrder given n) (ha : n.number? k = some (x, n')) : InOrder (given ++ [k]) n' := by
  obtain ⟨rfl, hcases⟩ := answer_cases h.valid ha
  have hmem : k ∈ given ↔ n.get? k ≠ none := by
    rw [ne_eq, h.valid.get?_eq_none_iff, h.keys, List.mem_eraseDups, not_not]
  refine ⟨valid_add h.valid k, ?_⟩
  rw [eraseDups_concat, ← h.keys]
  rcases hcases with ⟨hx, hsame⟩ | ⟨hnone, -, hkeys⟩
  · rw [if_pos (hmem.mpr (by simp [hx])), hsame]
  · rw [if_neg (fun hk => hmem.mp hk hnone), hkeys, Array.toList_push]

theorem InOrder.refused (h : InOrder given n) (hr : n.number? k = none) : InOrder given (n.add k) := by
  rw [add_of_refused h.valid hr]
  exact h

/-- A table made of keys in order is one that was asked for them one after the other. -/
theorem InOrder.ordered {ks : List Nat} (h : InOrder given n)
    (ho : ks.foldlM (fun n key => (n.number? key).map (·.2)) n = some n') : InOrder (given ++ ks) n' := by
  induction ks generalizing given n with
  | nil =>
    cases ho
    rw [List.append_nil]
    exact h
  | cons k ks ih =>
    rw [List.foldlM_cons, Option.bind_eq_bind, Option.bind_eq_some_iff] at ho
    obtain ⟨m, hm, ho⟩ := ho
    obtain ⟨⟨x, m'⟩, ha, rfl⟩ := Option.map_eq_some_iff.mp hm
    rw [List.append_cons]
    exact ih (h.answered ha) ho

theorem Reached.inOrder (h : Reached given n) : InOrder given n := by
  induction h with
  | new => exact inOrder_new
  | ordered ho => exact inOrder_new.ordered ho
  | answered _ ha ih => exact ih.answered ha
  | refused _ hr ih => exact ih.refused hr

/-! ## The bijection -/

theorem get?_addAll (h : n.Valid) (hx : n.get? k = some x) (ks : List Nat) : (n.addAll ks).get? k = some x := by
  rw [h.number] at hx
  obtain ⟨rest, hrest⟩ := prefix_addAll h ks
  rw [(valid_addAll h ks).number, ← hrest, List.getElem?_append_left (List.getElem?_eq_some_iff.mp hx).1, hx]

theorem map_get? (h : n.Valid) : n.keys.toList.map n.get? = (List.range n.size).map fun i => some (UInt16.ofNat i) := by
  refine List.ext_getElem (by simp [size]) ?_
  intro i hi hi'
  rw [List.getElem_map, List.getElem_map, List.getElem_range]
  exact (h.get?_of_getElem? (List.getElem?_eq_getElem _)).1

theorem isIdentity_iff : n.isIdentity = true ↔ n.keys.toList = List.range n.size := by
  refine ⟨?_, isIdentity_of_range⟩
  intro h
  rw [isIdentity, pairs, List.all_eq_true] at h
  refine List.ext_getElem (by simp [size]) ?_
  intro i hi hi'
  rw [List.getElem_range]
  exact beq_iff_eq.mp (h (n.keys.toList[i], i) (List.mk_mem_zipIdx_iff_getElem?.mpr (List.getElem?_eq_getElem hi)))

/-- A dense bijection between keys and the numbers below `size`, in the order in which keys were first answered. -/
structure Dense (given : List Nat) (n : Numbering) : Prop where
  distinct : n.keys.toList.Nodup
  bound : n.size ≤ capacity
  order : n.keys.toList = given.eraseDups
  numbers : n.keys.toList.map n.get? = (List.range n.size).map fun i => some (UInt16.ofNat i)
  inverse : ∀ k x, n.get? k = some x ↔ n.key? x = some k
  /-- A key that had a number is answered with it, and any other with the next one. -/
  answer : ∀ k x n', n.number? k = some (x, n') →
    n' = n.add k ∧ (n.get? k = some x ∧ n' = n ∨ n.get? k = none ∧ x.toNat = n.size ∧ n'.keys = n.keys.push k)
  /-- Whatever is asked later, a number stays that of its key. -/
  lasting : ∀ ks k x, n.get? k = some x → (n.addAll ks).get? k = some x
  identity : n.isIdentity = true ↔ n.keys.toList = List.range n.size
  refusal : ∀ k, n.number? k = none ↔ n.get? k = none ∧ n.size = capacity
  unchanged : ∀ k, n.number? k = none → n.add k = n

/-- Every table that calls lead to is a dense bijection in the order of first answers. -/
theorem reached_dense (h : Reached given n) : Dense given n := by
  obtain ⟨hv, hkeys⟩ := h.inOrder
  exact {
    distinct := hv.distinct
    bound := hv.bound
    order := hkeys
    numbers := map_get? hv
    inverse := fun k x => by rw [hv.number, key?, Array.getElem?_toList]
    answer := fun k x n' => answer_cases hv
    lasting := fun ks k x hx => get?_addAll hv hx ks
    identity := isIdentity_iff
    refusal := fun k => number?_eq_none_iff hv
    unchanged := fun k => add_of_refused hv }

/-! ## A full table -/

/-- Keys that are not more than there are numbers always make a table. -/
theorem foldlM_number?_of_le (h : n.Valid) {ks : List Nat} (hle : n.size + ks.length ≤ capacity) :
    ks.foldlM (fun n key => (n.number? key).map (·.2)) n = some (n.addAll ks) := by
  induction ks generalizing n with
  | nil => rfl
  | cons k ks ih =>
    rw [List.length_cons] at hle
    have hstep : (n.number? k).map (·.2) = some (n.add k) ∧ (n.add k).size ≤ n.size + 1 := by
      rcases number?_cases h k with ⟨x, -, hadd, ha⟩ | ⟨-, -, hkeys, ha⟩ | ⟨-, hfull, -, -⟩
      · rw [ha, hadd]
        exact ⟨rfl, Nat.le_succ _⟩
      · refine ⟨by rw [ha]; rfl, ?_⟩
        rw [size, hkeys, Array.size_push]
        exact Nat.le_refl _
      · omega
    rw [List.foldlM_cons, hstep.1, Option.bind_eq_bind, Option.bind_some]
    exact ih (valid_add h k) (by omega)

theorem ofKeys?_of_length_le {ks : List Nat} (hle : ks.length ≤ capacity) :
    ofKeys? ks = some (({} : Numbering).addAll ks) :=
  foldlM_number?_of_le valid_empty (by simpa [size] using hle)

/-- A table of the keys 0, 1, 2 and so on. -/
theorem keys_addAll_range {m : Nat} (hle : m ≤ capacity) :
    (({} : Numbering).addAll (List.range m)).keys.toList = List.range m := by
  rw [keys_addAll_of_new valid_empty List.nodup_range (by simp) (by simpa [size] using hle)]
  rfl

/-- As many keys as there are numbers fill a table, which is the identity and refuses the next key. -/
theorem reached_dense_full : ∃ n, Reached (List.range capacity) n ∧ n.isIdentity = true ∧
    n.get? 65535 = some 65535 ∧ n.number? 70000 = none ∧ n.add 70000 = n := by
  have hreached := Reached.ordered (ofKeys?_of_length_le (Nat.le_of_eq (List.length_range (n := capacity))))
  have hkeys := keys_addAll_range (Nat.le_refl capacity)
  generalize ({} : Numbering).addAll (List.range capacity) = n at hreached hkeys
  have hd := reached_dense hreached
  have hsize : n.size = capacity := by rw [size, ← Array.length_toList, hkeys, List.length_range]
  have hlast : (65535 : UInt16).toNat = 65535 := rfl
  have hrefused : n.number? 70000 = none := by
    rw [hd.refusal, hreached.inOrder.valid.get?_eq_none_iff, hkeys, List.mem_range]
    exact ⟨by simp [capacity], hsize⟩
  refine ⟨n, hreached, hd.identity.mpr (by rw [hkeys, hsize]), ?_, hrefused, hd.unchanged _ hrefused⟩
  rw [hd.inverse, key?, ← Array.getElem?_toList, hkeys, hlast, List.getElem?_range (by simp [capacity])]

end LaneScript.Numbering
