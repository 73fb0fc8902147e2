/-
  LaneScript.Proofs.Stores — the last store before a place in a list of instructions.

  A register, and the accumulator too, holds what was last stored to it. `lastStore`
  finds the instruction by going back one at a time; it is the largest number below the
  place that stores there (`lastStore_eq_some_iff`). An instruction may name one
  destination twice, and the later position wins (`lastPos`).
-/
import LaneScript.Instruction
import Mathlib.Data.List.Basic

namespace LaneScript

def Source.place? : Source → Option Dest
  | .reg r => some (.reg r)
  | .const _ => none
  | .acc => some .acc

def storesAt (is : List Instruction) (d : Dest) (i : Nat) : Bool := is[i]?.any (·.dests.contains d)

def lastStore (is : List Instruction) (d : Dest) : (n : Nat) → Option Nat
  | 0 => none
  | n + 1 => if storesAt is d n then some n else lastStore is d n

def lastPos (d : Dest) : List Dest → Option Nat
  | [] => none
  | x :: rest =>
    match lastPos d rest with
    | some k => some (k + 1)
    | none => if x = d then some 0 else none

variable {is : List Instruction} {d : Dest} {n w : Nat}

theorem storesAt_iff {i : Nat} : storesAt is d i = true ↔ ∃ x, is[i]? = some x ∧ d ∈ x.dests := by
  simp only [storesAt, Option.any_eq_true, List.contains_iff_mem]

theorem lastStore_lt (h : lastStore is d n = some w) : w < n := by
  induction n with
  | zero => cases h
  | succ n ih =>
    simp only [lastStore] at h
    split at h
    · cases h; omega
    · have := ih h; omega

theorem lastStore_eq_some_iff :
    lastStore is d n = some w ↔ w < n ∧ storesAt is d w = true ∧ ∀ u, w < u → u < n → storesAt is d u = false := by
  induction n with
  | zero => simp [lastStore]
  | succ n ih =>
    simp only [lastStore]
    by_cases hn : storesAt is d n = true
    · rw [if_pos hn]
      constructor
      · intro e
        cases e
        exact ⟨by omega, hn, fun u h1 h2 => by omega⟩
      · rintro ⟨h1, h2, h3⟩
        by_cases e : w = n
        · rw [e]
        · have := h3 n (by omega) (by omega)
          rw [hn] at this; cases this
    · rw [if_neg hn, ih]
      constructor
      · rintro ⟨h1, h2, h3⟩
        refine ⟨by omega, h2, fun u hu hun => ?_⟩
        by_cases e : u = n
        · subst e; simpa using hn
        · exact h3 u hu (by omega)
      · rintro ⟨h1, h2, h3⟩
        have hw : w ≠ n := by rintro rfl; exact hn h2
        exact ⟨by omega, h2, fun u hu hun => h3 u hu (by omega)⟩

theorem exists_lastStore {u : Nat} (hu : u < n) (hs : storesAt is d u = true) : ∃ w, lastStore is d n = some w := by
  induction n with
  | zero => cases hu
  | succ n ih =>
    rw [lastStore]
    split
    · exact ⟨n, rfl⟩
    · rename_i hn
      refine ih (Nat.lt_of_le_of_ne (Nat.le_of_lt_succ hu) ?_)
      intro e
      exact hn (e ▸ hs)

/-- Right behind a store, that store is the last one. -/
theorem lastStore_succ {x : Instruction} (hx : is[n]? = some x) (hd : d ∈ x.dests) : lastStore is d (n + 1) = some n := by
  rw [lastStore, if_pos (storesAt_iff.mpr ⟨x, hx, hd⟩)]

theorem lastPos_eq_none_iff {ds : List Dest} : lastPos d ds = none ↔ d ∉ ds := by
  induction ds with
  | nil => simp [lastPos]
  | cons x ds ih =>
    simp only [lastPos, List.mem_cons, not_or]
    cases h : lastPos d ds with
    | none =>
      have := ih.mp h
      by_cases e : x = d
      · simp [e]
      · simp [e, this, Ne.symm e]
    | some k =>
      have : d ∈ ds := by
        by_contra hn
        rw [ih.mpr hn] at h; cases h
      simp [this]

theorem lastPos_singleton (d : Dest) : lastPos d [d] = some 0 := by simp [lastPos]

/-- Lists that name two destinations at the same positions name them last at the same position. -/
theorem lastPos_congr {ds es : List Dest} {e : Dest} (hl : ds.length = es.length)
    (h : ∀ k < ds.length, ds[k]? = some d ↔ es[k]? = some e) : lastPos d ds = lastPos e es := by
  induction ds generalizing es with
  | nil =>
    cases es with
    | nil => rfl
    | cons y es => simp at hl
  | cons x ds ih =>
    cases es with
    | nil => simp at hl
    | cons y es =>
      have h0 := h 0 (by simp)
      have hs : lastPos d ds = lastPos e es :=
        ih (by simpa using hl) fun k hk => by simpa using h (k + 1) (by simpa using hk)
      simp only [List.getElem?_cons_zero, Option.some.injEq] at h0
      simp only [lastPos, hs, h0]

/-! ## Picking from lists -/

theorem filterMap_filter_of_none {α β : Type*} {f : α → Option β} {p : α → Bool} (h : ∀ a, p a = false → f a = none)
    (xs : List α) : (xs.filter p).filterMap f = xs.filterMap f := by
  rw [List.filterMap_filter]
  refine List.filterMap_congr fun a _ => ?_
  cases hp : p a with
  | true => rfl
  | false => rw [h a hp]; rfl

theorem filterMap_eq_range {α β : Type*} (xs : List α) (f : α → Option β) :
    xs.filterMap f = (List.range xs.length).filterMap fun k => xs[k]?.bind f := by
  induction xs with
  | nil => rfl
  | cons x xs ih =>
    rw [List.length_cons, List.range_succ_eq_map, List.filterMap_cons, List.filterMap_cons, List.filterMap_map, ih]
    rfl

/-- Position by position, what is taken from one list is the image of what is taken from another. -/
theorem filterMap_zipIdx_map {α β γ δ : Type*} {xs : List α} {ys : List β} {f : α × Nat → Option γ}
    {f' : β × Nat → Option δ} {g : γ → δ} (hl : ys.length = xs.length)
    (h : ∀ (k : Nat) (a : α) (b : β), xs[k]? = some a → ys[k]? = some b → f' (b, k) = (f (a, k)).map g) :
    ys.zipIdx.filterMap f' = (xs.zipIdx.filterMap f).map g := by
  rw [filterMap_eq_range ys.zipIdx, filterMap_eq_range xs.zipIdx, List.map_filterMap, List.length_zipIdx,
    List.length_zipIdx, hl]
  refine List.filterMap_congr fun k hk => ?_
  have hx := List.getElem?_eq_getElem (List.mem_range.mp hk)
  have hy := List.getElem?_eq_getElem (l := ys) (hl ▸ List.mem_range.mp hk : k < ys.length)
  rw [List.getElem?_zipIdx, List.getElem?_zipIdx, hx, hy, Nat.zero_add]
  exact h k _ _ hx hy

end LaneScript
