/-
  LaneScript.Proofs.View — sections as lists of values.

  Proved: where writing and reading a value are inverse, the values of a view are
  those whose bytes stand in it one behind the other, and indexing it is indexing
  their list.
-/
import LaneScript.Image.View
import LaneScript.Image.Pack
import LaneScript.Proofs.Layout

namespace LaneScript

/-- Values that `keep` allows are written as bytes of their width, and are what is read from these. -/
structure Stored.Inverse {α : Type} [Stored α] (encode : α → Bytes) (keep : α → Prop) : Prop where
  width_pos : 0 < Stored.width α
  length : ∀ a, (encode a).length = Stored.width α
  read_encode : ∀ a, keep a → Stored.read (encode a) = a
  encode_read : ∀ bytes : Bytes, bytes.length = Stored.width α → keep (Stored.read bytes) → encode (Stored.read bytes) = bytes

namespace View

variable {α : Type} [Stored α]

theorem readFrom_before (count : Nat) (bytes : Bytes) (before : List α) :
    readFrom count bytes before = before.reverse ++ readFrom count bytes [] := by
  induction count generalizing bytes before with
  | zero => simp [readFrom]
  | succ count ih =>
    rw [readFrom, readFrom, ih, ih _ [_]]
    simp

theorem readFrom_succ (count : Nat) (bytes : Bytes) :
    readFrom (count + 1) bytes ([] : List α) =
      Stored.read (bytes.take (Stored.width α)) :: readFrom count (bytes.drop (Stored.width α)) [] := by
  rw [readFrom, readFrom_before]
  rfl

theorem length_readFrom (count : Nat) (bytes : Bytes) : (readFrom count bytes ([] : List α)).length = count := by
  induction count generalizing bytes with
  | zero => rfl
  | succ count ih => rw [readFrom_succ, List.length_cons, ih]

@[simp] theorem length_toList (v : View α) : v.toList.length = v.size := length_readFrom _ _

theorem getElem?_readFrom {count k : Nat} (hk : k < count) (bytes : Bytes) :
    (readFrom count bytes ([] : List α))[k]? =
      some (Stored.read ((bytes.drop (k * Stored.width α)).take (Stored.width α))) := by
  induction count generalizing k bytes with
  | zero => omega
  | succ count ih =>
    rw [readFrom_succ]
    cases k with
    | zero => simp
    | succ k =>
      rw [List.getElem?_cons_succ, ih (by omega), List.drop_drop, Nat.succ_mul, Nat.add_comm]

/-- Indexing a view is indexing its values. -/
theorem get?_eq {v : View α} (hpos : 0 < Stored.width α) (hw : Stored.width α < UInt64.size)
    (hd : v.bytes.length % Stored.width α = 0) (hlen : v.bytes.length < UInt64.size) (i : UInt64) :
    v.get? i = v.toList[i.toNat]? := by
  have hsize : v.size * Stored.width α = v.bytes.length := by
    unfold size
    rw [Nat.mul_comm]
    have := Nat.div_add_mod v.bytes.length (Stored.width α)
    omega
  unfold get?
  by_cases hi : i.toNat < v.size
  · -- The value lies within the bytes, so nothing wraps.
    have hstop : i.toNat * Stored.width α + Stored.width α ≤ v.bytes.length := by
      rw [← hsize, ← Nat.succ_mul]
      exact Nat.mul_le_mul_right _ hi
    have hmod : (i.toNat * Stored.width α + Stored.width α) % UInt64.size =
        i.toNat * Stored.width α + Stored.width α := Nat.mod_eq_of_lt (by omega)
    simp only [hmod]
    rw [if_neg (by omega), if_pos ⟨by omega, hstop⟩, Nat.add_sub_cancel_left]
    exact (getElem?_readFrom hi v.bytes).symm
  · have hstart : v.bytes.length ≤ i.toNat * Stored.width α := by
      rw [← hsize]
      exact Nat.mul_le_mul_right _ (Nat.not_lt.mp hi)
    rw [List.getElem?_eq_none (by rw [length_toList]; omega)]
    by_cases hbig : UInt64.size ≤ i.toNat * Stored.width α
    · rw [if_pos hbig]
    · rw [if_neg hbig]
      refine if_neg ?_
      intro hs
      obtain ⟨hfront, hback⟩ := hs
      by_cases hwrap : i.toNat * Stored.width α + Stored.width α < UInt64.size
      · rw [Nat.mod_eq_of_lt hwrap] at hback
        omega
      · rw [Nat.mod_eq_sub_mod (by omega), Nat.mod_eq_of_lt (by omega)] at hfront
        omega

def Reads (v : View α) (xs : List α) : Prop := v.toList = xs ∧ ∀ i : UInt64, v.get? i = xs[i.toNat]?

theorem reads_toList {v : View α} {n : Nat} (hpos : 0 < Stored.width α) (hw : Stored.width α < UInt64.size)
    (hl : v.bytes.length = Stored.width α * n) (hlen : v.bytes.length < UInt64.size) : v.Reads v.toList :=
  ⟨rfl, get?_eq hpos hw (by rw [hl, Nat.mul_mod_right]) hlen⟩

section Inverse

variable {encode : α → Bytes} {keep : α → Prop} (inv : Stored.Inverse encode keep)

include inv

/-- The bytes of a view are those of its values. -/
theorem flatMap_toList {v : View α} (hd : v.bytes.length % Stored.width α = 0) (hk : ∀ a ∈ v.toList, keep a) :
    v.toList.flatMap encode = v.bytes := by
  obtain ⟨bytes⟩ := v
  have run : ∀ count (bytes : Bytes), bytes.length = count * Stored.width α →
      (∀ a ∈ readFrom count bytes [], keep a) → (readFrom count bytes []).flatMap encode = bytes := by
    intro count
    induction count with
    | zero =>
      intro bytes hl _
      rw [Nat.zero_mul] at hl
      rw [List.length_eq_zero_iff.mp hl]
      rfl
    | succ count ih =>
      intro bytes hl hk
      rw [Nat.succ_mul] at hl
      rw [readFrom_succ] at hk ⊢
      have hfirst := inv.encode_read (bytes.take (Stored.width α)) (by rw [List.length_take]; omega)
        (hk _ List.mem_cons_self)
      rw [List.flatMap_cons, hfirst, ih _ (by rw [List.length_drop]; omega) fun a ha => hk a (List.mem_cons_of_mem _ ha),
        List.take_append_drop]
  refine run _ bytes ?_ hk
  have := Nat.div_add_mod bytes.length (Stored.width α)
  show bytes.length = bytes.length / Stored.width α * Stored.width α
  rw [Nat.mul_comm]
  simp only at hd
  omega

theorem length_flatMap_encode (xs : List α) :
    (xs.flatMap encode).length = xs.length * Stored.width α := by
  induction xs with
  | nil => simp
  | cons x xs ih => rw [List.flatMap_cons, List.length_append, inv.length, ih, List.length_cons, Nat.succ_mul, Nat.add_comm]

/-- Values are read back. -/
theorem toList_flatMap {xs : List α} (hk : ∀ a ∈ xs, keep a) : (View.mk (xs.flatMap encode) : View α).toList = xs := by
  have run : ∀ xs : List α, (∀ a ∈ xs, keep a) → readFrom xs.length (xs.flatMap encode) [] = xs := by
    intro xs
    induction xs with
    | nil => exact fun _ => rfl
    | cons x xs ih =>
      intro hk
      rw [List.length_cons, readFrom_succ, List.flatMap_cons, List.take_left' (inv.length x),
        List.drop_left' (inv.length x), inv.read_encode x (hk x List.mem_cons_self),
        ih fun a ha => hk a (List.mem_cons_of_mem _ ha)]
  show readFrom ((xs.flatMap encode).length / Stored.width α) (xs.flatMap encode) [] = xs
  rw [length_flatMap_encode inv, Nat.mul_div_cancel _ inv.width_pos]
  exact run xs hk

end Inverse

end View

/-! ## What is stored -/

theorem inverse_byte : Stored.Inverse (fun b : UInt8 => [b]) fun _ => True where
  width_pos := by decide
  length _ := rfl
  read_encode _ _ := rfl
  encode_read bytes h _ := by
    obtain ⟨b, rfl⟩ := List.length_eq_one_iff.mp h
    rfl

theorem inverse_word : Stored.Inverse (fun w : UInt16 => Bytes.le 2 w.toNat) fun _ => True where
  width_pos := by decide
  length _ := Bytes.length_le _ _
  read_encode w _ := by
    show UInt16.ofNat (Bytes.ofLe (Bytes.le 2 w.toNat)) = w
    rw [Bytes.ofLe_le w.toNat_lt, UInt16.ofNat_toNat]
  encode_read bytes h _ := Bytes.le_word h

/-- The slot of a function is not stored, so only rows with none are read back. -/
theorem inverse_function : Stored.Inverse ExternalFn.encode fun f => f.slot = 0 where
  width_pos := by decide
  length f := by simp [ExternalFn.encode, Stored.width]
  read_encode f h := by
    have hs : Bytes.ofLe (Bytes.le 2 f.sources.toNat) = f.sources.toNat := Bytes.ofLe_le f.sources.toNat_lt
    have hd : Bytes.ofLe (Bytes.le 2 f.dests.toNat) = f.dests.toNat := Bytes.ofLe_le f.dests.toNat_lt
    have hr : Bytes.ofLe (Bytes.le 4 f.registers.toNat) = f.registers.toNat := Bytes.ofLe_le f.registers.toNat_lt
    -- What stands from each field on.
    have h0 : f.encode = List.replicate 8 0 ++ (Bytes.le 2 f.sources.toNat ++ (Bytes.le 2 f.dests.toNat ++
        Bytes.le 4 f.registers.toNat)) := by simp [ExternalFn.encode]
    have h8 : f.encode.drop 8 = Bytes.le 2 f.sources.toNat ++ (Bytes.le 2 f.dests.toNat ++
        Bytes.le 4 f.registers.toNat) := by rw [h0, List.drop_left' List.length_replicate]
    have h10 : f.encode.drop 10 = Bytes.le 2 f.dests.toNat ++ Bytes.le 4 f.registers.toNat := by
      rw [show 10 = 8 + 2 from rfl, ← List.drop_drop, h8, List.drop_left' (Bytes.length_le _ _)]
    have h12 : f.encode.drop 12 = Bytes.le 4 f.registers.toNat := by
      rw [show 12 = 10 + 2 from rfl, ← List.drop_drop, h10, List.drop_left' (Bytes.length_le _ _)]
    have hzero : f.encode.take 8 = List.replicate 8 0 := by rw [h0, List.take_left' List.length_replicate]
    simp only [Stored.read]
    rw [hzero, h8, h10, h12, List.take_left' (Bytes.length_le _ _), List.take_left' (Bytes.length_le _ _),
      List.take_of_length_le (by simp), hs, hd, hr, UInt16.ofNat_toNat, UInt16.ofNat_toNat, UInt32.ofNat_toNat]
    obtain ⟨slot, sources, dests, registers⟩ := f
    cases h
    rfl
  encode_read bytes h hs := by
    have h16 : bytes.length = 16 := h
    have hslot : Bytes.le 8 (UInt64.ofNat (Bytes.ofLe (bytes.take 8))).toNat = bytes.take 8 :=
      Bytes.le_quad (by rw [List.length_take]; omega)
    rw [show UInt64.ofNat (Bytes.ofLe (bytes.take 8)) = 0 from hs] at hslot
    have hzero : List.replicate 8 0 = bytes.take 8 := hslot
    unfold ExternalFn.encode
    rw [hzero]
    simp only [Stored.read]
    rw [Bytes.le_word (by simp; omega), Bytes.le_word (by simp; omega), Bytes.le_long (by simp; omega),
      ← List.take_add, ← List.take_add, ← List.take_add, List.take_of_length_le (by omega)]

end LaneScript
