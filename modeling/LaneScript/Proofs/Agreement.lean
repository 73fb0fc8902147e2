/-
  LaneScript.Proofs.Agreement — bytes that agree but for some bits.

  A format may leave bits unread. `Agree loose as bs` says that `bs` spells what `as`
  spells: the two have one length and differ in bits that are set in `loose` alone.
  `Opens` is the form a reader needs, some bytes that agree and a rest behind them.
  It is taken apart along the pieces of an encoding (`opens_append`, `opens_cons`),
  and with no loose bits it is equality (`opens_zeros`).
-/
import LaneScript.Bytes

namespace LaneScript

namespace Bytes

/-! ## Bytes that agree -/

/-- Byte by byte, `as` and `bs` are the same but for the bits that are set in `loose`. -/
def Agree : (loose as bs : Bytes) → Prop
  | [], [], [] => True
  | m :: loose, a :: as, b :: bs => a ||| m = b ||| m ∧ Agree loose as bs
  | _, _, _ => False

instance decidableAgree : (loose as bs : Bytes) → Decidable (Agree loose as bs)
  | [], [], [] => .isTrue trivial
  | _ :: loose, _ :: as, _ :: bs => @instDecidableAnd _ _ _ (decidableAgree loose as bs)
  | [], [], _ :: _ | [], _ :: _, _ | _ :: _, [], _ | _ :: _, _ :: _, [] => .isFalse id

def Opens (loose as bytes rest : Bytes) : Prop := ∃ b, Agree loose as b ∧ bytes = b ++ rest

variable {loose loose' as as' bs bytes rest : Bytes}

theorem Agree.length_eq (h : Agree loose as bs) : as.length = loose.length ∧ bs.length = loose.length := by
  induction loose generalizing as bs with
  | nil => cases as <;> cases bs <;> simp_all [Agree]
  | cons m loose ih =>
    cases as with
    | nil => exact h.elim
    | cons a as =>
      cases bs with
      | nil => exact h.elim
      | cons b bs =>
        obtain ⟨h1, h2⟩ := ih h.2
        exact ⟨by simp [h1], by simp [h2]⟩

theorem agree_refl (h : as.length = loose.length) : Agree loose as as := by
  induction loose generalizing as with
  | nil =>
    rw [List.length_eq_zero_iff.mp h]
    trivial
  | cons m loose ih =>
    cases as with
    | nil => cases h
    | cons a as => exact ⟨rfl, ih (by simpa using h)⟩

theorem Agree.symm (h : Agree loose as bs) : Agree loose bs as := by
  induction loose generalizing as bs with
  | nil =>
    obtain ⟨h1, h2⟩ := h.length_eq
    rw [List.length_eq_zero_iff.mp h1, List.length_eq_zero_iff.mp h2]
    trivial
  | cons m loose ih =>
    cases as with
    | nil => exact h.elim
    | cons a as =>
      cases bs with
      | nil => exact h.elim
      | cons b bs => exact ⟨h.1.symm, ih h.2⟩

theorem Agree.trans {cs : Bytes} (h : Agree loose as bs) (h' : Agree loose bs cs) : Agree loose as cs := by
  induction loose generalizing as bs cs with
  | nil =>
    rw [List.length_eq_zero_iff.mp h.length_eq.1, List.length_eq_zero_iff.mp h'.length_eq.2]
    trivial
  | cons m loose ih =>
    cases as with
    | nil => exact h.elim
    | cons a as =>
      cases bs with
      | nil => exact h.elim
      | cons b bs =>
        cases cs with
        | nil => exact h'.elim
        | cons c cs => exact ⟨h.1.trans h'.1, ih h.2 h'.2⟩

theorem agree_nil : Agree [] [] bs ↔ bs = [] := by
  cases bs <;> simp [Agree]

/-- Where no bit is loose, bytes that agree are the same. -/
theorem agree_zeros : Agree (List.replicate as.length 0) as bs ↔ bs = as := by
  induction as generalizing bs with
  | nil => cases bs <;> simp [Agree]
  | cons a as ih =>
    cases bs with
    | nil => simp [List.replicate_succ, Agree]
    | cons b bs =>
      simp only [List.length_cons, List.replicate_succ, Agree, UInt8.or_zero, List.cons.injEq, ih]
      exact and_congr_left' eq_comm

theorem agree_append (h : as.length = loose.length) :
    Agree (loose ++ loose') (as ++ as') bs ↔ ∃ b c, bs = b ++ c ∧ Agree loose as b ∧ Agree loose' as' c := by
  induction loose generalizing as bs with
  | nil =>
    obtain rfl := List.length_eq_zero_iff.mp h
    constructor
    · intro hb
      exact ⟨[], bs, rfl, trivial, hb⟩
    · intro h
      obtain ⟨b, c, rfl, hb, hc⟩ := h
      obtain rfl := List.length_eq_zero_iff.mp hb.length_eq.2
      exact hc
  | cons m loose ih =>
    cases as with
    | nil => cases h
    | cons a as =>
      have hl : as.length = loose.length := by simpa using h
      constructor
      · intro hb
        cases bs with
        | nil => exact hb.elim
        | cons x bs =>
          obtain ⟨b, c, rfl, h1, h2⟩ := (ih hl).mp hb.2
          exact ⟨x :: b, c, rfl, ⟨hb.1, h1⟩, h2⟩
      · intro h
        obtain ⟨b, c, rfl, hb, hc⟩ := h
        cases b with
        | nil => exact hb.elim
        | cons x b => exact ⟨hb.1, (ih hl).mpr ⟨b, c, rfl, hb.2, hc⟩⟩

theorem opens_append (hl : as.length = loose.length) : Opens (loose ++ loose') (as ++ as') bytes rest ↔
    ∃ mid, Opens loose as bytes mid ∧ Opens loose' as' mid rest := by
  constructor
  · intro h
    obtain ⟨b, hb, rfl⟩ := h
    obtain ⟨b, c, rfl, h1, h2⟩ := (agree_append hl).mp hb
    exact ⟨c ++ rest, ⟨b, h1, by simp⟩, c, h2, rfl⟩
  · intro h
    obtain ⟨mid, ⟨b, h1, rfl⟩, c, h2, rfl⟩ := h
    exact ⟨b ++ c, (agree_append hl).mpr ⟨b, c, rfl, h1, h2⟩, by simp⟩

/-- Bytes agree with themselves, whatever bits are loose. -/
theorem opens_self (h : as.length = loose.length) (rest : Bytes) : Opens loose as (as ++ rest) rest :=
  ⟨as, agree_refl h, rfl⟩

theorem opens_zeros : Opens (List.replicate as.length 0) as bytes rest ↔ bytes = as ++ rest := by
  simp [Opens, agree_zeros]

theorem opens_nil : Opens [] [] bytes rest ↔ bytes = rest := by
  simp [Opens, agree_nil]

theorem opens_cons {m a : UInt8} : Opens (m :: loose) (a :: as) bytes rest ↔
    ∃ b mid, bytes = b :: mid ∧ a ||| m = b ||| m ∧ Opens loose as mid rest := by
  constructor
  · intro h
    obtain ⟨b, hb, rfl⟩ := h
    cases b with
    | nil => exact hb.elim
    | cons x b => exact ⟨x, b ++ rest, rfl, hb.1, b, hb.2, rfl⟩
  · intro h
    obtain ⟨x, mid, rfl, hx, b, hb, rfl⟩ := h
    exact ⟨x :: b, ⟨hx, hb⟩, rfl⟩

theorem opens_cons_zero {a : UInt8} : Opens (0 :: loose) (a :: as) bytes rest ↔
    ∃ mid, bytes = a :: mid ∧ Opens loose as mid rest := by
  simp only [opens_cons, UInt8.or_zero]
  constructor
  · intro h
    obtain ⟨b, mid, rfl, rfl, h⟩ := h
    exact ⟨mid, rfl, h⟩
  · intro h
    obtain ⟨mid, rfl, h⟩ := h
    exact ⟨a, mid, rfl, rfl, h⟩

/-! ## Bytes and words -/

theorem opens_word_append {w : UInt16} : Opens (0 :: 0 :: loose) (word w ++ as) bytes rest ↔
    ∃ mid, bytes = word w ++ mid ∧ Opens loose as mid rest := by
  simp only [word, List.cons_append, List.nil_append, opens_cons_zero]
  constructor
  · intro h
    obtain ⟨_, rfl, mid, rfl, h⟩ := h
    exact ⟨mid, rfl, h⟩
  · intro h
    obtain ⟨mid, rfl, h⟩ := h
    exact ⟨_, rfl, mid, rfl, h⟩

theorem byte?_eq_some_iff {b : UInt8} : byte? bytes = some (b, rest) ↔ bytes = b :: rest := by
  cases bytes <;> simp [byte?]

theorem word?_eq_some_iff {w : UInt16} : word? bytes = some (w, rest) ↔ bytes = word w ++ rest := by
  constructor
  · intro h
    match bytes, h with
    | hi :: lo :: tail, h =>
      have h1 := hi.toNat_lt
      have h2 := lo.toNat_lt
      cases h
      have e : (UInt16.ofNat (hi.toNat * 256 + lo.toNat)).toNat = hi.toNat * 256 + lo.toNat :=
        UInt16.toNat_ofNat_of_lt' (by unfold UInt16.size; omega)
      have hd : (hi.toNat * 256 + lo.toNat) / 256 = hi.toNat := by omega
      have hm : (hi.toNat * 256 + lo.toNat) % 256 = lo.toNat := by omega
      simp only [word, e, hd, hm, UInt8.ofNat_toNat, List.cons_append, List.nil_append]
  · intro h
    rw [h]
    exact word?_word w rest

theorem or_ones (b : UInt8) : b ||| 0xff = 0xff := by
  have h : ∀ n < 256, UInt8.ofNat n ||| 0xff = 0xff := by decide +kernel
  have := h b.toNat b.toNat_lt
  simpa using this

theorem opens_word {w : UInt16} :
    Opens [0, 0] (word w) bytes rest ↔ bytes = word w ++ rest := @opens_zeros (word w) bytes rest

/-- A word all of whose bits are loose. -/
theorem opens_any {w : UInt16} :
    Opens [0xff, 0xff] (word w) bytes rest ↔ ∃ v : UInt16, bytes = word v ++ rest := by
  simp only [word, opens_cons, or_ones, opens_nil, true_and]
  constructor
  · intro h
    obtain ⟨a, _, rfl, b, tail, rfl, rfl⟩ := h
    have hw : word? (a :: b :: tail) = some (_, tail) := rfl
    exact ⟨_, word?_eq_some_iff.mp hw⟩
  · intro h
    obtain ⟨v, rfl⟩ := h
    exact ⟨_, _, rfl, _, _, rfl, rfl⟩

end Bytes

end LaneScript
