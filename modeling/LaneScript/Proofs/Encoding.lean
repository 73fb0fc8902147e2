/-
  LaneScript.Proofs.Encoding — one instruction survives being written and read.

  `Fits` says what an instruction must look like to stand in a stream, inside a fused
  group (`chained`) or outside. Reading skips some bits: the kinds of sources that a
  computation does not have, and the word of an accumulator operand. `looseBody` marks
  them, and reading yields `i` just where `i` fits and the bytes agree with its encoding
  off the marked bits (`body?_eq_some_iff`). In particular what fits is read back from
  its bytes whatever follows them (`body?_encodeBody`).
-/
import LaneScript.Instruction.Encoding
import LaneScript.Proofs.Agreement

namespace LaneScript

theorem Compute.arity_le (f : Compute) : f.arity ≤ 3 := by cases f <;> decide

theorem Source.kind_le (s : Source) : s.kind ≤ 2 := by cases s <;> simp [kind]

/-- The word of an accumulator operand is not read. -/
def Source.loose : Source → Bytes
  | .acc => [0xff, 0xff]
  | _ => [0, 0]

@[inherit_doc Source.loose]
def Dest.loose : Dest → Bytes
  | .acc => [0xff, 0xff]
  | .reg _ => [0, 0]

/-- What the top two bits of a computation's kinds say. -/
def Dest.kind : Dest → Nat
  | .reg _ => 0
  | .acc => 2

namespace Instruction

/-- Shaped as its opcode demands, with accumulator operands only in a step of a group. -/
structure Fits (chained : Bool) (i : Instruction) : Prop where
  shaped : i.WellShaped
  acc : .acc ∈ i.sources ∨ .acc ∈ i.dests → chained = true ∧ (i.category = .compute ∨ i.category = .output)

/-- The kind bits of the sources that a computation with `arity` sources does not have. -/
def spareKinds (arity : Nat) : UInt8 := (0x3f <<< UInt8.ofNat (2 * arity)) &&& 0x3f

def looseBody (i : Instruction) : Bytes :=
  match i.opcode with
  | .compute f => spareKinds f.arity :: i.sources.flatMap Source.loose ++ i.dests.flatMap Dest.loose
  | .output _ => 0 :: [0, 0] ++ i.sources.flatMap Source.loose ++ [0, 0]
  | _ => List.replicate i.encodeBody.length 0

def loose (i : Instruction) : Bytes := 0 :: i.looseBody

/-! ## Kinds -/

theorem kindAt_kinds_bound (ss : List Source) (pos : Nat) : (ss[pos]?.map Source.kind).getD 0 ≤ 2 := by
  cases ss[pos]? with
  | none => simp
  | some s => exact s.kind_le

theorem kinds_toNat (ss : List Source) (d : Option Dest) :
    (kinds ss d).toNat = (ss[0]?.map Source.kind).getD 0 + 4 * (ss[1]?.map Source.kind).getD 0 +
      16 * (ss[2]?.map Source.kind).getD 0 + 64 * (if d = some .acc then 2 else 0) := by
  have b0 := kindAt_kinds_bound ss 0
  have b1 := kindAt_kinds_bound ss 1
  have b2 := kindAt_kinds_bound ss 2
  simp only [kinds, UInt8.toNat_ofNat']
  split <;> omega

theorem kindAt_kinds (ss : List Source) (d : Option Dest) {pos : Nat} (h : pos < 3) :
    kindAt (kinds ss d) pos = (ss[pos]?.map Source.kind).getD 0 := by
  have b0 := kindAt_kinds_bound ss 0
  have b1 := kindAt_kinds_bound ss 1
  have b2 := kindAt_kinds_bound ss 2
  rw [kindAt, kinds_toNat]
  match pos, h with
  | 0, _ => split <;> omega
  | 1, _ => split <;> omega
  | 2, _ => split <;> omega

theorem kindAt_kinds_dest (ss : List Source) (d : Option Dest) :
    kindAt (kinds ss d) 3 = if d = some .acc then 2 else 0 := by
  have b0 := kindAt_kinds_bound ss 0
  have b1 := kindAt_kinds_bound ss 1
  have b2 := kindAt_kinds_bound ss 2
  rw [kindAt, kinds_toNat]
  split <;> omega

/-- A byte is made of its four kinds. -/
theorem eq_iff_kindAt {a b : UInt8} : a = b ↔
    kindAt a 0 = kindAt b 0 ∧ kindAt a 1 = kindAt b 1 ∧ kindAt a 2 = kindAt b 2 ∧ kindAt a 3 = kindAt b 3 := by
  constructor
  · intro h
    subst h
    exact ⟨rfl, rfl, rfl, rfl⟩
  · intro h
    have ha := a.toNat_lt
    have hb := b.toNat_lt
    unfold kindAt at h
    rw [← UInt8.toNat_inj]
    omega

theorem range_map_kindAt_kinds {ss : List Source} (d : Option Dest) (h : ss.length ≤ 3) :
    (List.range ss.length).map (kindAt (kinds ss d)) = ss.map Source.kind := by
  apply List.ext_getElem (by simp)
  intro pos h1 h2
  simp only [List.length_map, List.length_range] at h1
  simp [kindAt_kinds ss d (show pos < 3 by omega), h1]

def readKinds (arity : Nat) (k : UInt8) : List Nat := (List.range arity).map (kindAt k) ++ [kindAt k 3]

def filledKinds (arity : Nat) (read : List Nat) : UInt8 :=
  UInt8.ofNat ((read.take arity).zipIdx.foldl (fun b (kind, pos) => b + kind <<< (2 * pos)) (64 * read.getD arity 0)) |||
    spareKinds arity

theorem or_spareKinds (arity : Nat) (h : arity ≤ 3) (k : UInt8) :
    k ||| spareKinds arity = filledKinds arity (readKinds arity k) ∧
      readKinds arity (k ||| spareKinds arity) = readKinds arity k := by
  have bytes : ∀ arity ≤ 3, ∀ n < 256, UInt8.ofNat n ||| spareKinds arity = filledKinds arity (readKinds arity (UInt8.ofNat n)) ∧
      readKinds arity (UInt8.ofNat n ||| spareKinds arity) = readKinds arity (UInt8.ofNat n) := by decide +kernel
  have := bytes arity h k.toNat k.toNat_lt
  simpa using this

/-- Bytes of kinds agree off the spare bits just when the same kinds are read from them. -/
theorem or_spareKinds_eq_iff {arity : Nat} (h : arity ≤ 3) {a b : UInt8} :
    a ||| spareKinds arity = b ||| spareKinds arity ↔ readKinds arity a = readKinds arity b := by
  obtain ⟨ha, ha'⟩ := or_spareKinds arity h a
  obtain ⟨hb, hb'⟩ := or_spareKinds arity h b
  constructor
  · intro e
    rw [← ha', ← hb', e]
  · intro e
    rw [ha, hb, e]

/-! ## Operands -/

theorem source?_eq_some_iff {chained : Bool} {kind : Nat} {bytes rest : Bytes} {s : Source} :
    source? chained kind bytes = some (s, rest) ↔
      s.kind = kind ∧ (s = .acc → chained = true) ∧ Bytes.Opens s.loose (Bytes.word s.index) bytes rest := by
  simp only [source?, Option.bind_eq_bind, Option.bind_eq_some_iff, Prod.exists, Bytes.word?_eq_some_iff]
  constructor
  · intro h
    obtain ⟨index, tail, rfl, t, ht, h⟩ := h
    split at h
    · cases h
    · rename_i hn
      cases h
      unfold Source.ofParts? at ht
      split at ht
      · cases ht
        exact ⟨rfl, by simp, Bytes.opens_word.mpr rfl⟩
      · cases ht
        exact ⟨rfl, by simp, Bytes.opens_word.mpr rfl⟩
      · cases ht
        exact ⟨rfl, fun _ => by simpa using hn, Bytes.opens_any.mpr ⟨index, rfl⟩⟩
      · cases ht
  · intro h
    obtain ⟨rfl, hc, h⟩ := h
    cases s with
    | reg r => exact ⟨r, rest, Bytes.opens_word.mp h, .reg r, rfl, by simp⟩
    | const c => exact ⟨c, rest, Bytes.opens_word.mp h, .const c, rfl, by simp⟩
    | acc =>
      obtain ⟨v, hv⟩ := Bytes.opens_any.mp h
      exact ⟨v, rest, hv, .acc, rfl, by simp [hc rfl]⟩

theorem opens_source {s : Source} (h : s ≠ .acc) {bytes rest : Bytes} :
    Bytes.Opens s.loose (Bytes.word s.index) bytes rest ↔ bytes = Bytes.word s.index ++ rest := by
  cases s with
  | reg r => exact Bytes.opens_word
  | const c => exact Bytes.opens_word
  | acc => exact absurd rfl h

theorem length_loose_sources (ss : List Source) : (sourceWords ss).length = (ss.flatMap Source.loose).length := by
  induction ss with
  | nil => rfl
  | cons s ss ih =>
    rw [sourceWords, List.flatMap_cons, List.flatMap_cons, List.length_append, List.length_append, ← ih]
    cases s <;> rfl

theorem length_loose_dests (ds : List Dest) : (destWords ds).length = (ds.flatMap Dest.loose).length := by
  induction ds with
  | nil => rfl
  | cons d ds ih =>
    rw [destWords, List.flatMap_cons, List.flatMap_cons, List.length_append, List.length_append, ← ih]
    cases d <;> rfl

theorem sources?_eq_some_iff {chained : Bool} {kinds : List Nat} {bytes rest : Bytes} {ss : List Source} :
    sources? chained kinds bytes = some (ss, rest) ↔
      ss.map Source.kind = kinds ∧ (.acc ∈ ss → chained = true) ∧
        Bytes.Opens (ss.flatMap Source.loose) (sourceWords ss) bytes rest := by
  induction kinds generalizing bytes rest ss with
  | nil =>
    simp only [sources?, Option.some.injEq, Prod.mk.injEq, List.map_eq_nil_iff]
    constructor
    · intro h
      obtain ⟨rfl, rfl⟩ := h
      exact ⟨rfl, by simp, Bytes.opens_nil.mpr rfl⟩
    · intro h
      obtain ⟨rfl, -, h⟩ := h
      exact ⟨rfl, Bytes.opens_nil.mp h⟩
  | cons kind kinds ih =>
    have split (s : Source) (ss : List Source) :
        Bytes.Opens ((s :: ss).flatMap Source.loose) (sourceWords (s :: ss)) bytes rest ↔
          ∃ mid, Bytes.Opens s.loose (Bytes.word s.index) bytes mid ∧
            Bytes.Opens (ss.flatMap Source.loose) (sourceWords ss) mid rest :=
      Bytes.opens_append (by cases s <;> rfl)
    simp only [sources?, Option.bind_eq_bind, Option.bind_eq_some_iff, Prod.exists, source?_eq_some_iff, ih]
    constructor
    · intro h
      obtain ⟨s, mid, ⟨hk, hc, ho⟩, more, tail, ⟨hks, hcs, hos⟩, e⟩ := h
      cases e
      refine ⟨by rw [List.map_cons, hk, hks], fun m => ?_, (split s more).mpr ⟨mid, ho, hos⟩⟩
      rcases List.mem_cons.mp m with e | m
      · exact hc e.symm
      · exact hcs m
    · intro h
      obtain ⟨hk, hc, ho⟩ := h
      cases ss with
      | nil => cases hk
      | cons s ss =>
        obtain ⟨hk, hks⟩ := List.cons.inj hk
        obtain ⟨mid, ho, hos⟩ := (split s ss).mp ho
        exact ⟨s, mid, ⟨hk, fun e => hc (by simp [e]), ho⟩, ss, rest,
          ⟨hks, fun m => hc (List.mem_cons_of_mem _ m), hos⟩, rfl⟩

def callWords (ss : List Source) : Bytes := ss.flatMap fun s => UInt8.ofNat s.kind :: Bytes.word s.index

theorem toNat_kind (s : Source) : (UInt8.ofNat s.kind).toNat = s.kind := by
  have := s.kind_le
  simp only [UInt8.toNat_ofNat']
  omega

theorem callSources?_eq_some_iff {count : Nat} {bytes rest : Bytes} {ss : List Source} :
    callSources? count bytes = some (ss, rest) ↔ ss.length = count ∧ .acc ∉ ss ∧ bytes = callWords ss ++ rest := by
  induction count generalizing bytes rest ss with
  | zero =>
    simp only [callSources?, Option.some.injEq, Prod.mk.injEq, List.length_eq_zero_iff]
    constructor
    · intro h
      obtain ⟨rfl, rfl⟩ := h
      exact ⟨rfl, List.not_mem_nil, rfl⟩
    · intro h
      obtain ⟨rfl, -, rfl⟩ := h
      exact ⟨rfl, rfl⟩
  | succ count ih =>
    simp only [callSources?, Option.bind_eq_bind, Option.bind_eq_some_iff, Prod.exists, Bytes.byte?_eq_some_iff,
      source?_eq_some_iff, ih]
    constructor
    · intro h
      obtain ⟨k, mid, rfl, s, mid', ⟨hk, hc, ho⟩, more, tail, ⟨hl, hcs, rfl⟩, e⟩ := h
      cases e
      have hs : s ≠ .acc := fun e => nomatch hc e
      have hk' : UInt8.ofNat s.kind = k := by rw [hk, UInt8.ofNat_toNat]
      have hw := (opens_source hs).mp ho
      refine ⟨by rw [List.length_cons, hl], ?_, ?_⟩
      · intro m
        rcases List.mem_cons.mp m with e | m
        · exact hs e.symm
        · exact hcs m
      · rw [hw, ← hk']
        simp [callWords]
    · intro h
      obtain ⟨hl, hc, rfl⟩ := h
      cases ss with
      | nil => cases hl
      | cons s ss =>
        obtain ⟨hs, hss⟩ := not_or.mp (mt List.mem_cons.mpr hc)
        have ho := (opens_source (Ne.symm hs)).mpr (rfl : _ = Bytes.word s.index ++ (callWords ss ++ rest))
        exact ⟨UInt8.ofNat s.kind, _, by simp [callWords], s, _,
          ⟨(toNat_kind s).symm, fun e => absurd e.symm hs, ho⟩, ss, rest, ⟨by simpa using hl, hss, rfl⟩, rfl⟩

theorem dests?_eq_some_iff {count : Nat} {bytes rest : Bytes} {ds : List Dest} :
    dests? count bytes = some (ds, rest) ↔ ds.length = count ∧ .acc ∉ ds ∧ bytes = destWords ds ++ rest := by
  induction count generalizing bytes rest ds with
  | zero =>
    simp only [dests?, Option.some.injEq, Prod.mk.injEq, List.length_eq_zero_iff]
    constructor
    · intro h
      obtain ⟨rfl, rfl⟩ := h
      exact ⟨rfl, List.not_mem_nil, rfl⟩
    · intro h
      obtain ⟨rfl, -, rfl⟩ := h
      exact ⟨rfl, rfl⟩
  | succ count ih =>
    simp only [dests?, Option.bind_eq_bind, Option.bind_eq_some_iff, Prod.exists, Bytes.word?_eq_some_iff, ih]
    constructor
    · intro h
      obtain ⟨r, mid, rfl, more, tail, ⟨hl, hc, rfl⟩, e⟩ := h
      cases e
      exact ⟨by rw [List.length_cons, hl], by simpa using hc, by simp [destWords, Dest.index]⟩
    · intro h
      obtain ⟨hl, hc, rfl⟩ := h
      cases ds with
      | nil => cases hl
      | cons d ds =>
        obtain ⟨hd, hds⟩ := not_or.mp (mt List.mem_cons.mpr hc)
        cases d with
        | reg r => exact ⟨r, destWords ds ++ rest, by simp [destWords, Dest.index], ds, rest, ⟨by simpa using hl, hds, rfl⟩, rfl⟩
        | acc => exact absurd rfl hd

theorem computeDest?_eq_some_iff {chained : Bool} {kind : Nat} {bytes rest : Bytes} {d : Dest} :
    (∃ index, bytes = Bytes.word index ++ rest ∧ computeDest? chained kind index = some d) ↔
      d.kind = kind ∧ (d = .acc → chained = true) ∧ Bytes.Opens d.loose (Bytes.word d.index) bytes rest := by
  constructor
  · intro h
    obtain ⟨index, rfl, h⟩ := h
    unfold computeDest? at h
    split at h
    · cases h
      exact ⟨rfl, by simp, Bytes.opens_word.mpr rfl⟩
    · split at h
      · cases h
        exact ⟨rfl, fun _ => ‹_›, Bytes.opens_any.mpr ⟨index, rfl⟩⟩
      · cases h
    · cases h
  · intro h
    obtain ⟨rfl, hc, h⟩ := h
    cases d with
    | reg r => exact ⟨r, Bytes.opens_word.mp h, rfl⟩
    | acc =>
      obtain ⟨v, hv⟩ := Bytes.opens_any.mp h
      exact ⟨v, hv, by simp [computeDest?, Dest.kind, hc rfl]⟩

/-! ## Instructions -/

theorem readKinds_kinds {f : Compute} {ss : List Source} (h : ss.length = f.arity) (d : Dest) :
    readKinds f.arity (kinds ss (some d)) = ss.map Source.kind ++ [d.kind] := by
  have h3 : ss.length ≤ 3 := h ▸ f.arity_le
  rw [readKinds, ← h, range_map_kindAt_kinds _ h3, kindAt_kinds_dest]
  cases d <;> simp [Dest.kind]

theorem body?_compute_iff {f : Compute} {chained : Bool} {bytes rest : Bytes} {i : Instruction} :
    body? (.compute f) chained bytes = some (i, rest) ↔
      i.opcode = .compute f ∧ i.Fits chained ∧ Bytes.Opens i.looseBody i.encodeBody bytes rest := by
  -- The bytes of a computation are its kinds, its sources and its destination.
  have opens (ss : List Source) (d : Dest) :
      Bytes.Opens (looseBody ⟨.compute f, .none, ss, [d]⟩) (encodeBody ⟨.compute f, .none, ss, [d]⟩) bytes rest ↔
        ∃ k mid, bytes = k :: mid ∧ kinds ss (some d) ||| spareKinds f.arity = k ||| spareKinds f.arity ∧
          ∃ mid', Bytes.Opens (ss.flatMap Source.loose) (sourceWords ss) mid mid' ∧
            Bytes.Opens d.loose (Bytes.word d.index) mid' rest := by
    simp only [looseBody, encodeBody, List.cons_append, Bytes.opens_cons, Bytes.opens_append (length_loose_sources ss),
      List.head?_cons, destWords, List.flatMap_cons, List.flatMap_nil, List.append_nil]
  simp only [body?, Option.bind_eq_bind, Option.bind_eq_some_iff, Prod.exists, Bytes.byte?_eq_some_iff,
    sources?_eq_some_iff, Bytes.word?_eq_some_iff]
  constructor
  · intro h
    obtain ⟨k, mid, rfl, ss, mid', ⟨hk, hc, ho⟩, index, tail, hw, d, hd, e⟩ := h
    cases e
    obtain ⟨hdk, hdc, hdo⟩ := computeDest?_eq_some_iff.mp ⟨index, hw, hd⟩
    have hl : ss.length = f.arity := by
      have := congrArg List.length hk
      simpa using this
    refine ⟨rfl, ⟨⟨rfl, hl, rfl⟩, fun m => ⟨?_, .inl rfl⟩⟩, (opens ss d).mpr ⟨k, mid, rfl, ?_, mid', ho, hdo⟩⟩
    · rcases m with m | m
      · exact hc m
      · exact hdc (List.mem_singleton.mp m).symm
    · rw [or_spareKinds_eq_iff f.arity_le, readKinds_kinds hl, hk, hdk]
      rfl
  · intro h
    obtain ⟨op, pay, ss, ds⟩ := i
    obtain ⟨rfl, ⟨⟨hp, hl, hd⟩, hacc⟩, ho⟩ := h
    obtain rfl : pay = .none := hp
    obtain ⟨d, rfl⟩ := List.length_eq_one_iff.mp hd
    obtain ⟨k, mid, rfl, hk, mid', hs, hdo⟩ := (opens ss d).mp ho
    rw [or_spareKinds_eq_iff f.arity_le, readKinds_kinds hl] at hk
    obtain ⟨hk, hdk⟩ := List.append_inj' hk rfl
    obtain ⟨index, hw, hcd⟩ := computeDest?_eq_some_iff.mpr ⟨(List.cons.inj hdk).1,
      fun e => (hacc (.inr (by simp [e]))).1, hdo⟩
    exact ⟨k, mid, rfl, ss, mid', ⟨hk, fun m => (hacc (.inl m)).1, hs⟩, index, rest, hw, d, hcd, rfl⟩

theorem kind_eq_zero {s : Source} : s.kind = 0 ↔ ∃ r, s = .reg r := by
  cases s <;> simp [Source.kind]

theorem sources_of_kinds {ss : List Source} {kind : Nat} (h : ss.map Source.kind = [0, kind]) :
    ∃ r s, ss = [.reg r, s] ∧ s.kind = kind := by
  obtain ⟨a, more, rfl, ha, hm⟩ := List.map_eq_cons_iff.mp h
  obtain ⟨s, more, rfl, hs, hm⟩ := List.map_eq_cons_iff.mp hm
  obtain rfl := List.map_eq_nil_iff.mp hm
  obtain ⟨r, rfl⟩ := kind_eq_zero.mp ha
  exact ⟨r, s, rfl, hs⟩

/-- In an output's byte of kinds only that of the value may differ from zero. -/
theorem eq_kinds_value (k : UInt8) (r : UInt16) (s : Source) :
    k = kinds [.reg r, s] none ↔ kindAt k 0 = 0 ∧ kindAt k 1 = s.kind ∧ kindAt k 2 = 0 ∧ kindAt k 3 = 0 := by
  have h0 : kindAt (kinds [.reg r, s] none) 0 = 0 := kindAt_kinds _ none (by decide)
  have h1 : kindAt (kinds [.reg r, s] none) 1 = s.kind := kindAt_kinds _ none (by decide)
  have h2 : kindAt (kinds [.reg r, s] none) 2 = 0 := kindAt_kinds _ none (by decide)
  have h3 : kindAt (kinds [.reg r, s] none) 3 = 0 := kindAt_kinds_dest _ none
  rw [eq_iff_kindAt, h0, h1, h2, h3]

theorem body?_output_iff {e : Element} {chained : Bool} {bytes rest : Bytes} {i : Instruction} :
    body? (.output e) chained bytes = some (i, rest) ↔
      i.opcode = .output e ∧ i.Fits chained ∧ Bytes.Opens i.looseBody i.encodeBody bytes rest := by
  -- The bytes of an output are its kinds, its dataset, its sources and its field.
  have opens (d f : UInt16) (ss : List Source) :
      Bytes.Opens (looseBody ⟨.output e, .field d f, ss, []⟩) (encodeBody ⟨.output e, .field d f, ss, []⟩) bytes rest ↔
        ∃ mid mid', bytes = kinds ss none :: mid ∧ mid = Bytes.word d ++ mid' ∧
          Bytes.Opens (ss.flatMap Source.loose) (sourceWords ss) mid' (Bytes.word f ++ rest) := by
    simp only [looseBody, encodeBody, address, datasetField?, Option.getD_some, List.cons_append, List.nil_append,
      List.append_assoc, Bytes.opens_cons_zero, Bytes.opens_word_append, Bytes.opens_append (length_loose_sources ss),
      Bytes.opens_word, exists_eq_right, exists_and_left]
  simp only [body?, Option.bind_eq_bind, Option.bind_eq_some_iff, Prod.exists, Bytes.byte?_eq_some_iff,
    Bytes.word?_eq_some_iff]
  constructor
  · intro h
    obtain ⟨k, _, rfl, d, mid, rfl, h⟩ := h
    split at h
    · simp at h
    · rename_i hn
      simp only [Option.bind_eq_some_iff, Prod.exists, sources?_eq_some_iff, Bytes.word?_eq_some_iff] at h
      obtain ⟨ss, _, ⟨hk, hc, ho⟩, f, tail, rfl, e⟩ := h
      cases e
      obtain ⟨r, s, rfl, hs⟩ := sources_of_kinds hk
      have hkind : k = kinds [.reg r, s] none := by
        rw [eq_kinds_value, hs]
        simpa [and_assoc] using hn
      refine ⟨rfl, ⟨⟨⟨d, f, rfl⟩, ⟨r, s, rfl⟩, rfl⟩, fun m => ⟨hc (by simpa using m), .inr rfl⟩⟩, ?_⟩
      exact (opens d f _).mpr ⟨_, mid, by rw [hkind], rfl, ho⟩
  · intro h
    obtain ⟨op, pay, ss, ds⟩ := i
    obtain ⟨rfl, ⟨⟨⟨d, f, hp⟩, ⟨r, s, hs⟩, hd⟩, hacc⟩, ho⟩ := h
    obtain rfl : pay = .field d f := hp
    obtain rfl : ss = [.reg r, s] := hs
    obtain rfl : ds = [] := hd
    obtain ⟨_, mid, rfl, rfl, hw⟩ := (opens d f _).mp ho
    obtain ⟨h0, h1, h2, h3⟩ := (eq_kinds_value _ r s).mp rfl
    refine ⟨_, _, rfl, d, mid, rfl, ?_⟩
    rw [if_neg (by simp [h0, h2, h3])]
    simp only [Option.bind_eq_some_iff, Prod.exists, sources?_eq_some_iff, Bytes.word?_eq_some_iff]
    exact ⟨_, _, ⟨by rw [h1]; rfl, fun m => (hacc (.inl m)).1, hw⟩, f, rest, rfl, rfl⟩

/-- The byte of kinds of an index generator holds one kind. -/
theorem eq_kinds_one (k : UInt8) (s : Source) : k = kinds [s] none ↔ k.toNat < 4 ∧ kindAt k 0 = s.kind := by
  have := s.kind_le
  have h : (kinds [s] none).toNat = s.kind := by simp [kinds_toNat]
  rw [← UInt8.toNat_inj, h, kindAt]
  omega

theorem dests_one {ds : List Dest} : ds.length = 1 ∧ .acc ∉ ds ↔ ∃ r, ds = [.reg r] := by
  constructor
  · intro h
    obtain ⟨hl, hacc⟩ := h
    obtain ⟨d, rfl⟩ := List.length_eq_one_iff.mp hl
    cases d with
    | reg r => exact ⟨r, rfl⟩
    | acc => simp at hacc
  · intro h
    obtain ⟨r, rfl⟩ := h
    simp

theorem length_encodeBody (i : Instruction) : i.encodeBody.length = i.looseBody.length := by
  unfold looseBody
  split
  · rename_i f hf
    simp only [encodeBody, hf, List.cons_append, List.length_cons, List.length_append, length_loose_sources,
      length_loose_dests]
  · rename_i e he
    simp only [encodeBody, he, List.cons_append, List.length_cons, List.length_append, length_loose_sources,
      Bytes.length_word, List.length_nil]
    omega
  · simp

theorem length_loose (i : Instruction) : i.encode.length = i.loose.length := by
  rw [encode, loose, List.length_cons, List.length_cons, length_encodeBody]

/-- Behind any other opcode every bit is read. -/
theorem opens_exact {i : Instruction} (hc : i.category ≠ .compute) (ho : i.category ≠ .output) {bytes rest : Bytes} :
    Bytes.Opens i.looseBody i.encodeBody bytes rest ↔ bytes = i.encodeBody ++ rest := by
  have : i.looseBody = List.replicate i.encodeBody.length 0 := by
    unfold looseBody
    split
    · simp_all [category, Opcode.category]
    · simp_all [category, Opcode.category]
    · rfl
  rw [this]
  exact Bytes.opens_zeros

/-- What is read behind any other opcode fits its place and is what its bytes say. -/
theorem eq_encodeBody_of_body? {opcode : Opcode} {chained : Bool} {bytes rest : Bytes} {i : Instruction}
    (hf : opcode ≠ .fused) (hc : opcode.category ≠ .compute) (ho : opcode.category ≠ .output)
    (h : body? opcode chained bytes = some (i, rest)) :
    i.opcode = opcode ∧ i.Fits chained ∧ bytes = i.encodeBody ++ rest := by
  cases opcode with
  | compute f => exact absurd rfl hc
  | output e => exact absurd rfl ho
  | fused => exact absurd rfl hf
  | input e a =>
    simp only [body?, Option.bind_eq_bind, Option.bind_eq_some_iff, Prod.exists, Bytes.word?_eq_some_iff,
      dests?_eq_some_iff] at h
    obtain ⟨d, _, rfl, f, _, rfl, ds, _, ⟨hl, hacc, rfl⟩, h⟩ := h
    cases h
    obtain ⟨r, rfl⟩ := dests_one.mp ⟨hl, hacc⟩
    refine ⟨rfl, ⟨⟨⟨d, f, rfl⟩, rfl, r, rfl⟩, by simp⟩, ?_⟩
    simp [encodeBody, address, datasetField?, firstDestWord, destWords]
  | acquireIndex =>
    simp only [body?, Option.bind_eq_bind, Option.bind_eq_some_iff, Prod.exists, Bytes.byte?_eq_some_iff] at h
    obtain ⟨k, _, rfl, h⟩ := h
    split at h
    · simp at h
    · rename_i hk
      simp only [Option.bind_eq_some_iff, Prod.exists, Bytes.word?_eq_some_iff, sources?_eq_some_iff,
        dests?_eq_some_iff] at h
      obtain ⟨d, _, rfl, ss, mid, ⟨hs, hacc, hw⟩, ds, _, ⟨hl, hdacc, rfl⟩, h⟩ := h
      cases h
      obtain ⟨s, more, rfl, hkind, hm⟩ := List.map_eq_cons_iff.mp hs
      obtain rfl := List.map_eq_nil_iff.mp hm
      obtain ⟨r, rfl⟩ := dests_one.mp ⟨hl, hdacc⟩
      have hkinds : k = kinds [s] none := (eq_kinds_one k s).mpr ⟨by omega, hkind.symm⟩
      have hplain : s ≠ .acc := by
        intro e
        cases hacc (by simp [e])
      have hmid := (opens_source hplain).mp (by simpa [sourceWords] using hw)
      refine ⟨rfl, ⟨⟨⟨d, rfl⟩, rfl, r, rfl⟩, fun m => absurd (hacc (by simpa using m)) (by simp)⟩, ?_⟩
      simp [encodeBody, address, datasetField?, firstDestWord, hkinds, hmid, destWords]
  | updateId =>
    simp only [body?, Option.bind_eq_bind, Option.bind_eq_some_iff, Prod.exists, Bytes.word?_eq_some_iff,
      sources?_eq_some_iff] at h
    obtain ⟨d, _, rfl, ss, _, ⟨hs, -, hw⟩, h⟩ := h
    cases h
    obtain ⟨a, s, rfl, hkind⟩ := sources_of_kinds hs
    obtain ⟨b, rfl⟩ := kind_eq_zero.mp hkind
    have hw : _ = sourceWords [.reg a, .reg b] ++ rest := Bytes.opens_zeros.mp hw
    refine ⟨rfl, ⟨⟨⟨d, rfl⟩, ⟨a, b, rfl⟩, rfl⟩, by simp⟩, ?_⟩
    rw [hw]
    simp [encodeBody, address, datasetField?]
  | acquireId =>
    simp only [body?, Option.bind_eq_bind, Option.bind_eq_some_iff, Prod.exists, Bytes.word?_eq_some_iff, dests?] at h
    obtain ⟨d, _, rfl, ds, _, ⟨a, _, rfl, _, _, ⟨b, _, rfl, _, _, h1, h2⟩, h3⟩, h⟩ := h
    cases h1; cases h2; cases h3; cases h
    refine ⟨rfl, ⟨⟨⟨d, rfl⟩, rfl, a, b, rfl⟩, by simp⟩, ?_⟩
    simp [encodeBody, address, datasetField?, destWords, Dest.index]
  | call =>
    simp only [body?, Option.bind_eq_bind, Option.bind_eq_some_iff, Prod.exists, Bytes.word?_eq_some_iff,
      Bytes.byte?_eq_some_iff, callSources?_eq_some_iff, dests?_eq_some_iff] at h
    obtain ⟨f, _, rfl, n, _, rfl, k, _, rfl, ss, _, ⟨hs, hsacc, rfl⟩, ds, _, ⟨hd, hdacc, rfl⟩, h⟩ := h
    cases h
    have hn := n.toNat_lt
    have hk := k.toNat_lt
    refine ⟨rfl, ⟨⟨⟨f, rfl⟩, ?_, ?_, hdacc⟩, fun m => (m.elim hsacc hdacc).elim⟩, ?_⟩
    · show ss.length ≤ 255; omega
    · show ds.length ≤ 255; omega
    · simp [encodeBody, function, hs, hd, callWords]
  | enterScope =>
    simp only [body?, Option.bind_eq_bind, Option.bind_eq_some_iff, Prod.exists, Bytes.word?_eq_some_iff] at h
    obtain ⟨id, _, rfl, h⟩ := h
    cases h
    exact ⟨rfl, ⟨⟨⟨id, rfl⟩, rfl, rfl⟩, by simp⟩, rfl⟩
  | execIndex =>
    simp only [body?, Option.bind_eq_bind, Option.bind_eq_some_iff, Prod.exists, dests?_eq_some_iff] at h
    obtain ⟨ds, _, ⟨hl, hacc, rfl⟩, h⟩ := h
    cases h
    obtain ⟨r, rfl⟩ := dests_one.mp ⟨hl, hacc⟩
    exact ⟨rfl, ⟨⟨rfl, rfl, r, rfl⟩, by simp⟩, rfl⟩
  | done | nop | exitScope =>
    cases h
    exact ⟨rfl, ⟨⟨rfl, rfl, rfl⟩, by simp⟩, rfl⟩

/-- What fits is read back, whatever follows it. -/
theorem body?_encodeBody {chained : Bool} {i : Instruction} (h : i.Fits chained) (rest : Bytes) :
    body? i.opcode chained (i.encodeBody ++ rest) = some (i, rest) := by
  have opens := Bytes.opens_self (length_encodeBody i) rest
  have fits := h
  obtain ⟨shaped, acc⟩ := h
  obtain ⟨opcode, payload, ss, ds⟩ := i
  -- Only computations and outputs can have accumulator operands.
  have plain (hc : opcode.category ≠ .compute) (ho : opcode.category ≠ .output) : .acc ∉ ss :=
    fun m => (acc (.inl m)).2.elim hc ho
  cases opcode with
  | compute f => exact body?_compute_iff.mpr ⟨rfl, fits, opens⟩
  | output e => exact body?_output_iff.mpr ⟨rfl, fits, opens⟩
  | input e a =>
    obtain ⟨⟨d, f, rfl⟩, rfl, r, rfl⟩ := shaped
    simp [body?, encodeBody, address, datasetField?, firstDestWord, dests?, Dest.index]
  | acquireIndex =>
    obtain ⟨⟨d, rfl⟩, hl, r, rfl⟩ := shaped
    obtain ⟨s, rfl⟩ := List.length_eq_one_iff.mp hl
    have hs : s ≠ .acc := by
      intro e
      exact plain (by decide) (by decide) (by simp [e])
    obtain ⟨hlt, hk⟩ := (eq_kinds_one _ s).mp rfl
    have hw : sources? false [s.kind] (Bytes.word s.index ++ (Bytes.word r ++ rest)) = some ([s], Bytes.word r ++ rest) :=
      sources?_eq_some_iff.mpr ⟨rfl, fun m => absurd (List.mem_singleton.mp m).symm hs,
        by simpa [sourceWords] using (opens_source hs).mpr rfl⟩
    simp [body?, encodeBody, address, datasetField?, firstDestWord, Bytes.byte?, hk, Nat.not_le.mpr hlt, hw, dests?,
      Dest.index]
  | updateId =>
    obtain ⟨⟨d, rfl⟩, ⟨a, b, rfl⟩, rfl⟩ := shaped
    simp [body?, encodeBody, address, datasetField?, sources?, source?, sourceWords, Source.index, Source.ofParts?]
  | acquireId =>
    obtain ⟨⟨d, rfl⟩, rfl, a, b, rfl⟩ := shaped
    simp [body?, encodeBody, address, datasetField?, dests?, destWords, Dest.index]
  | call =>
    obtain ⟨⟨f, rfl⟩, hs, hd, hacc⟩ := shaped
    have hm := plain (by decide) (by decide)
    have es : (UInt8.ofNat ss.length).toNat = ss.length := by
      change ss.length ≤ 255 at hs
      simp only [UInt8.toNat_ofNat']; omega
    have ed : (UInt8.ofNat ds.length).toNat = ds.length := by
      change ds.length ≤ 255 at hd
      simp only [UInt8.toNat_ofNat']; omega
    have hsources := callSources?_eq_some_iff.mpr ⟨rfl, hm, (rfl : _ = callWords ss ++ (destWords ds ++ rest))⟩
    have hdests := dests?_eq_some_iff.mpr ⟨rfl, hacc, (rfl : _ = destWords ds ++ rest)⟩
    simp only [callWords] at hsources
    simp only [body?, encodeBody, function, List.append_assoc, Bytes.word?_word, Option.bind_eq_bind, Option.bind_some,
      List.cons_append, Bytes.byte?, es, ed, hsources, hdests]
  | enterScope =>
    obtain ⟨⟨id, rfl⟩, rfl, rfl⟩ := shaped
    simp [body?, encodeBody]
  | execIndex =>
    obtain ⟨rfl, rfl, r, rfl⟩ := shaped
    simp [body?, encodeBody, firstDestWord, dests?, Dest.index]
  | fused => exact shaped.elim
  | done | nop | exitScope =>
    obtain ⟨rfl, rfl, rfl⟩ := shaped
    rfl

/-- An instruction is read just from the bytes that spell it, and it fits its place. -/
theorem body?_eq_some_iff {opcode : Opcode} {chained : Bool} {bytes rest : Bytes} {i : Instruction}
    (hf : opcode ≠ .fused) : body? opcode chained bytes = some (i, rest) ↔
      i.opcode = opcode ∧ i.Fits chained ∧ Bytes.Opens i.looseBody i.encodeBody bytes rest := by
  by_cases hc : opcode.category = .compute
  · obtain ⟨f, rfl⟩ : ∃ f, opcode = .compute f := by cases opcode <;> simp_all [Opcode.category]
    exact body?_compute_iff
  by_cases ho : opcode.category = .output
  · obtain ⟨e, rfl⟩ : ∃ e, opcode = .output e := by cases opcode <;> simp_all [Opcode.category]
    exact body?_output_iff
  constructor
  · intro h
    obtain ⟨rfl, hfit, hb⟩ := eq_encodeBody_of_body? hf hc ho h
    exact ⟨rfl, hfit, (opens_exact hc ho).mpr hb⟩
  · intro h
    obtain ⟨rfl, hfit, hb⟩ := h
    rw [(opens_exact hc ho).mp hb]
    exact body?_encodeBody hfit rest

end Instruction

end LaneScript
