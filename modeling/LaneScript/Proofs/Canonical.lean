/-
  LaneScript.Proofs.Canonical — streams that are spelled in the one canonical way.

  Encodings leave every loose bit clear (`clear_encode`), so a stream whose loose bits
  are clear is the encoding of what is read from it (`eq_encode_of_clear`). A stream
  written from shaped items need not be readable, since an accumulator operand may stand
  where none is allowed. But where it can be read, reading finds the items that were
  written (`opens_item_unique`, `items_of_shaped`), so it too is the encoding of what is
  read (`eq_encode_of_shaped`).
-/
import LaneScript.Proofs.Stream

namespace LaneScript

/-! ## Clear bits -/

namespace Bytes

def Clear : (mask bytes : Bytes) → Prop
  | m :: mask, b :: bytes => b &&& m = 0 ∧ Clear mask bytes
  | _, _ => True

instance decidableClear : (mask bytes : Bytes) → Decidable (Clear mask bytes)
  | _ :: mask, _ :: bytes => @instDecidableAnd _ _ _ (decidableClear mask bytes)
  | [], _ | _ :: _, [] => .isTrue (by simp [Clear])

theorem clear_replicate_zero (n : Nat) (bytes : Bytes) : Clear (List.replicate n 0) bytes := by
  induction bytes generalizing n with
  | nil => cases n <;> simp [Clear, List.replicate_succ]
  | cons b bytes ih =>
    cases n with
    | zero => simp [Clear]
    | succ n => exact ⟨UInt8.and_zero, ih n⟩

theorem clear_append {mask mask' as bs : Bytes} (hl : as.length = mask.length) (h : Clear mask as) (h' : Clear mask' bs) :
    Clear (mask ++ mask') (as ++ bs) := by
  induction mask generalizing as with
  | nil =>
    obtain rfl := List.length_eq_zero_iff.mp hl
    exact h'
  | cons m mask ih =>
    cases as with
    | nil => cases hl
    | cons a as => exact ⟨h.1, ih (by simpa using hl) h.2⟩

theorem eq_of_or_eq {a b m : UInt8} (ha : a &&& m = 0) (hb : b &&& m = 0) (h : a ||| m = b ||| m) : a = b := by
  apply UInt8.eq_of_toBitVec_eq
  ext k hk
  have hak := congrArg (fun x : UInt8 => x.toBitVec[k]) ha
  have hbk := congrArg (fun x : UInt8 => x.toBitVec[k]) hb
  have hk := congrArg (fun x : UInt8 => x.toBitVec[k]) h
  simp only [UInt8.toBitVec_and, UInt8.toBitVec_or, BitVec.getElem_and, BitVec.getElem_or, UInt8.toBitVec_ofNat,
    BitVec.getElem_zero] at hak hbk hk
  cases hm : m.toBitVec[k] <;> simp_all

/-- Bytes that agree and are clear in the loose bits are the same. -/
theorem Agree.eq_of_clear {loose as bs : Bytes} (h : Agree loose as bs) (ha : Clear loose as) (hb : Clear loose bs) :
    as = bs := by
  induction loose generalizing as bs with
  | nil =>
    obtain ⟨h1, h2⟩ := h.length_eq
    rw [List.length_eq_zero_iff.mp h1, List.length_eq_zero_iff.mp h2]
  | cons m loose ih =>
    cases as with
    | nil => exact h.elim
    | cons a as =>
      cases bs with
      | nil => exact h.elim
      | cons b bs => rw [eq_of_or_eq ha.1 hb.1 h.1, ih h.2 ha.2 hb.2]

end Bytes

/-! ## Encodings are clear -/

namespace Instruction

theorem clear_sourceWords (ss : List Source) : Bytes.Clear (ss.flatMap Source.loose) (sourceWords ss) := by
  induction ss with
  | nil => trivial
  | cons s ss ih =>
    rw [sourceWords, List.flatMap_cons, List.flatMap_cons, ← sourceWords]
    cases s with
    | reg r => exact Bytes.clear_append rfl (Bytes.clear_replicate_zero 2 _) ih
    | const c => exact Bytes.clear_append rfl (Bytes.clear_replicate_zero 2 _) ih
    | acc => exact Bytes.clear_append rfl (by decide) ih

theorem clear_destWords (ds : List Dest) : Bytes.Clear (ds.flatMap Dest.loose) (destWords ds) := by
  induction ds with
  | nil => trivial
  | cons d ds ih =>
    rw [destWords, List.flatMap_cons, List.flatMap_cons, ← destWords]
    cases d with
    | reg r => exact Bytes.clear_append rfl (Bytes.clear_replicate_zero 2 _) ih
    | acc => exact Bytes.clear_append rfl (by decide) ih

theorem and_spareKinds {arity : Nat} (h : arity ≤ 3) {k : UInt8} (hk : ∀ pos < 3, arity ≤ pos → kindAt k pos = 0) :
    k &&& spareKinds arity = 0 := by
  have bytes : ∀ arity ≤ 3, ∀ n < 256, (∀ pos < 3, arity ≤ pos → kindAt (UInt8.ofNat n) pos = 0) →
      UInt8.ofNat n &&& spareKinds arity = 0 := by decide +kernel
  have := bytes arity h k.toNat k.toNat_lt
  rw [UInt8.ofNat_toNat] at this
  exact this hk

/-- The kinds of sources that are not there are written as zero. -/
theorem kinds_and_spareKinds {f : Compute} {ss : List Source} (h : ss.length = f.arity) (d : Option Dest) :
    kinds ss d &&& spareKinds f.arity = 0 := by
  apply and_spareKinds f.arity_le
  intro pos hpos hle
  rw [kindAt_kinds ss d hpos, List.getElem?_eq_none (by omega)]
  rfl

theorem clear_encodeBody {i : Instruction} (h : i.WellShaped) : Bytes.Clear i.looseBody i.encodeBody := by
  obtain ⟨opcode, payload, ss, ds⟩ := i
  unfold looseBody
  split
  · rename_i f e
    obtain rfl : opcode = .compute f := e
    obtain ⟨-, hl, -⟩ := h
    refine ⟨kinds_and_spareKinds hl _, ?_⟩
    exact Bytes.clear_append (length_loose_sources ss) (clear_sourceWords ss) (clear_destWords ds)
  · rename_i e he
    obtain rfl : opcode = .output e := he
    have hdataset : Bytes.Clear _ (Bytes.word (address ⟨.output e, payload, ss, ds⟩).1) := Bytes.clear_replicate_zero 2 _
    have hfield : Bytes.Clear _ (Bytes.word (address ⟨.output e, payload, ss, ds⟩).2) := Bytes.clear_replicate_zero 2 _
    have hfront := Bytes.clear_append (by rfl) hdataset (clear_sourceWords ss)
    have hl : (Bytes.word (address ⟨.output e, payload, ss, ds⟩).1 ++ sourceWords ss).length =
        ([0, 0] ++ ss.flatMap Source.loose).length := by
      rw [List.length_append, List.length_append, length_loose_sources]
      rfl
    exact ⟨UInt8.and_zero, Bytes.clear_append hl hfront hfield⟩
  · exact Bytes.clear_replicate_zero _ _

theorem clear_encode {i : Instruction} (h : i.WellShaped) : Bytes.Clear i.loose i.encode :=
  ⟨UInt8.and_zero, clear_encodeBody h⟩

end Instruction

namespace Stream

theorem clear_encode_all {is : List Instruction} (h : ∀ i ∈ is, i.WellShaped) :
    Bytes.Clear (is.flatMap Instruction.loose) (is.flatMap Instruction.encode) := by
  induction is with
  | nil => trivial
  | cons i is ih =>
    rw [List.flatMap_cons, List.flatMap_cons]
    exact Bytes.clear_append i.length_loose (Instruction.clear_encode (h i List.mem_cons_self))
      (ih fun j hj => h j (List.mem_cons_of_mem i hj))

theorem Item.WellFormed.shaped {item : Item} (h : item.WellFormed) : ∀ i ∈ item.instructions, i.WellShaped := by
  intro i hi
  obtain ⟨chained, hfits⟩ := h.fits hi
  exact hfits.shaped

theorem Item.clear_encode {item : Item} (h : item.WellFormed) : Bytes.Clear item.loose item.encode := by
  have hshaped := h.shaped
  cases item with
  | plain i => exact Instruction.clear_encode h.1.shaped
  | group is => exact ⟨UInt8.and_zero, UInt8.and_zero, clear_encode_all hshaped⟩

namespace Script

variable {s : Script} {code : Bytes}

/-- An encoding leaves the loose bits clear. -/
theorem clear_encode (h : ∀ item ∈ s.items, item.WellFormed) : Bytes.Clear s.loose s.encode := by
  obtain ⟨items, closed⟩ := s
  induction items with
  | nil => cases closed <;> exact (by decide)
  | cons item items ih =>
    simp only [loose, encode, Stream.encode, List.flatMap_cons, List.append_assoc] at ih ⊢
    exact Bytes.clear_append item.length_loose (Item.clear_encode (h item List.mem_cons_self))
      (ih fun x hx => h x (List.mem_cons_of_mem item hx))

/-- A stream with clear loose bits is the encoding of the script that it spells. -/
theorem eq_encode_of_clear (hw : ∀ item ∈ s.items, item.WellFormed) (h : Bytes.Agree s.loose s.encode code)
    (hc : Bytes.Clear s.loose code) : s.encode = code := h.eq_of_clear (clear_encode hw) hc

end Script

end Stream

/-! ## One reading -/

namespace Instruction

theorem Fits.unchained {i : Instruction} (h : i.Fits false) : i.Fits true :=
  ⟨h.shaped, fun m => ⟨rfl, (h.acc m).2⟩⟩

theorem word_append_inj {v w : UInt16} {rest rest' : Bytes} (h : Bytes.word v ++ rest = Bytes.word w ++ rest') :
    v = w ∧ rest = rest' := by
  have hw := congrArg Bytes.word? h
  rw [Bytes.word?_word, Bytes.word?_word] at hw
  cases hw
  exact ⟨rfl, rfl⟩

theorem eq_of_kind_index {s t : Source} (hk : s.kind = t.kind) (hi : s.index = t.index) : s = t := by
  have h := Source.ofParts?_kind_index s
  rw [hk, hi, Source.ofParts?_kind_index] at h
  exact (Option.some.inj h).symm

theorem callWords_inj {ss ts : List Source} {rest rest' : Bytes} (hl : ss.length = ts.length)
    (h : callWords ss ++ rest = callWords ts ++ rest') : ss = ts ∧ rest = rest' := by
  induction ss generalizing ts with
  | nil =>
    obtain rfl := List.length_eq_zero_iff.mp hl.symm
    exact ⟨rfl, h⟩
  | cons s ss ih =>
    cases ts with
    | nil => cases hl
    | cons t ts =>
      simp only [callWords, List.flatMap_cons, List.cons_append, List.append_assoc, List.cons.injEq] at h
      obtain ⟨hk, h⟩ := h
      obtain ⟨hi, h⟩ := word_append_inj h
      have hk : s.kind = t.kind := by rw [← toNat_kind s, hk, toNat_kind]
      obtain ⟨hss, hrest⟩ := ih (Nat.succ.inj hl) h
      exact ⟨by rw [eq_of_kind_index hk hi, hss], hrest⟩

theorem destWords_inj {ds es : List Dest} {rest rest' : Bytes} (hl : ds.length = es.length) (hd : .acc ∉ ds)
    (he : .acc ∉ es) (h : destWords ds ++ rest = destWords es ++ rest') : ds = es ∧ rest = rest' := by
  have hds := dests?_eq_some_iff.mpr ⟨rfl, hd, (rfl : _ = destWords ds ++ rest)⟩
  have hes := dests?_eq_some_iff.mpr ⟨rfl, he, (rfl : _ = destWords es ++ rest')⟩
  rw [h, hl, hes] at hds
  cases hds
  exact ⟨rfl, rfl⟩

theorem opcode_ne_fused {i : Instruction} (h : i.WellShaped) : i.opcode ≠ .fused := by
  intro e
  simp [WellShaped, e] at h

/-- A computation or an output is read back where accumulators are allowed, and what is read elsewhere is read there. -/
theorem body?_unique_of_chainable {i j : Instruction} {chained : Bool} {rest rest' : Bytes} (h : i.WellShaped)
    (hc : i.category = .compute ∨ i.category = .output)
    (hr : body? i.opcode chained (i.encodeBody ++ rest) = some (j, rest')) : j = i ∧ rest' = rest := by
  have ht : body? i.opcode true (i.encodeBody ++ rest) = some (j, rest') := by
    cases chained with
    | true => exact hr
    | false =>
      obtain ⟨ho, hf, hopens⟩ := (body?_eq_some_iff (opcode_ne_fused h)).mp hr
      exact (body?_eq_some_iff (opcode_ne_fused h)).mpr ⟨ho, hf.unchained, hopens⟩
  rw [body?_encodeBody ⟨h, fun _ => ⟨rfl, hc⟩⟩] at ht
  cases ht
  exact ⟨rfl, rfl⟩

theorem body?_unique_of_acquireIndex {i j : Instruction} {chained : Bool} {rest rest' : Bytes} (h : i.WellShaped)
    (ho : i.opcode = .acquireIndex) (hr : body? i.opcode chained (i.encodeBody ++ rest) = some (j, rest')) :
    j = i ∧ rest' = rest := by
  obtain ⟨hj, hfits, hbytes⟩ := eq_encodeBody_of_body? (by simp [ho]) (by simp [ho, Opcode.category])
    (by simp [ho, Opcode.category]) hr
  have hshaped := hfits.shaped
  obtain ⟨opcode, payload, ss, ds⟩ := i
  obtain ⟨opcode', payload', ts, es⟩ := j
  obtain rfl : opcode = .acquireIndex := ho
  obtain rfl : opcode' = .acquireIndex := hj
  obtain ⟨⟨d, rfl⟩, hl, r, rfl⟩ := h
  obtain ⟨⟨d', rfl⟩, hl', r', rfl⟩ := hshaped
  obtain ⟨s, rfl⟩ := List.length_eq_one_iff.mp hl
  obtain ⟨t, rfl⟩ := List.length_eq_one_iff.mp hl'
  simp only [encodeBody, address, datasetField?, Option.getD_some, firstDestWord, List.head?_cons, Option.map_some,
    List.cons_append, List.append_assoc, List.cons.injEq] at hbytes
  obtain ⟨hkinds, hbytes⟩ := hbytes
  obtain ⟨hdataset, hbytes⟩ := word_append_inj hbytes
  obtain ⟨hindex, hbytes⟩ := word_append_inj hbytes
  obtain ⟨hdest, hrest⟩ := word_append_inj hbytes
  have hk : s.kind = t.kind := by
    have hs := kindAt_kinds [s] none (show 0 < 3 by decide)
    have ht := kindAt_kinds [t] none (show 0 < 3 by decide)
    rw [hkinds, ht] at hs
    exact hs.symm
  have hdest : r = r' := hdest
  rw [hdataset, eq_of_kind_index hk hindex, hdest, hrest]
  exact ⟨rfl, rfl⟩

theorem eq_of_ofNat_eq {m n : Nat} (hm : m ≤ 255) (hn : n ≤ 255) (h : UInt8.ofNat m = UInt8.ofNat n) : m = n := by
  have := congrArg UInt8.toNat h
  simp only [UInt8.toNat_ofNat'] at this
  omega

theorem body?_unique_of_call {i j : Instruction} {chained : Bool} {rest rest' : Bytes} (h : i.WellShaped)
    (ho : i.opcode = .call) (hr : body? i.opcode chained (i.encodeBody ++ rest) = some (j, rest')) :
    j = i ∧ rest' = rest := by
  obtain ⟨hj, hfits, hbytes⟩ := eq_encodeBody_of_body? (by simp [ho]) (by simp [ho, Opcode.category])
    (by simp [ho, Opcode.category]) hr
  have hshaped := hfits.shaped
  obtain ⟨opcode, payload, ss, ds⟩ := i
  obtain ⟨opcode', payload', ts, es⟩ := j
  obtain rfl : opcode = .call := ho
  obtain rfl : opcode' = .call := hj
  obtain ⟨⟨f, rfl⟩, hs, hd, hacc⟩ := h
  obtain ⟨⟨f', rfl⟩, hs', hd', hacc'⟩ := hshaped
  simp only [encodeBody, function, List.cons_append, List.append_assoc] at hbytes
  obtain ⟨hfunction, hbytes⟩ := word_append_inj hbytes
  simp only [List.cons.injEq] at hbytes
  obtain ⟨hss, hds, hbytes⟩ := hbytes
  obtain ⟨hsources, hbytes⟩ := callWords_inj (eq_of_ofNat_eq hs hs' hss) hbytes
  obtain ⟨hdests, hrest⟩ := destWords_inj (eq_of_ofNat_eq hd hd' hds) hacc hacc' hbytes
  have hsources : ss = ts := hsources
  have hdests : ds = es := hdests
  rw [hfunction, hsources, hdests, hrest]
  exact ⟨rfl, rfl⟩

/-- Bytes written for a well-shaped instruction are read as that instruction or not at all. -/
theorem body?_unique {i j : Instruction} {chained : Bool} {rest rest' : Bytes} (h : i.WellShaped)
    (hr : body? i.opcode chained (i.encodeBody ++ rest) = some (j, rest')) : j = i ∧ rest' = rest := by
  -- Without accumulator operands the instruction fits any place, so it is read back.
  have fitting (hacc : ¬(.acc ∈ i.sources ∨ .acc ∈ i.dests)) : j = i ∧ rest' = rest := by
    rw [body?_encodeBody ⟨h, fun m => absurd m hacc⟩] at hr
    cases hr
    exact ⟨rfl, rfl⟩
  obtain ⟨opcode, payload, ss, ds⟩ := i
  cases opcode with
  | compute f => exact body?_unique_of_chainable h (.inl rfl) hr
  | output e => exact body?_unique_of_chainable h (.inr rfl) hr
  | acquireIndex => exact body?_unique_of_acquireIndex h rfl hr
  | call => exact body?_unique_of_call h rfl hr
  | input e a =>
    obtain ⟨-, rfl, r, rfl⟩ := h
    exact fitting (by simp)
  | updateId =>
    obtain ⟨-, ⟨a, b, rfl⟩, rfl⟩ := h
    exact fitting (by simp)
  | acquireId =>
    obtain ⟨-, rfl, a, b, rfl⟩ := h
    exact fitting (by simp)
  | enterScope =>
    obtain ⟨-, rfl, rfl⟩ := h
    exact fitting (by simp)
  | execIndex =>
    obtain ⟨-, rfl, r, rfl⟩ := h
    exact fitting (by simp)
  | fused => exact h.elim
  | done | nop | exitScope =>
    obtain ⟨-, rfl, rfl⟩ := h
    exact fitting (by simp)

theorem opcode_eq_of_byte_eq {o o' : Opcode} (h : o.byte = o'.byte) : o = o' := by
  have e := Opcode.ofByte?_byte o
  rw [h, Opcode.ofByte?_byte] at e
  exact (Option.some.inj e).symm

theorem opens_unique {i j : Instruction} {chained : Bool} {rest rest' : Bytes} (h : i.WellShaped) (hj : j.Fits chained)
    (ho : Bytes.Opens j.loose j.encode (i.encode ++ rest) rest') : j = i ∧ rest' = rest := by
  obtain ⟨tail, htail, hbody⟩ := Bytes.opens_cons_zero.mp ho
  obtain ⟨hbyte, rfl⟩ := List.cons.inj htail
  have hop : j.opcode = i.opcode := (opcode_eq_of_byte_eq hbyte).symm
  exact body?_unique h ((body?_eq_some_iff (opcode_ne_fused h)).mpr ⟨hop, hj, hbody⟩)

def done : Instruction := ⟨.done, .none, [], []⟩

end Instruction

namespace Stream

/-- What source text can spell: instructions of the right shape, and no group with more than 255 steps. -/
def Item.Shaped : Item → Prop
  | .plain i => i.WellShaped
  | .group is => is.length ≤ 255 ∧ ∀ i ∈ is, i.WellShaped

theorem Item.WellFormed.toShaped {item : Item} (h : item.WellFormed) : item.Shaped := by
  have hshaped := h.shaped
  cases item with
  | plain i => exact h.1.shaped
  | group is => exact ⟨h.2.1, hshaped⟩

theorem opens_steps_unique {is js : List Instruction} {rest rest' : Bytes} (hl : js.length = is.length)
    (hi : ∀ i ∈ is, i.WellShaped) (hj : ∀ j ∈ js, IsStep j)
    (h : Bytes.Opens (js.flatMap Instruction.loose) (js.flatMap Instruction.encode)
      (is.flatMap Instruction.encode ++ rest) rest') : js = is ∧ rest' = rest := by
  induction js generalizing is with
  | nil =>
    obtain rfl := List.length_eq_zero_iff.mp hl.symm
    exact ⟨rfl, (Bytes.opens_nil.mp h).symm⟩
  | cons j js ih =>
    cases is with
    | nil => cases hl
    | cons i is =>
      obtain ⟨mid, hfirst, hmore⟩ := (Bytes.opens_append (Instruction.length_loose j)).mp h
      rw [List.flatMap_cons, List.append_assoc] at hfirst
      obtain ⟨rfl, rfl⟩ := Instruction.opens_unique (hi i List.mem_cons_self) (hj j List.mem_cons_self).1 hfirst
      obtain ⟨rfl, hrest⟩ := ih (Nat.succ.inj hl) (fun x hx => hi x (List.mem_cons_of_mem _ hx))
        (fun x hx => hj x (List.mem_cons_of_mem _ hx)) hmore
      exact ⟨rfl, hrest⟩

/-- Bytes written for a shaped item are read as that item, if they are read as an item at all. -/
theorem opens_item_unique {item x : Item} {rest rest' : Bytes} (h : item.Shaped) (hx : x.WellFormed)
    (ho : Bytes.Opens x.loose x.encode (item.encode ++ rest) rest') : x = item ∧ rest' = rest := by
  cases item with
  | plain i =>
    cases x with
    | plain j =>
      obtain ⟨rfl, hrest⟩ := Instruction.opens_unique h hx.1 ho
      exact ⟨rfl, hrest⟩
    | group js =>
      obtain ⟨tail, htail, -⟩ := Bytes.opens_cons_zero.mp ho
      have hop : i.opcode = .fused := Instruction.opcode_eq_of_byte_eq (List.cons.inj htail).1
      exact absurd hop (Instruction.opcode_ne_fused h)
  | group is =>
    cases x with
    | plain j =>
      obtain ⟨tail, htail, -⟩ := Bytes.opens_cons_zero.mp ho
      have hop : Opcode.fused = j.opcode := Instruction.opcode_eq_of_byte_eq (List.cons.inj htail).1
      exact absurd hop.symm (Instruction.opcode_ne_fused hx.1.shaped)
    | group js =>
      obtain ⟨tail, htail, ho⟩ := Bytes.opens_cons_zero.mp ho
      obtain ⟨tail', htail', ho⟩ := Bytes.opens_cons_zero.mp ho
      rw [htail'] at htail
      obtain ⟨-, htail⟩ := List.cons.inj htail
      obtain ⟨hcount, rfl⟩ := List.cons.inj htail
      obtain ⟨rfl, hrest⟩ := opens_steps_unique (Instruction.eq_of_ofNat_eq hx.2.1 h.1 hcount.symm) h.2 hx.2.2.1 ho
      exact ⟨rfl, hrest⟩

theorem encode_eq_nil {items : List Item} (h : encode items = []) : items = [] := by
  cases items with
  | nil => rfl
  | cons item items =>
    have hpos := item.encode_length_pos
    rw [encode, List.flatMap_cons, List.append_eq_nil_iff] at h
    rw [h.1] at hpos
    cases hpos

namespace Script

def closing (s : Script) : List Item := if s.closed then [.plain .done] else []

theorem encode_closing (s : Script) : Stream.encode (s.items ++ s.closing) = s.encode := by
  obtain ⟨items, closed⟩ := s
  rw [encode, Stream.encode, List.flatMap_append]
  cases closed <;> rfl

theorem eq_closing_of_shaped {items : List Item} (hi : ∀ item ∈ items, item.Shaped)
    (h : Stream.encode items = [Opcode.done.byte]) : items = [.plain .done] := by
  cases items with
  | nil => cases h
  | cons item items =>
    have hshaped := hi item List.mem_cons_self
    cases item with
    | group is => cases (List.cons.inj h).1
    | plain i =>
      obtain ⟨hbyte, hrest⟩ := List.cons.inj h
      have hmore : items = [] := encode_eq_nil (List.append_eq_nil_iff.mp hrest).2
      obtain ⟨opcode, payload, ss, ds⟩ := i
      obtain rfl : opcode = .done := Instruction.opcode_eq_of_byte_eq hbyte
      obtain ⟨rfl, rfl, rfl⟩ := hshaped
      rw [hmore, Instruction.done]

/-- Shaped items are those of whatever well-formed script their encoding spells, and its `done`. -/
theorem items_of_shaped {s : Script} {items : List Item} (hs : ∀ item ∈ s.items, item.WellFormed)
    (hi : ∀ item ∈ items, item.Shaped) (h : Bytes.Agree s.loose s.encode (Stream.encode items)) :
    items = s.items ++ s.closing := by
  obtain ⟨xs, closed⟩ := s
  induction xs generalizing items with
  | nil =>
    cases closed with
    | false => exact encode_eq_nil (Bytes.agree_nil.mp h)
    | true =>
      apply eq_closing_of_shaped hi
      exact Bytes.agree_zeros.mp (show Bytes.Agree (List.replicate [Opcode.done.byte].length 0) _ _ from h)
  | cons x xs ih =>
    obtain ⟨rest, ho, hrest⟩ := agree_cons_iff.mp h
    cases items with
    | nil =>
      obtain ⟨front, hf, e⟩ := ho
      have hpos := x.encode_length_pos
      have hlen := hf.length_eq
      have := congrArg List.length e
      simp only [Stream.encode, List.flatMap_nil, List.length_nil, List.length_append] at this
      omega
    | cons item items =>
      rw [Stream.encode, List.flatMap_cons] at ho
      obtain ⟨rfl, rfl⟩ := opens_item_unique (hi item List.mem_cons_self) (hs x List.mem_cons_self) ho
      exact congrArg (x :: ·)
        (ih (fun y hy => hi y (List.mem_cons_of_mem x hy)) (fun y hy => hs y (List.mem_cons_of_mem x hy)) hrest)

/-- A stream that is written from shaped items is the encoding of whatever well-formed script it spells. -/
theorem eq_encode_of_shaped {s : Script} {items : List Item} (hs : ∀ item ∈ s.items, item.WellFormed)
    (hi : ∀ item ∈ items, item.Shaped) (h : Bytes.Agree s.loose s.encode (Stream.encode items)) :
    s.encode = Stream.encode items := by
  rw [items_of_shaped hs hi h, encode_closing]

end Script

end Stream

end LaneScript
