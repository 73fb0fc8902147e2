/-
  LaneScript.Proofs.Binding — a host's table is checked against the stream that was compiled.

  A host fills its table by binding and unbinding, in any order and as often as it likes;
  what a slot holds in the end is what the last change to it left (`find?_filled`). A
  published table serves an instruction that calls nothing, and a call whose function is
  bound with the operand counts of the call.

  Compiling neither drops, adds nor reshapes a call, and the packed image keeps the size of
  the table that the stream was read with. Proved (`compile_bindings`): the check of a
  loaded image passes just if every call of the source stream is provided for, else it
  reports the external function; and once it passed, calling what the image calls, with
  lanes of one width, runs the callable and adds no error of its own.
-/
import LaneScript.Binding
import LaneScript.Proofs.LoadCompiled

namespace LaneScript

/-! ## Changes of a table -/

namespace Registry

inductive Change where
  | bind (function : UInt16) (b : Binding)
  | unbind (function : UInt16)

def Change.function : Change → UInt16
  | .bind f _ => f
  | .unbind f => f

def Change.binding? : Change → Option Binding
  | .bind _ b => some b
  | .unbind _ => none

def change (r : Registry) : Change → Registry
  | .bind f b => r.bind f b
  | .unbind f => r.unbind f

def filled (changes : List Change) : Registry := changes.foldl change {}

def lastChange? (changes : List Change) (f : UInt16) : Option Change := changes.reverse.find? (·.function == f)

variable {r : Registry} {f g : UInt16}

theorem find?_bind (r : Registry) (b : Binding) : (r.bind f b).find? g = if f = g then some b else r.find? g := by
  have hlt : f.toNat < (r.slots ++ Array.replicate (f.toNat + 1 - r.slots.size) none).size := by
    rw [Array.size_append, Array.size_replicate]
    omega
  rw [find?, find?, bind, Array.getD_eq_getD_getElem?, Array.getD_eq_getD_getElem?]
  by_cases h : f = g
  · rw [if_pos h, ← h, Array.getElem?_setIfInBounds_self_of_lt hlt]
    rfl
  · rw [if_neg h, Array.getElem?_setIfInBounds_ne fun e => h (UInt16.toNat_inj.mp e), Array.getElem?_append]
    split
    · rfl
    · -- Slots that were added are as empty as slots that are not there.
      rename_i hge
      rw [Array.getElem?_replicate, Array.getElem?_eq_none (Nat.le_of_not_lt hge)]
      split <;> rfl

theorem find?_unbind (r : Registry) : (r.unbind f).find? g = if f = g then none else r.find? g := by
  rw [find?, find?, unbind, Array.getD_eq_getD_getElem?, Array.getD_eq_getD_getElem?, Array.getElem?_setIfInBounds]
  by_cases h : f = g
  · subst h
    simp only [if_true]
    split <;> rfl
  · rw [if_neg fun e => h (UInt16.toNat_inj.mp e), if_neg h]

theorem find?_change (r : Registry) (c : Change) :
    (r.change c).find? g = if c.function = g then c.binding? else r.find? g := by
  cases c with
  | bind f b => exact find?_bind r b
  | unbind f => exact find?_unbind r

/-- A slot holds what the last change to it left. -/
theorem find?_filled (changes : List Change) (f : UInt16) :
    (filled changes).find? f = (lastChange? changes f).bind Change.binding? := by
  induction changes using List.reverseRecOn with
  | nil => simp [filled, lastChange?, find?]
  | append_singleton changes c ih =>
    rw [filled, List.foldl_append, List.foldl_cons, List.foldl_nil, ← filled, find?_change, lastChange?,
      List.reverse_append, List.reverse_singleton, List.singleton_append, List.find?_cons]
    by_cases h : c.function = f
    · simp [h]
    · simp only [h, if_false, beq_eq_false_iff_ne.mpr h]
      exact ih

/-- A slot is bound just if the last change to it was a binding. -/
theorem find?_filled_eq_some_iff {changes : List Change} {b : Binding} :
    (filled changes).find? f = some b ↔ lastChange? changes f = some (.bind f b) := by
  rw [find?_filled]
  cases hc : lastChange? changes f with
  | none => simp
  | some c =>
    have hf := List.find?_some hc
    rw [beq_iff_eq] at hf
    cases c with
    | bind g b' =>
      have hf : g = f := hf
      simp [Change.binding?, hf]
    | unbind g => simp [Change.binding?]

end Registry

/-! ## Calls -/

/-- With as many lanes as it was bound for, all of one width, a callable is run. -/
theorem Binding.invoke_eq {b : Binding} {sources dests : List Lane} {width : Nat}
    (hs : sources.length = b.sources.toNat) (hd : dests.length = b.dests.toNat)
    (hw : ∀ lane ∈ sources ++ dests, lane.length = width) :
    b.invoke sources dests = b.run sources dests := by
  rw [invoke, if_neg (not_not.mpr hs), if_neg (not_not.mpr hd)]
  have hall : ∀ w ∈ (sources ++ dests).map List.length, w = width := by
    intro w hmem
    obtain ⟨lane, hlane, rfl⟩ := List.mem_map.mp hmem
    exact hw lane hlane
  cases hl : (sources ++ dests).map List.length with
  | nil => rfl
  | cons first rest =>
    rw [hl] at hall
    have hnone : rest.find? (· ≠ first) = none := by
      refine List.find?_eq_none.mpr fun w hmem => ?_
      rw [hall w (List.mem_cons_of_mem _ hmem), hall first List.mem_cons_self]
      simp
    simp only [hnone]

/-- A call finds its function bound, with as many sources and destinations as the call has. -/
def Provided (changes : List Registry.Change) (i : Instruction) : Prop :=
  ∀ f, i.payload = .call f → ∃ b, Registry.lastChange? changes f = some (.bind f b) ∧
    b.sources.toNat = i.sources.length ∧ b.dests.toNat = i.dests.length

theorem Published.serves_iff {changes : List Registry.Change} {i : Instruction} :
    (⟨Registry.filled changes⟩ : Published).serves i = true ↔ Provided changes i := by
  unfold serves Provided
  cases i.payload with
  | call f =>
    simp only [Payload.call.injEq, forall_eq', ← Registry.find?_filled_eq_some_iff]
    cases (Registry.filled changes).find? f with
    | none => simp
    | some b => simp
  | none => simp
  | field d f => simp
  | scope id => simp

theorem provided_iff {changes : List Registry.Change} {i : Instruction} :
    Provided changes i ↔ ∀ c, i.call? = some c → ∃ b, Registry.lastChange? changes c.1 = some (.bind c.1 b) ∧
      b.sources.toNat = c.2.sources ∧ b.dests.toNat = c.2.dests := by
  unfold Provided Instruction.call?
  cases i.payload <;> simp

/-- Instructions that make the same calls are provided for together. -/
theorem forall_provided_iff {changes : List Registry.Change} {is js : List Instruction}
    (h : is.filterMap Instruction.call? = js.filterMap Instruction.call?) :
    (∀ i ∈ is, Provided changes i) ↔ ∀ j ∈ js, Provided changes j := by
  have calls (ks : List Instruction) : (∀ k ∈ ks, Provided changes k) ↔ ∀ c ∈ ks.filterMap Instruction.call?,
      ∃ b, Registry.lastChange? changes c.1 = some (.bind c.1 b) ∧
        b.sources.toNat = c.2.sources ∧ b.dests.toNat = c.2.dests := by
    rw [List.forall_mem_filterMap]
    exact forall₂_congr fun k _ => provided_iff
  rw [calls is, calls js, h]

/-! ## The check of a loaded image -/

/-- What a host learns of its table from an image, where `source` was compiled and `stream` is what the image holds. -/
structure Bound (changes : List Registry.Change) (source stream : Stream.Decoded) (m : Loaded) : Prop where
  accepted : (⟨Registry.filled changes⟩ : Published).check m = .ok () ↔ ∀ i ∈ source.instructions, Provided changes i
  refused : (⟨Registry.filled changes⟩ : Published).check m ≠ .ok () →
    (⟨Registry.filled changes⟩ : Published).check m = .error (.fatal .externalFunction)
  /-- After the check, a call of the image does what the callable does. -/
  called : (⟨Registry.filled changes⟩ : Published).check m = .ok () →
    ∀ i ∈ stream.instructions, ∀ f, i.payload = .call f →
      ∃ b, Registry.lastChange? changes f = some (.bind f b) ∧ ∀ (sources dests : List Lane) (width : Nat),
        sources.length = i.sources.length → dests.length = i.dests.length →
          (∀ lane ∈ sources ++ dests, lane.length = width) →
            (⟨Registry.filled changes⟩ : Published).call f sources dests = b.run sources dests

/-- The check looks at the calls that the image holds. -/
theorem Published.check_eq {t : Published} {m : Loaded} {d : Stream.Decoded}
    (hd : Stream.decode m.code m.header.functions.toNat = .ok d) :
    t.check m = if d.instructions.all t.serves then .ok () else .error (.fatal .externalFunction) := by
  rw [check, hd]
  rfl

theorem bound_of_calls {changes : List Registry.Change} {source stream : Stream.Decoded} {m : Loaded}
    (hd : Stream.decode m.code m.header.functions.toNat = .ok stream)
    (hcalls : stream.instructions.filterMap Instruction.call? = source.instructions.filterMap Instruction.call?) :
    Bound changes source stream m := by
  have hserves : stream.instructions.all (⟨Registry.filled changes⟩ : Published).serves = true ↔
      ∀ i ∈ stream.instructions, Provided changes i := by
    rw [List.all_eq_true]
    exact forall₂_congr fun i _ => Published.serves_iff
  have hok : (⟨Registry.filled changes⟩ : Published).check m = .ok () ↔
      ∀ i ∈ stream.instructions, Provided changes i := by
    rw [← hserves, Published.check_eq hd]
    split <;> simp_all
  refine ⟨hok.trans (forall_provided_iff hcalls), fun hne => ?_, fun h i hi f hf => ?_⟩
  · rw [Published.check_eq hd] at hne ⊢
    split at hne
    · exact absurd rfl hne
    · rw [if_neg ‹_›]
  · obtain ⟨b, hb, hs, hd⟩ := hok.mp h i hi f hf
    refine ⟨b, hb, fun sources dests width hsources hdests hwidth => ?_⟩
    rw [Published.call, Registry.find?_filled_eq_some_iff.mpr hb]
    exact Binding.invoke_eq (hsources.trans hs.symm) (hdests.trans hd.symm) hwidth

namespace Compile

/-- The table of an image has a row for each function of the host. -/
theorem length_functions {settings : Settings} {d : Stream.Decoded} {o : Optimized} {c : Compiled} {e : Emission}
    {functions : Nat} (ho : Optimum settings d o) (hw : Written settings o c e)
    (hcalls : Stream.CallTable.visitAll (Array.replicate functions none) d.items = .ok d.calls) :
    c.image.functions.length = functions := by
  rw [Stream.visitAll_eq_recordAll _ ho.items] at hcalls
  have hsize := (Stream.CallTable.recordAll_ok hcalls).1
  rw [Array.size_replicate] at hsize
  rw [hw.image, ← hsize, ← ho.calls]
  exact (List.length_map _).trans Array.length_toList

/-- Whatever a host did to its table, the check of a packed and loaded compile says whether the table provides for every
    call of the stream that was compiled. -/
theorem compile_bindings {code : Bytes} {functions : UInt32} {settings : Settings} {c : Compiled}
    (h : compile code functions settings = .ok c) (hp : c.image.isPackable = true) (changes : List Registry.Change) :
    ∃ source m stream, Stream.decode code functions.toNat = .ok source ∧ load c.image.pack = .ok m ∧
      Stream.decode m.code m.header.functions.toNat = .ok stream ∧ Bound changes source stream m := by
  obtain ⟨d, o, e, hd, ho, hw⟩ := compile_ok h
  obtain ⟨hn, -, hcalls⟩ := Stream.decode_ok hd
  have hc := checked_image hw ho hn hcalls
  have hpack := Image.isPackable_iff.mp hp
  obtain ⟨m, hm, himage⟩ := Image.load_pack hpack (wholeOffsets_image hw) hc
  -- The image is read with the number of functions that the stream was read with.
  have hcode : m.code = e.code := by
    show m.toImage.code = e.code
    rw [himage, hw.image]
    rfl
  have hcount : m.header.functions.toNat = functions.toNat := by
    show m.toImage.header.functions.toNat = functions.toNat
    rw [himage, ← hc.header, ← length_functions ho hw hcalls]
    exact UInt32.toNat_ofNat_of_lt' hpack.functions
  obtain ⟨doneAt, hstream⟩ := decode_emitted ho hw hn hcalls
  have hstream : Stream.decode m.code m.header.functions.toNat = .ok ⟨e.items, d.calls, doneAt⟩ := by
    rw [hcode, hcount]
    exact hstream
  exact ⟨d, m, _, hd, hm, hstream, bound_of_calls hstream (calls_eq ho hw)⟩

def sumAndProduct : Binding where
  name := "sum_and_product"
  sources := 3
  dests := 2
  run sources _ :=
    match sources with
    | [as, bs, cs] => .ok [List.zipWith (· + ·) as bs, List.zipWith (· * ·) (List.zipWith (· + ·) as bs) cs]
    | _ => .error (.runtime "three sources expected")

/-- Function 1 is bound, taken out and bound again, and function 0 taken out before anything was bound there. -/
def rebinding : List Registry.Change :=
  [.bind 1 { sumAndProduct with dests := 1 }, .unbind 1, .bind 1 sumAndProduct, .unbind 0]

theorem compile_bindings_call : ∃ c, compile callStream 2 {} = .ok c ∧ c.image.isPackable = true ∧
    ∃ source m stream, Stream.decode callStream 2 = .ok source ∧ load c.image.pack = .ok m ∧
      Stream.decode m.code m.header.functions.toNat = .ok stream ∧ Bound rebinding source stream m ∧
        (⟨Registry.filled rebinding⟩ : Published).check m = .ok () := by
  obtain ⟨c, hc, hp⟩ := exists_of_any_ok (p := fun c => c.image.isPackable)
    (by decide +kernel : (compile callStream 2 {}).toOption.any (fun c => c.image.isPackable) = true)
  obtain ⟨source, m, stream, hsource, hm, hstream, hbound⟩ := compile_bindings hc hp rebinding
  obtain ⟨d, hd, hserved⟩ := exists_ok_of_any (by decide +kernel : (Stream.decode callStream 2).toOption.any
    (fun d => d.instructions.all (⟨Registry.filled rebinding⟩ : Published).serves) = true)
  obtain rfl : source = d := Except.ok.inj (hsource.symm.trans hd)
  have hprovided : ∀ i ∈ source.instructions, Provided rebinding i := fun i hi =>
    Published.serves_iff.mp (List.all_eq_true.mp hserved i hi)
  exact ⟨c, hc, hp, source, m, stream, hsource, hm, hstream, hbound, hbound.accepted.mpr hprovided⟩

end Compile

end LaneScript
