/-
  LaneScript.Proofs.RegisterNames — an image does not depend on the names of registers.

  Renaming the registers of a stream by a permutation keeps its items well formed and as
  wide, and the calls they make. So the renamed stream is read just where the stream is,
  with the same fault if it is not (`decode_of_agree`), reads a register that nothing was
  stored in just where the stream does, and is an excerpt of the stream that leaves out
  nothing. Both compile to the same image, or to the same fault (`compile_register_names`).
-/
import LaneScript.Image.Pack
import LaneScript.Proofs.Excerpt
import LaneScript.Proofs.Format

namespace LaneScript

variable {σ : UInt16 → UInt16}

/-! ## Renaming items -/

namespace Instruction

variable {i : Instruction}

theorem width_rename : (i.rename σ).width = i.width := by
  simp only [width, rename, List.length_map]

theorem count_acc_sources_rename : (i.rename σ).sources.count .acc = i.sources.count .acc := by
  simp only [rename, List.count, List.countP_map]
  refine List.countP_congr fun s _ => ?_
  simp [Source.rename_eq_acc]

theorem storesAcc_rename : (i.rename σ).storesAcc = i.storesAcc := by
  rw [Bool.eq_iff_iff, storesAcc, storesAcc, List.contains_iff_mem, List.contains_iff_mem, mem_acc_dests_rename]

theorem wellShaped_rename (h : i.WellShaped) : (i.rename σ).WellShaped := by
  obtain ⟨o, q, ss, ds⟩ := i
  cases o <;> simp only [WellShaped, rename, List.length_map] at h ⊢
  case done | nop | exitScope | enterScope => simpa using h
  case execIndex | input =>
    obtain ⟨hq, hs, r, rfl⟩ := h
    exact ⟨hq, by simpa using hs, σ r, rfl⟩
  case compute => exact h
  case output =>
    obtain ⟨hq, ⟨r, s, rfl⟩, hd⟩ := h
    exact ⟨hq, ⟨σ r, s.rename σ, rfl⟩, by simpa using hd⟩
  case acquireIndex =>
    obtain ⟨hq, hs, r, rfl⟩ := h
    exact ⟨hq, hs, σ r, rfl⟩
  case updateId =>
    obtain ⟨hq, ⟨a, b, rfl⟩, hd⟩ := h
    exact ⟨hq, ⟨σ a, σ b, rfl⟩, by simpa using hd⟩
  case acquireId =>
    obtain ⟨hq, hs, a, b, rfl⟩ := h
    exact ⟨hq, by simpa using hs, σ a, σ b, rfl⟩
  case call =>
    obtain ⟨hq, hs, hd, ha⟩ := h
    exact ⟨hq, hs, hd, by simpa [Dest.rename_eq_acc] using ha⟩

theorem fits_rename {chained : Bool} (h : i.Fits chained) : (i.rename σ).Fits chained := by
  refine ⟨wellShaped_rename h.shaped, fun ha => ?_⟩
  rw [mem_acc_sources_rename, mem_acc_dests_rename] at ha
  exact h.acc ha

end Instruction

namespace Stream

def Item.rename (σ : UInt16 → UInt16) : Item → Item
  | .plain i => .plain (i.rename σ)
  | .group steps => .group (steps.map (Instruction.rename σ))

theorem Item.instructions_rename (item : Item) :
    (item.rename σ).instructions = item.instructions.map (Instruction.rename σ) := by
  cases item <;> rfl

theorem Item.width_rename (item : Item) : (item.rename σ).width = item.width := by
  cases item with
  | plain i => exact Instruction.width_rename
  | group is =>
    simp only [rename, width, List.map_map]
    congr 2
    exact List.map_congr_left fun i _ => Instruction.width_rename

theorem admits_rename (place : Place) (i : Instruction) : place.admits (i.rename σ) = place.admits i := by
  cases place <;> simp only [Place.admits, Instruction.count_acc_sources_rename, Instruction.storesAcc_rename]

theorem handOn_rename {pos : Nat} {is : List Instruction} (h : HandOn pos is) :
    HandOn pos (is.map (Instruction.rename σ)) := by
  induction is generalizing pos with
  | nil => trivial
  | cons i is ih =>
    refine ⟨?_, ih h.2⟩
    rw [admits_rename, List.length_map]
    exact h.1

theorem Item.wellFormed_rename {item : Item} (h : item.WellFormed) : (item.rename σ).WellFormed := by
  cases item with
  | plain i => exact ⟨Instruction.fits_rename h.1, h.2⟩
  | group is =>
    obtain ⟨hmin, hmax, hsteps, hand⟩ := h
    refine ⟨by simpa using hmin, by simpa using hmax, ?_, handOn_rename hand⟩
    rw [List.forall_mem_map]
    exact fun i hi => ⟨Instruction.fits_rename (hsteps i hi).1, (hsteps i hi).2⟩

theorem visit_rename (table : CallTable) (item : Item) : table.visit (item.rename σ) = table.visit item := by
  cases item with
  | plain i => simp only [Item.rename, CallTable.visit, Instruction.rename, List.length_map]
  | group is => rfl

theorem visitAll_rename (table : CallTable) (items : List Item) :
    table.visitAll (items.map (Item.rename σ)) = table.visitAll items := by
  rw [CallTable.visitAll, List.foldlM_map]
  simp only [visit_rename]
  rfl

def Script.rename (σ : UInt16 → UInt16) (s : Script) : Script := ⟨s.items.map (Item.rename σ), s.closed⟩

theorem Script.width_rename (s : Script) : (s.rename σ).items.map Item.width = s.items.map Item.width := by
  rw [rename, List.map_map]
  exact List.map_congr_left fun item _ => item.width_rename

theorem Script.doneFrom_rename (s : Script) (offset : Nat) : (s.rename σ).doneFrom offset = s.doneFrom offset := by
  rw [doneFrom, doneFrom, s.width_rename]
  rfl

theorem Script.length_encode_rename (s : Script) : (s.rename σ).encode.length = s.encode.length := by
  rw [encode, encode, List.length_append, List.length_append, length_encode, length_encode, s.width_rename]
  rfl

def Decoded.rename (σ : UInt16 → UInt16) (d : Decoded) : Decoded := { d with items := d.items.map (Item.rename σ) }

/-- With its registers renamed a stream is read as it was, for every host. -/
theorem decode_rename {code : Bytes} {known : Nat} {d : Decoded} (h : decode code known = .ok d) (functions : Nat) :
    decode (d.script.rename σ).encode functions = (decode code functions).map (Decoded.rename σ) := by
  obtain ⟨-, hw, -, -, ha⟩ := decode_script_iff.mp h
  have hw' : ∀ item ∈ (d.script.rename σ).items, item.WellFormed :=
    List.forall_mem_map.mpr fun item hi => Item.wellFormed_rename (hw item hi)
  rw [decode_of_agree hw ha, decode_of_agree hw' (Bytes.agree_refl (Script.length_loose _)), Script.doneFrom_rename]
  split
  · rfl
  · rw [show (d.script.rename σ).items = d.script.items.map (Item.rename σ) from rfl, visitAll_rename]
    cases CallTable.visitAll (Array.replicate functions none) d.script.items <;> rfl

end Stream

/-! ## The renamed program -/

namespace Program

variable {items : List Stream.Item}

theorem instrs_rename (items : List Stream.Item) :
    (ofItems (items.map (Stream.Item.rename σ))).instrs = (ofItems items).instrs.map (Instruction.rename σ) := by
  rw [instrs, instrs, map_instr_ofItems, map_instr_ofItems, List.flatMap_map, List.map_flatMap]
  exact List.flatMap_congr fun item _ => item.instructions_rename

theorem size_rename (items : List Stream.Item) :
    (ofItems (items.map (Stream.Item.rename σ))).size = (ofItems items).size := by
  rw [← length_instrs, ← length_instrs, instrs_rename, List.length_map]

theorem excerpt_rename (hw : ∀ item ∈ items, item.WellFormed) (l : Liveness) :
    Excerpt σ id (ofItems items) l (ofItems (items.map (Stream.Item.rename σ))) := by
  have hg : Grouped (ofItems items) := grouped_ofItems hw
  have hg' : Grouped (ofItems (items.map (Stream.Item.rename σ))) :=
    grouped_ofItems (List.forall_mem_map.mpr fun item hi => Stream.Item.wellFormed_rename (hw item hi))
  have hinstr (x : Nat) (n' : Node) (hn' : (ofItems (items.map (Stream.Item.rename σ)))[x]? = some n') :
      ∃ n, (ofItems items)[x]? = some n ∧ n'.instr = n.instr.rename σ := by
    have hx := getElem?_instrs (p := ofItems (items.map (Stream.Item.rename σ))) x
    rw [instrs_rename, List.getElem?_map, getElem?_instrs, hn', Option.map_map] at hx
    obtain ⟨n, hn, e⟩ := Option.map_eq_some_iff.mp hx
    exact ⟨n, hn, e.symm⟩
  have hcovers (i : Nat) (hi : i < (ofItems items).size) (_ : l.isLive i = true) :
      ∃ x < (ofItems (items.map (Stream.Item.rename σ))).size, id x = i := ⟨i, by rw [size_rename]; exact hi, rfl⟩
  refine ⟨fun x y hxy _ => hxy, hcovers, hinstr, fun x hx => ?_, fun x hx => ?_⟩
  · obtain ⟨n', hn'⟩ := exists_node hx
    obtain ⟨n, hn, e⟩ := hinstr x n' hn'
    rw [id, hg.next?_eq hn, hg'.next?_eq hn', e, Option.map_id]
    simp only [Instruction.mem_acc_dests_rename, id]
  · obtain ⟨n', hn'⟩ := exists_node hx
    obtain ⟨n, hn, e⟩ := hinstr x n' hn'
    rw [id, hg.prev?_eq hn, hg'.prev?_eq hn', e, Option.map_id]
    simp only [Instruction.mem_acc_sources_rename, id]

/-- A register is read before anything was stored in it just where the renamed one is. -/
theorem readsUnwritten_rename (hw : ∀ item ∈ items, item.WellFormed) (hσ : Function.Injective σ) :
    (ofItems (items.map (Stream.Item.rename σ))).ReadsUnwritten ↔ (ofItems items).ReadsUnwritten := by
  have h : Excerpt σ id (ofItems items) default (ofItems (items.map (Stream.Item.rename σ))) := excerpt_rename hw default
  have hnode {i : Nat} {n : Node} (hn : (ofItems items)[i]? = some n) :
      ∃ n', (ofItems (items.map (Stream.Item.rename σ)))[i]? = some n' ∧ n'.instr = n.instr.rename σ := by
    obtain ⟨x, hx, rfl⟩ := h.covers i (lt_size_of_getElem? hn) (by simp [Liveness.isLive]; rfl)
    obtain ⟨n', hn'⟩ := exists_node hx
    exact ⟨n', hn', h.instr_eq hn hn'⟩
  constructor
  · intro hr
    obtain ⟨i, n', r', hn', hr', hunstored⟩ := hr
    obtain ⟨n, hn, e⟩ := h.instr i n' hn'
    rw [e] at hr'
    obtain ⟨s, hs, er⟩ := List.mem_map.mp hr'
    obtain ⟨r, rfl, rfl⟩ := Source.of_rename_eq_reg er
    refine ⟨i, n, r, hn, hs, fun j m hj hm => ?_⟩
    obtain ⟨m', hm', em⟩ := hnode hm
    have hno := hunstored j m' hj hm'
    rwa [em, Instruction.mem_dests_rename hσ] at hno
  · intro hr
    obtain ⟨i, n, r, hn, hr, hunstored⟩ := hr
    obtain ⟨n', hn', e⟩ := hnode hn
    refine ⟨i, n', σ r, hn', ?_, fun j m' hj hm' => ?_⟩
    · rw [e, Instruction.mem_sources_rename hσ]
      exact hr
    · obtain ⟨m, hm, em⟩ := h.instr j m' hm'
      rw [em, Instruction.mem_dests_rename hσ]
      exact hunstored j m hj hm

end Program

/-! ## Compiling -/

namespace Compile

open Program

section Renamed

variable {code code' : Bytes} {functions : UInt32} {d : Stream.Decoded} {f : Flow}

theorem flow_error_rename (hw : ∀ item ∈ d.items, item.WellFormed) (hσ : Function.Injective σ) :
    (∃ e, Flow.ofProgram (d.rename σ).program = .error e) ↔ ∃ e, Flow.ofProgram d.program = .error e := by
  rw [← readsUnwritten_iff, ← readsUnwritten_iff]
  exact readsUnwritten_rename hw hσ

/-- A stream that can be read and its renamed form fail with the same error, or give the same image and counts. -/
theorem compile_rename (hσ : Function.Injective σ) (hd : Stream.decode code functions.toNat = .ok d)
    (hd' : Stream.decode code' functions.toNat = .ok (d.rename σ)) (hlength : code'.length = code.length)
    (hf : Flow.ofProgram d.program = .ok f) (settings : Settings) :
    (∀ e, compile code functions settings = .error e → compile code' functions settings = .error e) ∧
      ∀ c, compile code functions settings = .ok c → ∃ c', compile code' functions settings = .ok c' ∧
        c'.image = c.image ∧ c'.stats = c.stats ∧ c'.flags = c.flags := by
  have hw := (Stream.decode_ok hd).2.1
  have hw' := (Stream.decode_ok hd').2.1
  obtain ⟨f', hf'⟩ : ∃ f', Flow.ofProgram (d.rename σ).program = .ok f' := by
    cases hf' : Flow.ofProgram (d.rename σ).program with
    | ok f' => exact ⟨f', rfl⟩
    | error e =>
      obtain ⟨e', he'⟩ := (flow_error_rename hw hσ).mp ⟨e, hf'⟩
      rw [hf] at he'
      cases he'
  have hexcerpt : Excerpt σ id d.program (optimize settings d f).live (d.rename σ).program := excerpt_rename hw _
  have hsize : (d.rename σ).program.size = d.program.size := size_rename d.items
  have hremoved : (optimize settings (d.rename σ) f').removed = (optimize settings d f).removed := by
    rw [removed_optimize hw hf, removed_optimize hw' hf', hsize]
    refine List.filter_congr fun i hi => ?_
    have hi : i < (d.rename σ).program.size := by
      rw [hsize]
      exact List.mem_range.mp hi
    rw [isLive_optimize hw hf hw' hf' hexcerpt hσ hi, id]
  obtain ⟨herror, hok⟩ := compile_excerpt hd hf hd' hf' rfl hexcerpt hσ
  refine ⟨herror, fun c hc => ?_⟩
  obtain ⟨c', hc', himage, hflags, hstats⟩ := hok c hc
  simp only [compile, read, hd, hf] at hc
  obtain ⟨e, hwritten⟩ := write_ok hc
  obtain ⟨hdecoded, hcount, hbytes⟩ := stats_of_write hc
  have ho : Optimum settings d (optimize settings d f) := optimum_optimize hw hf
  refine ⟨c', hc', himage, ?_, ?_⟩
  · rw [hstats, hremoved, hsize, hlength, ← ho.handed.size, ← hdecoded, ← hcount, ← hbytes]
  · rw [hflags, hremoved, hwritten.flags]

end Renamed

/-- Whatever its registers are called, a stream compiles to the same image with the same counts, or fails with the same
    fault. -/
theorem compile_register_names {code : Bytes} {known : Nat} {d : Stream.Decoded} (hd : Stream.decode code known = .ok d)
    (σ : Equiv.Perm UInt16) (functions : UInt32) (settings : Settings) :
    Stream.decode (d.script.rename σ).encode known = .ok (d.rename σ) ∧
      ((∃ e e', compile code functions settings = .error e ∧
          compile (d.script.rename σ).encode functions settings = .error e' ∧ e'.fault = e.fault) ∨
        ∃ c c', compile code functions settings = .ok c ∧
          compile (d.script.rename σ).encode functions settings = .ok c' ∧ c'.image = c.image ∧
            c'.image.pack = c.image.pack ∧ c'.stats = c.stats ∧ c'.flags = c.flags) := by
  have hdecode (functions : Nat) := Stream.decode_rename (σ := σ) hd functions
  have hlength : (d.script.rename σ).encode.length = code.length := by
    obtain ⟨-, -, -, -, ha⟩ := Stream.decode_script_iff.mp hd
    rw [Stream.Script.length_encode_rename, ha.length_eq.1, ha.length_eq.2]
  refine ⟨by rw [hdecode, hd]; rfl, ?_⟩
  cases hread : Stream.decode code functions.toNat with
  | error e =>
    have hread' := hdecode functions.toNat
    rw [hread] at hread'
    refine .inl ⟨.stream e, .stream e, ?_, ?_, rfl⟩
    · simp only [compile, read, hread]
    · simp only [compile, read, hread', Except.map]
  | ok g =>
    have hread' : Stream.decode (d.script.rename σ).encode functions.toNat = .ok (g.rename σ) := by
      rw [hdecode, hread]
      rfl
    cases hf : Flow.ofProgram g.program with
    | error e =>
      obtain ⟨e', hf'⟩ := (flow_error_rename (Stream.decode_ok hread).2.1 σ.injective).mpr ⟨e, hf⟩
      refine .inl ⟨.unwritten e, .unwritten e', ?_, ?_, rfl⟩
      · simp only [compile, read, hread, hf]
      · simp only [compile, read, hread', hf']
    | ok f =>
      obtain ⟨herror, hok⟩ := compile_rename σ.injective hread hread' hlength hf settings
      cases hc : compile code functions settings with
      | error e => exact .inl ⟨e, e, rfl, herror e hc, rfl⟩
      | ok c =>
        obtain ⟨c', hc', himage, hstats, hflags⟩ := hok c hc
        exact .inr ⟨c, c', rfl, hc', himage, by rw [himage], hstats, hflags⟩

theorem compile_register_names_product : ∃ d c c', Stream.decode productStream 0 = .ok d ∧
    (d.script.rename (Equiv.swap 8 9)).encode ≠ productStream ∧ compile productStream 0 {} = .ok c ∧
      compile (d.script.rename (Equiv.swap 8 9)).encode 0 {} = .ok c' ∧ c'.image = c.image ∧
        c'.stats = c.stats ∧ c.stats.folded = 1 := by
  obtain ⟨d, hd, hne⟩ := exists_ok_of_any (by decide +kernel : (Stream.decode productStream 0).toOption.any
    (fun d => (d.script.rename (Equiv.swap 8 9)).encode != productStream) = true)
  obtain ⟨c, hc, hfolded⟩ := exists_of_any_ok (by decide +kernel :
    (compile productStream 0 {}).toOption.any (fun c => c.stats.folded == 1) = true)
  rcases (compile_register_names hd (Equiv.swap 8 9) 0 {}).2 with hboth | hboth
  · obtain ⟨e, -, he, -⟩ := hboth
    rw [hc] at he
    cases he
  · obtain ⟨c₁, c', hc₁, hc', himage, -, hstats, -⟩ := hboth
    rw [hc] at hc₁
    cases hc₁
    exact ⟨d, c, c', hd, by simpa using hne, hc, hc', himage, hstats, by simpa using hfolded⟩

end Compile

end LaneScript
