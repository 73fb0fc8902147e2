/-
  LaneScript.Proofs.Described — the header of a compiled image describes its stream.

  Every field of the header was computed from the optimised program and its tables. Here
  each is said of the stream that the image holds, as it is read back: the flags of what
  occurs in it, the functions called and the registers a call takes, the data sets and
  fields it refers to. Proved: for every compile whose image is packable the header says
  exactly that (`compile_described`), so a host may size its buffers by it.
-/
import LaneScript.Proofs.Tally

namespace LaneScript

/-! ## What a stream shows -/

def Trait.Marks : Trait → Opcode → Prop
  | .externalCalls, o => o = .call
  | .statScopes, o => o = .enterScope ∨ o = .exitScope
  | .idBuffers, o => o = .updateId ∨ o = .acquireId
  | .indexGenerators, o => o = .acquireIndex
  | .fusedGroups, _ => False
  | .random, o => o = .compute .random
  | .execIndex, o => o = .execIndex

/-- A stream has a fused group, or an instruction that the flag stands for. -/
def Trait.Shown (t : Trait) (d : Stream.Decoded) : Prop :=
  (t = .fusedGroups ∧ ∃ steps, .group steps ∈ d.items) ∨ ∃ i ∈ d.instructions, t.Marks i.opcode

def Instruction.sparesFrom (n : Nat) (i : Instruction) : Nat := i.dests.countP fun d => d.reg?.any (n ≤ ·.toNat)

open Renumbering

structure Image.Describes (m : Image) (d : Stream.Decoded) : Prop where
  flags : ∀ t : Trait, m.header.flags &&& t.bit ≠ 0 ↔ t.Shown d
  /-- Only the seven flags there are can be set. -/
  others : m.header.flags < 128
  lastFunction : m.header.lastFunction.toInt =
    (largest ((d.instructions.filterMap Instruction.call?).map fun c => c.1.toNat + 1) : Int) - 1
  callRegisters : m.header.callRegisters.toNat =
    largest ((d.instructions.filterMap Instruction.call?).map fun c => c.2.sources + c.2.dests)
  spareRegisters : m.header.spareRegisters.toNat =
    largest ((d.instructions.filter (·.opcode = .call)).map (Instruction.sparesFrom m.header.registers.toNat))
  stillInputs : m.header.stillInputs.toNat = distinct (addresses (d.instructions.filterMap inputIn?) false)
  outputDatasets : m.header.outputDatasets.toNat =
    largest ((d.instructions.filterMap slotIn?).map fun s => s.dataset.toNat + 1)
  inputDatasets : m.header.inputDatasets.toNat =
    largest ((d.instructions.filterMap inputIn?).map fun r => r.dataset.toNat + 1)
  allocatedConstants : m.header.allocatedConstants.toNat = largest (m.constants.map fun c => c.toNat + 1)
  outputFields : m.header.outputFields.toNat = distinct (m.outputDatasets.zip m.outputFields)
  /-- The registers below the throw-away ones are those that are mentioned. -/
  registers : m.header.registers.toNat =
    distinct ((d.instructions.flatMap Instruction.mentions).filter (· < m.header.registers.toNat))
  constants : m.header.constants.toNat = distinct (d.instructions.flatMap constantsIn)
  inputs : m.header.inputs.toNat = distinct (addresses (d.instructions.filterMap inputIn?) true) +
    distinct (addresses (d.instructions.filterMap inputIn?) false)
  outputs : m.header.outputs.toNat = (d.instructions.filterMap slotIn?).length
  functions : m.header.functions.toNat = d.calls.size
  codeLength : m.header.codeLength.toNat = m.code.length

/-! ## Flags -/

namespace Trait

theorem or_and (a b c : UInt32) : (a ||| b) &&& c = (a &&& c) ||| (b &&& c) := by
  apply UInt32.toNat_inj.mp
  simp only [UInt32.toNat_and, UInt32.toNat_or, Nat.and_or_distrib_right]

theorem bit_and_bit (s t : Trait) : s.bit &&& t.bit ≠ 0 ↔ s = t := by
  cases s <;> cases t <;> decide

/-- Setting flags sets these and keeps the others. -/
theorem foldl_bit (ts : List Trait) (t : Trait) (flags : UInt32) :
    (ts.foldl (fun flags t => flags ||| t.bit) flags) &&& t.bit ≠ 0 ↔ flags &&& t.bit ≠ 0 ∨ t ∈ ts := by
  induction ts generalizing flags with
  | nil => simp
  | cons s ts ih =>
    have hstep : (flags ||| s.bit) &&& t.bit ≠ 0 ↔ flags &&& t.bit ≠ 0 ∨ s = t := by
      rw [← bit_and_bit, or_and, Ne, UInt32.or_eq_zero_iff, not_and_or]
    rw [List.foldl_cons, ih, hstep, List.mem_cons, or_assoc, eq_comm (a := s)]

theorem foldl_bit_lt (ts : List Trait) : ts.foldl (fun flags t => flags ||| t.bit) 0 < 128 := by
  refine List.foldlRecOn ts _ (motive := fun flags : UInt32 => flags < 128) (by decide) ?_
  intro flags hflags t _
  have hbit : t.bit.toNat < 128 := by cases t <;> decide
  rw [UInt32.lt_iff_toNat_lt, UInt32.toNat_or]
  exact Nat.or_lt_two_pow (n := 7) hflags hbit

end Trait

namespace Compile

open Program

theorem mem_traitsOf {n : Node} {t : Trait} :
    t ∈ traitsOf n ↔ (t = .fusedGroups ∧ n.isFolded = true) ∨ t.Marks n.instr.opcode := by
  have hfolded : t ∈ (if n.isFolded then [Trait.fusedGroups] else []) ↔ t = .fusedGroups ∧ n.isFolded = true := by
    split <;> simp_all
  unfold traitsOf
  rw [List.mem_append, hfolded]
  refine or_congr_right ?_
  cases hop : n.instr.opcode with
  | compute f => cases t <;> cases f <;> simp [Trait.Marks]
  | _ => cases t <;> simp [Trait.Marks]

/-- In well-formed items the accumulator is stored by the steps of groups alone. -/
theorem exists_group_iff {items : List Stream.Item} (hw : ∀ item ∈ items, item.WellFormed) :
    (∃ steps, .group steps ∈ items) ↔ ∃ b ∈ items.flatMap Stream.Item.instructions, .acc ∈ b.dests := by
  constructor
  · intro h
    obtain ⟨steps, hs⟩ := h
    have hgroup := hw _ hs
    have hlen : 0 < steps.length := Nat.lt_of_lt_of_le Nat.zero_lt_two hgroup.1
    have hfirst := (hgroup.acc_of_group (List.getElem?_eq_getElem hlen)).1.mpr hgroup.1
    exact ⟨_, List.mem_flatMap.mpr ⟨_, hs, List.getElem_mem hlen⟩, hfirst⟩
  · intro h
    obtain ⟨b, hb, hacc⟩ := h
    obtain ⟨item, hitem, hb⟩ := List.mem_flatMap.mp hb
    cases item with
    | plain i =>
      cases List.mem_singleton.mp hb
      exact absurd hacc (hw _ hitem).no_acc_of_plain.2
    | group steps => exact ⟨steps, hitem⟩

/-! ## Calls counted -/

/-- A well-shaped instruction calls a function just if its opcode is that of a call. -/
theorem isSome_call?_iff {i : Instruction} (hs : i.WellShaped) : i.call?.isSome = true ↔ i.opcode = .call := by
  unfold Instruction.WellShaped at hs
  unfold Instruction.call?
  cases hop : i.opcode <;> simp only [hop] at hs
  case call =>
    obtain ⟨⟨f, hf⟩, -⟩ := hs
    simp [hf]
  case input | output =>
    obtain ⟨⟨d, f, hf⟩, -⟩ := hs
    simp [hf]
  case acquireIndex | updateId | acquireId | enterScope =>
    obtain ⟨⟨d, hf⟩, -⟩ := hs
    simp [hf]
  all_goals simp [hs.1]

/-- A call takes as many registers as its operands, which are at most 255 of each kind. -/
theorem call?_le {b : Instruction} (hs : b.WellShaped) {call : UInt16 × Stream.CallShape} (hc : b.call? = some call) :
    call.2.sources + call.2.dests ≤ 510 := by
  have hop := (isSome_call?_iff hs).mp (by rw [hc]; rfl)
  simp only [Instruction.WellShaped, hop] at hs
  obtain ⟨⟨f, hf⟩, hsources, hdests, -⟩ := hs
  simp only [Instruction.call?, hf] at hc
  cases hc
  show b.sources.length + b.dests.length ≤ 510
  omega

theorem filterMap_sublist_map {α β : Type} {f : α → Option β} {g : α → β} (hf : ∀ a b, f a = some b → b = g a)
    (xs : List α) : (xs.filterMap f).Sublist (xs.map g) := by
  induction xs with
  | nil => exact .slnil
  | cons x xs ih =>
    rw [List.filterMap_cons, List.map_cons]
    cases hx : f x with
    | none => exact ih.cons _
    | some b =>
      cases hf x b hx
      exact ih.cons_cons _

theorem countP_eq_range {α : Type} {p : α → Bool} {q : Nat → Bool} {xs : List α}
    (hpq : ∀ (k : Nat) (a : α), xs[k]? = some a → p a = q k) : xs.countP p = (List.range xs.length).countP q := by
  induction xs generalizing q with
  | nil => rfl
  | cons x xs ih =>
    have hrest := ih (q := fun k => q (k + 1)) fun k a ha => hpq (k + 1) a ha
    rw [List.countP_cons, hrest, List.length_cons, List.range_succ_eq_map, List.countP_cons, List.countP_map,
      hpq 0 x rfl]
    rfl

theorem lastFunction_eq (calls : List (UInt16 × Nat)) :
    lastFunction calls = (largest (calls.map fun c => c.1.toNat + 1) : Int) - 1 := by
  have run : ∀ (calls : List (UInt16 × Nat)) (top : Nat),
      calls.foldl (fun (top : Int) c => max top (c.1.toNat : Int)) ((top : Int) - 1) =
        ((calls.foldl (fun top c => max top (c.1.toNat + 1)) top : Nat) : Int) - 1 := by
    intro calls
    induction calls with
    | nil => exact fun top => rfl
    | cons c calls ih =>
      intro top
      have hmax : max ((top : Int) - 1) (c.1.toNat : Int) = ((max top (c.1.toNat + 1) : Nat) : Int) - 1 := by omega
      rw [List.foldl_cons, List.foldl_cons, hmax, ih]
  have hall := run calls 0
  rw [foldl_max_eq, Nat.zero_max] at hall
  exact hall

theorem spareRegisters_eq (calls : List (UInt16 × Nat)) : spareRegisters calls = largest (calls.map Prod.snd) := by
  refine (foldl_max_eq Prod.snd calls 0).trans (Nat.zero_max _)

def widen (table : Stream.CallTable) (top : Nat) (f : UInt16) : Nat :=
  max top (((table.getD f.toNat none).map fun shape => shape.sources + shape.dests).getD 0)

theorem callRegisters_eq {table : Stream.CallTable} {calls : List (UInt16 × Nat)}
    {shown : List (UInt16 × Stream.CallShape)} (hsame : calls.map Prod.fst = shown.map Prod.fst)
    (hs : ∀ c ∈ shown, table.getD c.1.toNat none = some c.2) :
    callRegisters table calls = largest (shown.map fun c => c.2.sources + c.2.dests) := by
  have hwiden : callRegisters table calls = (calls.map Prod.fst).foldl (widen table) 0 := by
    rw [List.foldl_map, callRegisters]
    congr 1
    funext top call
    obtain ⟨f, n⟩ := call
    unfold widen
    dsimp only
    cases table.getD f.toNat none with
    | none => exact (Nat.max_zero top).symm
    | some shape => rfl
  rw [hwiden, hsame, List.foldl_map]
  refine (List.foldl_ext _ (fun top c => max top (c.2.sources + c.2.dests)) 0 ?_).trans
    ((foldl_max_eq _ shown 0).trans (Nat.zero_max _))
  intro top c hc
  rw [widen, hs c hc]
  rfl

section Emitted

variable {settings : Settings} {d : Stream.Decoded} {o : Optimized} {c : Compiled} {e : Emission}
  (h : Optimum settings d o) (hw : Written settings o c e)

include h hw

omit hw in
/-- An instruction stores the accumulator just if its node is folded. -/
theorem acc_iff_isFolded {i : Nat} {n : Node} {b : Instruction} (hn : o.program[i]? = some n)
    (hb : Emission.Renumbered c.renumbering o.live i n.instr b) : .acc ∈ b.dests ↔ n.isFolded = true := by
  rw [hb.dests.mem_acc_iff, ← h.handed.next_iff i n hn, h.handed.linked.isFolded_iff hn]

theorem exists_instruction {n : Node} (hn : n ∈ o.order.filterMap (o.program[·]?)) :
    ∃ b ∈ e.program.instrs, b.opcode = n.instr.opcode ∧ (.acc ∈ b.dests ↔ n.isFolded = true) := by
  obtain ⟨i, hi, hn⟩ := List.mem_filterMap.mp hn
  obtain ⟨x, hx⟩ := List.getElem?_of_mem hi
  obtain ⟨n', b, hn', hb, hren⟩ := exists_emitted h hw hx
  cases hn.symm.trans hn'
  rw [← instrs_program] at hb
  exact ⟨b, List.mem_of_getElem? hb, hren.opcode, acc_iff_isFolded h hn hren⟩

theorem exists_node_of_instruction {b : Instruction} (hb : b ∈ e.program.instrs) :
    ∃ n ∈ o.order.filterMap (o.program[·]?), b.opcode = n.instr.opcode ∧ (.acc ∈ b.dests ↔ n.isFolded = true) := by
  obtain ⟨x, hx⟩ := List.getElem?_of_mem hb
  have hlt : x < e.program.size := by
    rw [← length_instrs]
    exact (List.getElem?_eq_some_iff.mp hx).1
  have hi := order_of_lt hw hlt
  rw [instrs_program] at hx
  obtain ⟨-, n, -, hn, hren, -⟩ := emitted_at h hw hx hi
  exact ⟨n, List.mem_filterMap.mpr ⟨_, List.mem_of_getElem? hi, hn⟩, hren.opcode, acc_iff_isFolded h hn hren⟩

theorem flags_image (t : Trait) : c.image.header.flags &&& t.bit ≠ 0 ↔
    (t = .fusedGroups ∧ ∃ steps, .group steps ∈ e.items) ∨ ∃ b ∈ e.program.instrs, t.Marks b.opcode := by
  have hflags : c.image.header.flags = traits (o.order.filterMap (o.program[·]?)) := by rw [hw.image]; rfl
  rw [hflags, traits, Trait.foldl_bit, exists_group_iff (wellFormed_items h hw), ← instrs_program, List.mem_flatMap]
  simp only [mem_traitsOf]
  constructor
  · intro hset
    rcases hset with hset | hset
    · exact absurd (UInt32.zero_and) hset
    · obtain ⟨n, hn, ht⟩ := hset
      obtain ⟨b, hb, hop, hacc⟩ := exists_instruction h hw hn
      rcases ht with ht | ht
      · exact .inl ⟨ht.1, b, hb, hacc.mpr ht.2⟩
      · exact .inr ⟨b, hb, hop ▸ ht⟩
  · intro hshown
    refine .inr ?_
    rcases hshown with hshown | hshown
    · obtain ⟨ht, b, hb, hmem⟩ := hshown
      obtain ⟨n, hn, -, hacc⟩ := exists_node_of_instruction h hw hb
      exact ⟨n, hn, .inl ⟨ht, hacc.mp hmem⟩⟩
    · obtain ⟨b, hb, ht⟩ := hshown
      obtain ⟨n, hn, hop, -⟩ := exists_node_of_instruction h hw hb
      exact ⟨n, hn, .inr (hop ▸ ht)⟩

/-! ## Calls -/

omit hw in
/-- The unread results of a node are destinations of it, each listed once. -/
theorem unread_results (i : Nat) : (o.live.unread.getD i []).Nodup ∧
    ∀ k ∈ o.live.unread.getD i [], ∀ n, o.program[i]? = some n → k < n.instr.dests.length := by
  rcases h.sound.unread i with hnone | hat
  · rw [hnone]
    exact ⟨List.nodup_nil, fun k hk => absurd hk List.not_mem_nil⟩
  · rw [hat]
    refine ⟨?_, ?_⟩
    · unfold Liveness.unreadAt
      split
      · exact List.nodup_nil
      · split
        · refine (filterMap_sublist_map (g := Prod.snd) ?_ _).nodup ?_
          · intro x k hx
            obtain ⟨dest, pos⟩ := x
            cases dest with
            | acc => cases hx
            | reg r =>
              obtain ⟨-, hpos⟩ := Option.ite_none_left_eq_some.mp hx
              exact (Option.some.inj hpos).symm
          · rw [List.zipIdx_map_snd]
            exact List.nodup_range'
        · exact List.nodup_nil
    · intro k hk n hn
      obtain ⟨m, r, hm, -, hdest, -⟩ := Liveness.mem_unreadAt.mp hk
      have hlt := (List.getElem?_eq_some_iff.mp hdest).1
      rcases h.handed.dests i m n hm hn with he | he
      · rw [he]
        exact hlt
      · obtain ⟨he, x, hx⟩ := he
        rw [he]
        rw [hx] at hlt
        exact hlt

/-- The destinations of an instruction above the numbered registers stand for the unread results of its node. -/
theorem sparesFrom_eq {i : Nat} {n : Node} {b : Instruction} (hn : o.program[i]? = some n)
    (hb : Emission.Renumbered c.renumbering o.live i n.instr b) :
    b.sparesFrom c.renumbering.registers.size = (o.live.unread.getD i []).length := by
  obtain ⟨hnodup, hbelow⟩ := unread_results h i
  have hat : ∀ (k : Nat) (a : Dest), b.dests[k]? = some a →
      (a.reg?.any fun r => decide (c.renumbering.registers.size ≤ r.toNat)) = o.live.isUnread i k := by
    intro k a ha
    have hlt : k < n.instr.dests.length := by
      rw [← hb.dests.length_eq]
      exact (List.getElem?_eq_some_iff.mp ha).1
    obtain ⟨a', ha', hdest⟩ := hb.dests.dest_at (List.getElem?_eq_getElem hlt)
    cases ha.symm.trans ha'
    rw [Nat.zero_add] at hdest
    have hacc := isUnread_acc h hn (k := k)
    rw [List.getElem?_eq_getElem hlt] at hacc
    generalize n.instr.dests[k] = old at hdest hacc
    cases hdest with
    | acc => exact (hacc rfl).symm
    | unread hu hle => rw [hu]; exact decide_eq_true hle
    | kept hu hnum =>
      have := (valid_registers hw).lt_size hnum
      rw [hu]
      exact decide_eq_false (Nat.not_le.mpr this)
  have hperm : ((List.range b.dests.length).filter (o.live.isUnread i)).Perm (o.live.unread.getD i []) := by
    refine (List.perm_ext_iff_of_nodup (List.nodup_range.filter _) hnodup).mpr ?_
    intro k
    rw [List.mem_filter, List.mem_range, Liveness.isUnread, List.contains_iff_mem, and_iff_right_iff_imp]
    intro hk
    rw [hb.dests.length_eq]
    exact hbelow k hk n hn
  rw [Instruction.sparesFrom, countP_eq_range hat, List.countP_eq_length_filter, hperm.length_eq]

/-- The calls that the header counts are those of the stream. -/
theorem callsOf_eq : callsOf o.program o.live o.order =
    e.program.instrs.filterMap fun b => b.call?.map fun call => (call.1, b.sparesFrom c.renumbering.registers.size) := by
  rw [instrs_program]
  refine ((filterMap_of_forall₂ (g := id) ?_ (forall₂_emits hw)).trans (List.map_id _)).symm
  intro i b hb
  obtain ⟨n, hn, hren⟩ := hb
  obtain ⟨m, hm⟩ := exists_node (p := d.program) (by rw [← h.handed.size]; exact lt_size_of_getElem? hn)
  rw [sparesFrom_eq h hw hn hren, call?_eq h.handed hm hn hren, Instruction.call?, ← (h.handed.same i m n hm hn).2.1, hn]
  dsimp only
  cases n.instr.payload <;> rfl

theorem wellShaped_instrs {b : Instruction} (hb : b ∈ e.program.instrs) : b.WellShaped := by
  rw [instrs_program] at hb
  obtain ⟨item, hitem, hb⟩ := List.mem_flatMap.mp hb
  obtain ⟨chained, hfits⟩ := (wellFormed_items h hw item hitem).fits hb
  exact hfits.shaped

/-- The host's table shows the shape of every call in the stream. -/
theorem getD_calls {functions : Nat}
    (hcalls : Stream.CallTable.visitAll (Array.replicate functions none) d.items = .ok d.calls) :
    ∀ call ∈ e.program.instrs.filterMap Instruction.call?, o.calls.getD call.1.toNat none = some call.2 := by
  rw [Stream.visitAll_eq_recordAll _ h.items] at hcalls
  obtain ⟨hshows, -⟩ := (Stream.CallTable.shows_replicate functions).recordAll hcalls
  intro call hcall
  rw [instrs_program, calls_eq h hw] at hcall
  have hentry := (hshows.entry call.1.toNat call.2).mpr ⟨call, hcall, rfl, rfl⟩
  rw [h.calls, Array.getD_eq_getD_getElem?, hentry]
  rfl

omit hw in
theorem lt_of_mem_calls {functions : Nat}
    (hcalls : Stream.CallTable.visitAll (Array.replicate functions none) d.items = .ok d.calls) :
    ∀ call ∈ callsOf o.program o.live o.order, call.1.toNat < functions := by
  rw [Stream.visitAll_eq_recordAll _ h.items] at hcalls
  have hcalled := (Stream.CallTable.recordAll_ok hcalls).2
  rw [Array.size_replicate] at hcalled
  intro call hcall
  obtain ⟨call', hcall', he⟩ := mem_call?_of_mem_callsOf h hcall
  rw [← he]
  exact hcalled call' hcall'

theorem map_fst_callsOf : (callsOf o.program o.live o.order).map Prod.fst =
    (e.program.instrs.filterMap Instruction.call?).map Prod.fst := by
  rw [callsOf_eq h hw, List.map_filterMap, List.map_filterMap]
  simp only [Option.map_map]
  rfl

theorem toInt_lastFunction {functions : Nat} (hle : functions ≤ Stream.maxFunctions)
    (hcalls : Stream.CallTable.visitAll (Array.replicate functions none) d.items = .ok d.calls) :
    c.image.header.lastFunction.toInt =
      (largest ((e.program.instrs.filterMap Instruction.call?).map fun call => call.1.toNat + 1) : Int) - 1 := by
  obtain ⟨hlower, hupper⟩ := lastFunction_bounds (lt_of_mem_calls h hcalls)
  have hsame := congrArg (List.map fun f : UInt16 => f.toNat + 1) (map_fst_callsOf h hw)
  rw [List.map_map, List.map_map] at hsame
  have heq := lastFunction_eq (callsOf o.program o.live o.order)
  rw [show (callsOf o.program o.live o.order).map (fun c => c.1.toNat + 1) = _ from hsame] at heq
  refine Eq.trans ?_ heq
  rw [hw.image]
  show (Int32.ofInt (lastFunction (callsOf o.program o.live o.order))).toInt = _
  unfold Stream.maxFunctions at hle
  exact Int32.toInt_ofInt_of_le (by omega) (by omega)

theorem toNat_callRegisters {functions : Nat}
    (hcalls : Stream.CallTable.visitAll (Array.replicate functions none) d.items = .ok d.calls) :
    c.image.header.callRegisters.toNat =
      largest ((e.program.instrs.filterMap Instruction.call?).map fun call => call.2.sources + call.2.dests) := by
  have heq := callRegisters_eq (map_fst_callsOf h hw) (getD_calls h hw hcalls)
  have hbound : callRegisters o.calls (callsOf o.program o.live o.order) ≤ 510 := by
    rw [heq]
    refine largest_le ?_
    intro n hn
    obtain ⟨call, hcall, rfl⟩ := List.mem_map.mp hn
    obtain ⟨b, hb, hcall⟩ := List.mem_filterMap.mp hcall
    exact call?_le (wellShaped_instrs h hw hb) hcall
  rw [← heq, hw.image]
  exact UInt32.toNat_ofNat_of_lt' (Nat.lt_of_le_of_lt hbound (by decide))

/-- Only calls have destinations above the numbered registers, and the header counts them. -/
theorem toNat_spareRegisters_eq : c.image.header.spareRegisters.toNat =
    largest ((e.program.instrs.filter (·.opcode = .call)).map (Instruction.sparesFrom c.renumbering.registers.size)) := by
  rw [toNat_spareRegisters h hw, spareRegisters_eq, callsOf_eq h hw, List.map_filterMap]
  congr 1
  rw [← List.filterMap_eq_map, List.filterMap_filter]
  refine List.filterMap_congr fun b hb => ?_
  have hiff := isSome_call?_iff (wellShaped_instrs h hw hb)
  rw [Option.map_map]
  cases hc : b.call? with
  | none =>
    rw [hc] at hiff
    simp at hiff
    simp [hiff]
  | some call =>
    rw [hc] at hiff
    simp at hiff
    simp [hiff]

/-! ## Tables -/

theorem datasets_instrs : (e.program.instrs.filterMap slotIn?).map OutputSlot.dataset =
    c.renumbering.slots.map OutputSlot.dataset := by
  have hsame := congrArg (List.map Prod.fst) (slots_reread h hw e.program.size)
  rw [List.take_of_length_le (by simp), List.take_of_length_le (by rw [size_program hw]), List.map_map, List.map_map,
    ← (numbered_ofOrder hw.numbered).slots] at hsame
  rw [filterMap_instrs]
  exact hsame

theorem toNat_outputDatasets : c.image.header.outputDatasets.toNat =
    largest ((e.program.instrs.filterMap slotIn?).map fun s => s.dataset.toNat + 1) := by
  have hsize : c.renumbering.outputs.size = largest (c.renumbering.slots.map fun s => s.dataset.toNat + 1) := by
    rw [(numbered_ofOrder hw.numbered).outputs, (numbered_ofOrder hw.numbered).slots, size_addOutputs]
  have hle := size_addOutputs_le (o.order.filterMap (slotAt o.program))
  rw [← (numbered_ofOrder hw.numbered).outputs] at hle
  have hmaps : (e.program.instrs.filterMap slotIn?).map (fun s => s.dataset.toNat + 1) =
      c.renumbering.slots.map fun s => s.dataset.toNat + 1 := by
    have hsame := congrArg (List.map fun d : UInt16 => d.toNat + 1) (datasets_instrs h hw)
    rw [List.map_map, List.map_map] at hsame
    exact hsame
  rw [hmaps, ← hsize, hw.image]
  exact UInt32.toNat_ofNat_of_lt' (Nat.lt_of_le_of_lt hle (by decide))

theorem toNat_inputDatasets_eq : c.image.header.inputDatasets.toNat =
    largest ((e.program.instrs.filterMap inputIn?).map fun r => r.dataset.toNat + 1) := by
  rw [toNat_inputDatasets hw, inputs_instrs h hw, ← size_bySlot, size_addInputs_eq]

omit h in
theorem toNat_allocatedConstants : c.image.header.allocatedConstants.toNat =
    largest (c.image.constants.map fun c => c.toNat + 1) := by
  have hle := (ofOrder_isOk_iff.mp ⟨_, hw.numbered⟩).constants
  rw [← (numbered_ofOrder hw.numbered).constants] at hle
  have hword : ∀ k ∈ c.renumbering.constants.keys.toList, (UInt16.ofNat k).toNat + 1 = k + 1 := by
    intro k hk
    have := lt_allocatedConstants hk
    rw [UInt16.toNat_ofNat_of_lt' (by unfold UInt16.size; omega)]
  have hcount : allocatedConstants c.renumbering.constants =
      largest (c.renumbering.constants.keys.toList.map fun k => k + 1) := by
    rw [allocatedConstants, ← Array.foldl_toList, foldl_max_eq, Nat.zero_max]
  have hmap : c.image.constants.map (fun c => c.toNat + 1) = c.renumbering.constants.keys.toList.map fun k => k + 1 := by
    rw [hw.image]
    show (words c.renumbering.constants).map (fun c => c.toNat + 1) = _
    rw [words, List.map_map]
    exact List.map_congr_left hword
  rw [hmap, ← hcount, hw.image]
  exact UInt16.toNat_ofNat_of_lt' (by unfold UInt16.size; omega)

omit h in
theorem toNat_outputFields : c.image.header.outputFields.toNat =
    distinct (c.image.outputDatasets.zip c.image.outputFields) := by
  have hn := numbered_ofOrder hw.numbered
  have hle := (ofOrder_isOk_iff.mp ⟨_, hw.numbered⟩).outputs
  have hcount := outputFieldCount_eq hle
  rw [← hn.outputs, ← hn.slots] at hcount
  rw [← hn.outputs] at hle
  have hzip : c.image.outputDatasets.zip c.image.outputFields = c.renumbering.slots.map fun s => (s.dataset, s.field) := by
    rw [hw.image]
    show (c.renumbering.slots.map OutputSlot.dataset).zip (c.renumbering.slots.map OutputSlot.field) = _
    exact List.zip_map'
  have hpairs : distinct (c.renumbering.slots.map fun s => (s.dataset.toNat, s.field.toNat)) =
      distinct (c.renumbering.slots.map fun s => (s.dataset, s.field)) := by
    rw [← distinct_map (f := fun p : UInt16 × UInt16 => (p.1.toNat, p.2.toNat)) ?_ (c.renumbering.slots.map _), List.map_map]
    · rfl
    · intro p q hpq
      obtain ⟨h1, h2⟩ := Prod.mk.inj hpq
      exact Prod.ext (UInt16.toNat_inj.mp h1) (UInt16.toNat_inj.mp h2)
  rw [hzip, ← hpairs, ← hcount, hw.image]
  exact UInt16.toNat_ofNat_of_lt' (by unfold UInt16.size; omega)

theorem toNat_inputs : c.image.header.inputs.toNat =
    distinct (addresses (e.program.instrs.filterMap inputIn?) true) +
      distinct (addresses (e.program.instrs.filterMap inputIn?) false) ∧
    c.image.header.stillInputs.toNat = distinct (addresses (e.program.instrs.filterMap inputIn?) false) := by
  have hn := numbered_ofOrder hw.numbered
  have hfields := (ofOrder_isOk_iff.mp ⟨_, hw.numbered⟩).fields
  obtain ⟨hadvance, hstill⟩ := distinct_addresses hfields
  have hinputs : c.image.header.inputs = UInt16.ofNat c.renumbering.inputFields.length := by rw [hw.image]; rfl
  have hcount : c.image.header.stillInputs = UInt16.ofNat c.renumbering.stillCount := by rw [hw.image]; rfl
  have hsum := total_fieldCounts ((o.order.filterMap (inputAt o.program)).foldl addInput #[]).toList
  rw [map_length_fieldLists, hsum] at hfields
  rw [inputs_instrs h hw, hadvance, hstill, hinputs, hcount, hn.inputFields, hn.stillCount, length_flatten,
    map_length_fieldLists, hsum]
  exact ⟨UInt16.toNat_ofNat_of_lt' (by unfold UInt16.size; omega), UInt16.toNat_ofNat_of_lt' (by unfold UInt16.size; omega)⟩

/-- The tables of the image have a row for each constant, output and function of the stream. -/
theorem lengths_image : c.image.constants.length = c.renumbering.constants.size ∧
    c.image.outputDatasets.length = (e.program.instrs.filterMap slotIn?).length ∧
      c.image.functions.length = d.calls.size := by
  have hslots := congrArg List.length (datasets_instrs h hw)
  rw [List.length_map] at hslots
  rw [hslots, hw.image, ← h.calls]
  exact ⟨length_words _, rfl, (List.length_map _).trans Array.length_toList⟩

end Emitted

/-- The header of a packable compiled image describes the stream that the image holds. -/
theorem compile_described {code : Bytes} {functions : UInt32} {settings : Settings} {c : Compiled}
    (h : compile code functions settings = .ok c) (hp : c.image.isPackable = true) :
    c.image.synced = c.image.header ∧
      ∃ d, Stream.decode c.image.code functions.toNat = .ok d ∧ c.image.Describes d := by
  obtain ⟨d, o, e, hd, hopt, hw⟩ := compile_ok h
  obtain ⟨hle, -, hcalls⟩ := Stream.decode_ok hd
  obtain ⟨doneAt, hdecode⟩ := decode_emitted hopt hw hle hcalls
  have hcode : c.image.code = e.code := by rw [hw.image]; rfl
  have hp := Image.isPackable_iff.mp hp
  have hsynced : c.image.synced = c.image.header := by rw [hw.image]; rfl
  refine ⟨hsynced, _, by rw [hcode]; exact hdecode, ?_⟩
  have hinstrs : Stream.Decoded.instructions ⟨e.items, d.calls, doneAt⟩ = e.program.instrs := (instrs_program e).symm
  have hregisters := toNat_registers hw
  obtain ⟨hinputs, hstill⟩ := toNat_inputs hopt hw
  obtain ⟨hconstants, houtputs, hfunctions⟩ := lengths_image hopt hw
  exact {
    flags := by
      intro t
      rw [Trait.Shown, hinstrs]
      exact flags_image hopt hw t
    others := by
      rw [hw.image]
      exact Trait.foldl_bit_lt _
    lastFunction := by
      rw [hinstrs]
      exact toInt_lastFunction hopt hw hle hcalls
    callRegisters := by
      rw [hinstrs]
      exact toNat_callRegisters hopt hw hcalls
    spareRegisters := by
      rw [hinstrs, hregisters]
      exact toNat_spareRegisters_eq hopt hw
    stillInputs := by rw [hinstrs, hstill]
    outputDatasets := by
      rw [hinstrs]
      exact toNat_outputDatasets hopt hw
    inputDatasets := by
      rw [hinstrs]
      exact toNat_inputDatasets_eq hopt hw
    allocatedConstants := toNat_allocatedConstants hw
    outputFields := toNat_outputFields hw
    registers := by
      rw [hinstrs, hregisters, distinct, registers_first_use hw, List.length_range]
    constants := by
      rw [hinstrs, distinct, constants_first_use hw, List.length_range, ← hconstants, ← hsynced]
      exact UInt16.toNat_ofNat_of_lt' hp.constants
    inputs := by rw [hinstrs, hinputs]
    outputs := by
      rw [hinstrs, ← houtputs, ← hsynced]
      exact UInt16.toNat_ofNat_of_lt' hp.outputs
    functions := by
      show c.image.header.functions.toNat = d.calls.size
      rw [← hfunctions, ← hsynced]
      exact UInt32.toNat_ofNat_of_lt' hp.functions
    codeLength := by
      rw [← hsynced]
      exact UInt32.toNat_ofNat_of_lt' hp.code }

/-- An index is taken, a call has an unread result, and what negates the other one is fused with its output. -/
theorem compile_described_spare : ∃ c, compile spareStream 1 {} = .ok c ∧ c.image.isPackable = true ∧
    c.image.header.flags = 0x51 ∧ c.image.header.spareRegisters = 1 ∧ c.image.synced = c.image.header ∧
      ∃ d, Stream.decode c.image.code 1 = .ok d ∧ c.image.Describes d := by
  obtain ⟨c, hc, hs⟩ := exists_of_any_ok (by decide +kernel : (compile spareStream 1 {}).toOption.any
    (fun c => c.image.isPackable && c.image.header.flags == 0x51 && c.image.header.spareRegisters == 1) = true)
  rw [Bool.and_eq_true, Bool.and_eq_true, beq_iff_eq, beq_iff_eq] at hs
  exact ⟨c, hc, hs.1.1, hs.1.2, hs.2, compile_described hc hs.1.1⟩

end Compile

end LaneScript
