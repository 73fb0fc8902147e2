/-
  LaneScript.Proofs.ReadBack — a compiled stream is read back as the nodes that survive.

  The emission order lists the live nodes. Proved, for every compile that succeeds: the
  new stream can be read, and its instruction `x` is node `x` of the order with its
  operands renumbered (`Renamed`) and stands at the offset that was recorded for the
  node; two neighbours are linked just if their nodes are. Nodes that were dropped have
  no offset. The stream is empty just if nothing is live, else it ends with `done`, and
  the shapes of the calls in it are those of the image.
-/
import LaneScript.Proofs.Format
import LaneScript.Proofs.Reread

namespace LaneScript

namespace Emission

/-! ## Operands -/

/-- What becomes of the destination at position `k`: an unread one gets the register behind all numbered ones and those
    of the unread ones before it. -/
inductive DestImage (r : Renumbering) (l : Liveness) (node k : Nat) : Dest → Dest → Prop
  | acc : DestImage r l node k .acc .acc
  | unread {old new : UInt16} : l.isUnread node k = true →
      new.toNat = r.registers.size + (List.range k).countP (l.isUnread node) → DestImage r l node k (.reg old) (.reg new)
  | kept {old new : UInt16} : l.isUnread node k = false → r.registers.get? old.toNat = some new →
      DestImage r l node k (.reg old) (.reg new)

structure Renamed (r : Renumbering) (l : Liveness) (node : Nat) (i j : Instruction) : Prop where
  opcode : j.opcode = i.opcode
  sources : List.Forall₂ (SourceTo r) i.sources j.sources
  count : j.dests.length = i.dests.length
  dests : ∀ (k : Nat) (a b : Dest), i.dests[k]? = some a → j.dests[k]? = some b → DestImage r l node k a b
  payload : PayloadTo r node i j.payload

variable {r : Renumbering} {l : Liveness} {node : Nat}

/-- From position `pos` on, the number of an unread destination counts those before it. -/
theorem DestsTo.unread_at {pos spare : Nat} {ds es : List Dest} (h : DestsTo r l node pos spare ds es)
    (hreg : ∀ k, ds[k]? = some .acc → l.isUnread node (pos + k) = false) {k : Nat} {b : Dest} (hb : es[k]? = some b)
    (hu : l.isUnread node (pos + k) = true) :
    ∃ new : UInt16, b = .reg new ∧
      new.toNat = r.registers.size + spare + (List.range k).countP fun j => l.isUnread node (pos + j) := by
  have shift {pos k : Nat} : (List.range (k + 1)).countP (fun j => l.isUnread node (pos + j)) =
      (if l.isUnread node pos then 1 else 0) + (List.range k).countP fun j => l.isUnread node (pos + 1 + j) := by
    rw [List.range_succ_eq_map, List.countP_cons, List.countP_map, Nat.add_comm]
    simp [Function.comp_def, Nat.add_assoc, Nat.add_comm 1]
  have next (pos k : Nat) : l.isUnread node (pos + 1 + k) = l.isUnread node (pos + (k + 1)) := by
    rw [Nat.add_assoc, Nat.add_comm 1]
  induction h generalizing k with
  | nil => cases hb
  | acc _ ih =>
    have h0 := hreg 0 rfl
    cases k with
    | zero =>
      rw [h0] at hu
      cases hu
    | succ k =>
      obtain ⟨new, hn, e⟩ := ih (fun j hj => (next _ j).trans (hreg (j + 1) hj)) hb ((next _ k).trans hu)
      refine ⟨new, hn, ?_⟩
      rw [Nat.add_zero] at h0
      rw [e, shift, h0]
      simp
  | unread hun hle _ ih =>
    cases k with
    | zero =>
      cases hb
      refine ⟨_, rfl, ?_⟩
      rw [UInt16.toNat_ofNat_of_lt' (by unfold UInt16.size; omega)]
      simp
    | succ k =>
      obtain ⟨new, hn, e⟩ := ih (fun j hj => (next _ j).trans (hreg (j + 1) hj)) hb ((next _ k).trans hu)
      refine ⟨new, hn, ?_⟩
      rw [e, shift, hun, if_pos rfl]
      omega
  | kept hun _ _ ih =>
    cases k with
    | zero =>
      rw [Nat.add_zero, hun] at hu
      cases hu
    | succ k =>
      obtain ⟨new, hn, e⟩ := ih (fun j hj => (next _ j).trans (hreg (j + 1) hj)) hb ((next _ k).trans hu)
      refine ⟨new, hn, ?_⟩
      rw [e, shift, hun]
      simp

theorem Renumbered.renamed {i j : Instruction} (h : Renumbered r l node i j)
    (hreg : ∀ k, i.dests[k]? = some .acc → l.isUnread node k = false) : Renamed r l node i j := by
  refine ⟨h.opcode, h.sources, h.dests.length_eq, fun k a b ha hb => ?_, h.payload⟩
  obtain ⟨b', hb', hd⟩ := h.dests.dest_at ha
  rw [hb] at hb'
  cases hb'
  rw [Nat.zero_add] at hd
  cases hd with
  | acc => exact .acc
  | kept hu hn => exact .kept hu hn
  | unread hu _ =>
    obtain ⟨new, e, hnew⟩ := h.dests.unread_at (by simpa using hreg) hb (by simpa using hu)
    cases e
    exact .unread hu (by simpa using hnew)

/-! ## Offsets -/

theorem stepOffsets_eq (base offset : Nat) (fedBy : Option Nat) (is : List Instruction) :
    stepOffsets offset is = (Program.stepNodes base offset fedBy is).map Node.offset := by
  induction is generalizing base offset fedBy with
  | nil => rfl
  | cons i is ih => rw [stepOffsets, ih]; rfl

theorem itemOffsets_eq (base offset : Nat) (item : Stream.Item) :
    itemOffsets offset item = (Program.itemNodes base offset item).map Node.offset := by
  cases item <;> exact stepOffsets_eq ..

def placeItem (acc : Array (Option Nat) × Nat) (x : List Nat × Stream.Item) : Array (Option Nat) × Nat :=
  (Program.setAll acc.1 (x.1.zip ((itemOffsets acc.2 x.2).map some)), acc.2 + x.2.width)

theorem placements_eq_foldl (size : Nat) (chains : List (List Nat)) (items : List Stream.Item) :
    placements size chains items = ((chains.zip items).foldl placeItem (Array.replicate size none, 0)).1 := by
  unfold placements
  congr 2
  funext acc x
  show (_, _) = (_, _)
  rw [Program.setAll, List.zip_map_right, List.foldl_map]
  rfl

theorem foldl_placeItem {chains : List (List Nat)} {items : List Stream.Item}
    (h : List.Forall₂ (fun chain (item : Stream.Item) => chain.length = item.instructions.length) chains items)
    (placed : Array (Option Nat)) (base offset : Nat) :
    ((chains.zip items).foldl placeItem (placed, offset)).1 =
      Program.setAll placed (chains.flatten.zip ((Program.nodesFrom base offset items).map fun n => some n.offset)) := by
  induction h generalizing placed base offset with
  | nil => rfl
  | @cons chain item chains items hl _ ih =>
    have hone : placeItem (placed, offset) (chain, item) =
        (Program.setAll placed (chain.zip ((Program.itemNodes base offset item).map fun n => some n.offset)),
          offset + item.width) := by
      rw [placeItem, itemOffsets_eq base, List.map_map]
      rfl
    rw [List.zip_cons_cons, List.foldl_cons, hone, ih _ (base + item.instructions.length), List.flatten_cons,
      Program.nodesFrom, List.map_append, List.zip_append (by rw [List.length_map, Program.length_itemNodes, hl])]
    exact List.foldl_append.symm

/-- Each node of the chains is placed where its instruction stands. -/
theorem placements_eq {size : Nat} {chains : List (List Nat)} {items : List Stream.Item}
    (h : List.Forall₂ (fun chain (item : Stream.Item) => chain.length = item.instructions.length) chains items) :
    placements size chains items = Program.setAll (Array.replicate size none)
      (chains.flatten.zip ((Program.ofItems items).toList.map fun n => some n.offset)) := by
  rw [placements_eq_foldl, foldl_placeItem h _ 0, Program.toList_ofItems]

end Emission

namespace Compile

open Program

/-- What a compiled stream reads back as, against the program that it was emitted from. -/
structure Reproduced (o : Optimized) (c : Compiled) (d : Stream.Decoded) : Prop where
  size : d.program.size = o.order.length
  /-- Instruction `x` is the renamed node `x` of the order and stands where that node was placed. -/
  nodes : ∀ x i : Nat, o.order[x]? = some i →
    ∃ n b, o.program[i]? = some n ∧ d.program[x]? = some b ∧
      Emission.Renamed c.renumbering o.live i n.instr b.instr ∧ c.placed[i]? = some (some b.offset)
  /-- Neighbours are linked just if their nodes are. -/
  links : ∀ (x i i' : Nat) (n n' b b' : Node), o.order[x]? = some i → o.order[x + 1]? = some i' →
    o.program[i]? = some n → o.program[i']? = some n' → d.program[x]? = some b → d.program[x + 1]? = some b' →
      (b.feeds = some ((x + 1 : Nat) : Int) ↔ n.feeds = some (i' : Int)) ∧ (b'.fedBy = some x ↔ n'.fedBy = some i)
  dropped : ∀ i < o.program.size, o.live.isLive i = false → c.placed[i]? = some none
  empty : c.image.code = [] ↔ ∀ i < o.program.size, o.live.isLive i = false
  closed : c.image.code ≠ [] → c.image.code.getLast? = some Opcode.done.byte ∧ d.doneAt = some (c.image.code.length - 1)
  calls : d.calls.toList.map functionRow = c.image.functions

section Emitted

variable {settings : Settings} {d : Stream.Decoded} {o : Optimized} {c : Compiled} {e : Emission}
  (h : Optimum settings d o) (hw : Written settings o c e)

include hw

theorem placed_eq : c.placed = setAll (Array.replicate o.program.size none)
    (o.order.zip (e.program.toList.map fun n => some n.offset)) := by
  obtain ⟨-, hitems, -, he⟩ := Emission.ofChains_ok_iff.mp hw.emitted
  have hlen : List.Forall₂ (fun chain (item : Stream.Item) => chain.length = item.instructions.length)
      (o.program.chains o.live) e.items := by
    refine hitems.imp fun chain item hi => ?_
    obtain ⟨-, is, his, rfl⟩ := Emission.item_ok_iff.mp hi
    rw [Emission.instructions_itemOf, his.length_eq]
  have hplaced : e.placed = Emission.placements o.program.size (o.program.chains o.live) e.items := by rw [he]
  rw [hw.placed, hplaced, Emission.placements_eq hlen]
  rfl

include h

/-- A node of the order is placed where its instruction is read. -/
theorem placed_at {x i : Nat} {b : Node} (hx : o.order[x]? = some i) (hb : e.program[x]? = some b) :
    c.placed[i]? = some (some b.offset) := by
  have hl : (e.program.toList.map fun n => some n.offset).length = o.order.length := by
    rw [List.length_map, Array.length_toList, size_program hw]
  have hi := ((mem_order_iff h.handed).mp (List.mem_of_getElem? hx)).1
  rw [placed_eq hw]
  refine getElem?_setAll ?_ ?_ (by simpa using hi)
  · rw [List.map_fst_zip (by omega)]
    exact nodup_order h.handed
  · refine List.mem_of_getElem? (i := x) ?_
    rw [List.getElem?_zip_eq_some]
    exact ⟨hx, by simp [hb]⟩

theorem placed_dropped {i : Nat} (hi : i < o.program.size) (hd : o.live.isLive i = false) :
    c.placed[i]? = some none := by
  rw [placed_eq hw, getElem?_setAll_of_not_mem]
  · simp [hi]
  · intro hm
    obtain ⟨entry, he, rfl⟩ := List.mem_map.mp hm
    have := ((mem_order_iff h.handed).mp (List.of_mem_zip he).1).2
    rw [hd] at this
    cases this

omit hw in
/-- Only the register results of a call are marked unread. -/
theorem isUnread_acc {i k : Nat} {n : Node} (hn : o.program[i]? = some n) (hk : n.instr.dests[k]? = some .acc) :
    o.live.isUnread i k = false := by
  rw [← Bool.not_eq_true]
  intro hu
  have hu : k ∈ o.live.unread.getD i [] := by simpa [Liveness.isUnread] using hu
  rcases h.sound.unread i with he | he
  · rw [he] at hu
    cases hu
  · rw [he] at hu
    obtain ⟨m, x, hm, hc, -⟩ := Liveness.mem_unreadAt.mp hu
    -- The node is a call, and a call has no accumulator among its results.
    obtain ⟨hop, -⟩ := h.handed.same i m n hm hn
    have hcat : n.instr.category ≠ .compute := by
      rw [Instruction.category, hop]
      intro hcompute
      rw [Instruction.category, hcompute] at hc
      cases hc
    exact hcat ((h.handed.formed.fits i n hn).of_acc_mem_dests (List.mem_of_getElem? hk)).1

/-! ## Links -/

omit h hw in
theorem feeds_eq_some_iff {n : Node} {j : Nat} : n.feeds = some (j : Int) ↔ n.target? = some j := by
  unfold Node.target?
  cases n.feeds with
  | none => simp
  | some z =>
    simp only [Option.some.injEq, Option.bind_some]
    constructor
    · intro hz
      rw [hz]
      rfl
    · intro hz
      cases z with
      | ofNat k => cases hz; rfl
      | negSucc k => cases hz

theorem feeds_reread {x i i' : Nat} {n b : Node} (hx : o.order[x]? = some i) (hx' : o.order[x + 1]? = some i')
    (hn : o.program[i]? = some n) (hb : e.program[x]? = some b) :
    b.feeds = some ((x + 1 : Nat) : Int) ↔ n.feeds = some (i' : Int) := by
  have hnext := next?_reread h hw hx
  rw [feeds_eq_some_iff, feeds_eq_some_iff, ← next?_eq hb, ← next?_eq hn, ← hnext]
  constructor
  · intro hb
    rw [hb, Option.map_some, nodeAt_eq hx']
  · intro hi
    obtain ⟨y, hy, -⟩ := Option.map_eq_some_iff.mp hi
    rw [hy, (grouped_program h hw).next_eq_succ hy]

theorem fedBy_reread {x i i' : Nat} {n' b' : Node} (hx : o.order[x]? = some i) (hx' : o.order[x + 1]? = some i')
    (hn : o.program[i']? = some n') (hb : e.program[x + 1]? = some b') :
    b'.fedBy = some x ↔ n'.fedBy = some i := by
  have hprev := prev?_reread h hw hx'
  rw [← prev?_eq hb, ← prev?_eq hn, ← hprev]
  constructor
  · intro hb
    rw [hb, Option.map_some, nodeAt_eq hx]
  · intro hi
    obtain ⟨y, hy, hyi⟩ := Option.map_eq_some_iff.mp hi
    have hlt := Nat.lt_trans ((grouped_program h hw).linked.prev_lt hy) (lt_size_of_prev? hy)
    have hyo := order_of_lt hw hlt
    rw [hyi] at hyo
    rw [hy, order_inj h.handed hyo hx]

/-! ## The end of the stream -/

theorem code_eq_nil_iff : e.code = [] ↔ ∀ i < o.program.size, o.live.isLive i = false := by
  obtain ⟨-, hitems, -, he⟩ := Emission.ofChains_ok_iff.mp hw.emitted
  have hcode : e.code = [] ↔ o.program.chains o.live = [] := by
    have hlen := hitems.length_eq
    rw [he, Emission.codeOf]
    constructor
    · intro hc
      split at hc
      · rename_i hempty
        rw [List.isEmpty_iff.mp hempty] at hlen
        exact List.length_eq_zero_iff.mp hlen
      · simp at hc
    · intro hc
      rw [hc] at hlen
      rw [if_pos (List.isEmpty_iff.mpr (List.length_eq_zero_iff.mp hlen.symm))]
  rw [hcode]
  constructor
  · intro hc i hi
    rw [← Bool.not_eq_true]
    intro hlive
    have := (mem_order_iff h.handed).mpr ⟨hi, hlive⟩
    rw [emissionOrder, hc] at this
    cases this
  · intro hdead
    rw [chains, List.map_eq_nil_iff, List.eq_nil_iff_forall_not_mem]
    intro root hroot
    obtain ⟨hlt, hlive, -⟩ := (mem_liveRoots h.handed.linked).mp hroot
    rw [hdead root hlt] at hlive
    cases hlive

omit h in
theorem code_closed (hne : e.code ≠ []) : e.code = Stream.Script.encode ⟨e.items, true⟩ := by
  obtain ⟨-, -, -, he⟩ := Emission.ofChains_ok_iff.mp hw.emitted
  have hcode : e.code = Emission.codeOf e.items := by rw [he]
  rw [hcode, Emission.codeOf] at hne ⊢
  split
  · rename_i hempty
    rw [if_pos hempty] at hne
    exact absurd rfl hne
  · rfl

omit h in
theorem doneAt_emitted {functions : Nat} {d' : Stream.Decoded} (hne : e.code ≠ [])
    (hd : Stream.decode e.code functions = .ok d') (hi : d'.items = e.items) :
    d'.doneAt = some (e.code.length - 1) := by
  obtain ⟨-, -, -, closed, hdone, ha⟩ := Stream.decode_eq_ok_iff.mp hd
  have hlen := ha.length_eq
  rw [hi] at hdone hlen
  rw [← hlen.1, code_closed hw hne] at hlen
  cases closed with
  | true => rw [hdone, Stream.Script.doneFrom_zero, ← code_closed hw hne]; rfl
  | false => simp [Stream.Script.encode] at hlen

end Emitted

/-- What is emitted is read back as the nodes that survive, renumbered, each where it was placed. -/
theorem compile_reads_back {code : Bytes} {functions : UInt32} {settings : Settings} {c : Compiled}
    (h : compile code functions settings = .ok c) :
    ∃ o d, read code functions settings = .ok o ∧ c.program = o.program ∧
      Stream.decode c.image.code functions.toNat = .ok d ∧ Reproduced o c d := by
  obtain ⟨o, ho, hc⟩ := compile_eq_ok_iff.mp h
  obtain ⟨d, hd, hopt⟩ := read_ok ho
  obtain ⟨e, hw⟩ := write_ok hc
  obtain ⟨hle, -, hcalls⟩ := Stream.decode_ok hd
  obtain ⟨doneAt, hdecode⟩ := decode_emitted hopt hw hle hcalls
  have hcode : c.image.code = e.code := by rw [hw.image]; rfl
  refine ⟨o, ⟨e.items, d.calls, doneAt⟩, ho, hw.program, by rw [hcode]; exact hdecode, ?_⟩
  refine ⟨size_program hw, ?_, ?_, fun i hi hdead => placed_dropped hopt hw hi hdead, ?_, ?_, ?_⟩
  · intro x i hx
    obtain ⟨n, b, hn, hb, hren⟩ := exists_reread hopt hw hx
    exact ⟨n, b, hn, hb, hren.renamed fun k hk => isUnread_acc hopt hn hk, placed_at hopt hw hx hb⟩
  · intro x i i' n n' b b' hx hx' hn hn' hb hb'
    exact ⟨feeds_reread hopt hw hx hx' hn hb, fedBy_reread hopt hw hx hx' hn' hb'⟩
  · rw [hcode]
    exact code_eq_nil_iff hopt hw
  · rw [hcode]
    intro hne
    refine ⟨?_, doneAt_emitted hw hne hdecode rfl⟩
    rw [code_closed hw hne]
    simp [Stream.Script.encode]
  · rw [hw.image]
    show _ = o.calls.toList.map functionRow
    rw [hopt.calls]

/-- The first result of a call is unread, the negated second is written to an output. -/
def spareStream : Bytes :=
  [0x02, 0, 8, 0xb0, 0, 0, 1, 2, 0, 0, 8, 0, 1, 0, 2, 0x10, 0, 0, 2, 0, 3, 0x80, 0, 0, 0, 0, 8, 0, 3, 0, 5]

theorem compile_reads_back_spare :
    ∃ c o d, compile spareStream 1 {} = .ok c ∧ c.stats.folded = 1 ∧ c.image.header.spareRegisters = 1 ∧
      read spareStream 1 {} = .ok o ∧ c.program = o.program ∧ Stream.decode c.image.code 1 = .ok d ∧
        Reproduced o c d := by
  obtain ⟨c, hc, hs⟩ := exists_of_any_ok (by decide +kernel :
    (compile spareStream 1 {}).toOption.any
      (fun c => c.stats.folded == 1 && c.image.header.spareRegisters == 1) = true)
  obtain ⟨hf, hspare⟩ := Bool.and_eq_true_iff.mp hs
  obtain ⟨o, d, hback⟩ := compile_reads_back hc
  exact ⟨c, o, d, hc, beq_iff_eq.mp hf, beq_iff_eq.mp hspare, hback⟩

end Compile

end LaneScript
