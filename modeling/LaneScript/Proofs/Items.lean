/-
  LaneScript.Proofs.Items — the program of a list of items.

  A program that was read from a stream is `Grouped`: a node feeds the next one exactly
  if it stores to the accumulator, and is fed by the one before exactly if it reads it.
  So its links can be read off its instructions, which are those of the items in order
  (`map_instr_ofItems`), and it is `Linked`.
-/
import LaneScript.Proofs.Links
import LaneScript.Proofs.Stream

namespace LaneScript

namespace Program

def stepNodes (base offset : Nat) (fedBy : Option Nat) : List Instruction → List Node
  | [] => []
  | i :: rest =>
    ⟨i, offset, if rest.isEmpty then none else some (base + 1 : Int), fedBy⟩ ::
      stepNodes (base + 1) (offset + i.width) (some base) rest

theorem toList_pushSteps (p : Program) (offset : Nat) (fedBy : Option Nat) (is : List Instruction) :
    (p.pushSteps offset fedBy is).toList = p.toList ++ stepNodes p.size offset fedBy is := by
  induction is generalizing p offset fedBy with
  | nil => simp [pushSteps, stepNodes]
  | cons i is ih =>
    rw [pushSteps, ih]
    simp [stepNodes]

theorem map_instr_stepNodes (base offset : Nat) (fedBy : Option Nat) (is : List Instruction) :
    (stepNodes base offset fedBy is).map Node.instr = is := by
  induction is generalizing base offset fedBy with
  | nil => rfl
  | cons i is ih => simp [stepNodes, ih]

theorem length_stepNodes (base offset : Nat) (fedBy : Option Nat) (is : List Instruction) :
    (stepNodes base offset fedBy is).length = is.length := by
  have := congrArg List.length (map_instr_stepNodes base offset fedBy is)
  simpa using this

/-- What stands at each position of the nodes that `pushSteps` appends. -/
theorem getElem?_stepNodes (base offset : Nat) (fedBy : Option Nat) (is : List Instruction) (k : Nat) :
    (stepNodes base offset fedBy is)[k]? = is[k]?.map fun i =>
      ⟨i, offset + total ((is.take k).map Instruction.width),
        if k + 1 < is.length then some ((base + k + 1 : Nat) : Int) else none,
        if k = 0 then fedBy else some (base + k - 1)⟩ := by
  induction is generalizing base offset fedBy k with
  | nil => rfl
  | cons i is ih =>
    cases k with
    | zero => cases is <;> simp [stepNodes]
    | succ k =>
      have hfed : (if k = 0 then some base else some (base + 1 + k - 1)) = some (base + (k + 1) - 1) := by
        split
        · subst k; rfl
        · congr 1; omega
      have hnext : base + 1 + k + 1 = base + (k + 1) + 1 := by omega
      simp only [stepNodes, List.getElem?_cons_succ, ih, hfed, hnext, List.take_succ_cons, List.map_cons, total_cons,
        Nat.add_assoc offset, List.length_cons, Nat.add_lt_add_iff_right, Nat.add_eq_zero_iff, Nat.succ_ne_self,
        and_false, if_false]

theorem of_getElem?_stepNodes {base offset k : Nat} {fedBy : Option Nat} {is : List Instruction} {n : Node}
    (h : (stepNodes base offset fedBy is)[k]? = some n) :
    is[k]? = some n.instr ∧ n.feeds = (if k + 1 < is.length then some ((base + k + 1 : Nat) : Int) else none) ∧
      n.fedBy = (if k = 0 then fedBy else some (base + k - 1)) := by
  rw [getElem?_stepNodes, Option.map_eq_some_iff] at h
  obtain ⟨i, hi, rfl⟩ := h
  exact ⟨hi, rfl, rfl⟩

/-! ## Nodes that link as their accumulator operands say -/

/-- Nodes numbered from `base` on whose links follow from their accumulator operands and stay among them. -/
structure Grouping (base : Nat) (ns : List Node) : Prop where
  feeds : ∀ (k : Nat) (n : Node), ns[k]? = some n →
    n.feeds = if .acc ∈ n.instr.dests then some ((base + k + 1 : Nat) : Int) else none
  fedBy : ∀ (k : Nat) (n : Node), ns[k]? = some n →
    n.fedBy = if .acc ∈ n.instr.sources then some (base + k - 1) else none
  handed : ∀ (k : Nat) (n : Node), ns[k]? = some n → .acc ∈ n.instr.dests →
    ∃ m, ns[k + 1]? = some m ∧ .acc ∈ m.instr.sources
  taken : ∀ (k : Nat) (n : Node), ns[k]? = some n → .acc ∈ n.instr.sources →
    ∃ k' m, k = k' + 1 ∧ ns[k']? = some m ∧ .acc ∈ m.instr.dests

theorem grouping_nil (base : Nat) : Grouping base [] := by
  constructor <;> intro k n h <;> simp at h

theorem Grouping.append {base : Nat} {ns ms : List Node} (hn : Grouping base ns)
    (hm : Grouping (base + ns.length) ms) : Grouping base (ns ++ ms) := by
  -- A position either lies in the first list or is `ns.length + k'` for one of the second.
  have split (k : Nat) (x : Node) (h : (ns ++ ms)[k]? = some x) :
      ns[k]? = some x ∨ ∃ k', k = ns.length + k' ∧ ms[k']? = some x := by
    rw [List.getElem?_append] at h
    split at h
    · exact .inl h
    · exact .inr ⟨k - ns.length, by omega, h⟩
  have left {k : Nat} {x : Node} (h : ns[k]? = some x) : (ns ++ ms)[k]? = some x := by
    rw [List.getElem?_append_left (List.getElem?_eq_some_iff.mp h).1, h]
  have right {k : Nat} {x : Node} (h : ms[k]? = some x) : (ns ++ ms)[ns.length + k]? = some x := by
    rw [List.getElem?_append_right (by omega), Nat.add_sub_cancel_left, h]
  refine ⟨fun k x h => ?_, fun k x h => ?_, fun k x h hd => ?_, fun k x h hs => ?_⟩
  · rcases split k x h with e | ⟨k', rfl, e⟩
    · exact hn.feeds k x e
    · rw [hm.feeds k' x e, Nat.add_assoc base]
  · rcases split k x h with e | ⟨k', rfl, e⟩
    · exact hn.fedBy k x e
    · rw [hm.fedBy k' x e, Nat.add_assoc]
  · rcases split k x h with e | ⟨k', rfl, e⟩
    · obtain ⟨m, e', ha⟩ := hn.handed k x e hd
      exact ⟨m, left e', ha⟩
    · obtain ⟨m, e', ha⟩ := hm.handed k' x e hd
      exact ⟨m, right e', ha⟩
  · rcases split k x h with e | ⟨k', rfl, e⟩
    · obtain ⟨j, m, rfl, e', ha⟩ := hn.taken k x e hs
      exact ⟨j, m, rfl, left e', ha⟩
    · obtain ⟨j, m, rfl, e', ha⟩ := hm.taken k' x e hs
      exact ⟨ns.length + j, m, by omega, right e', ha⟩

end Program

namespace Stream

def Item.lead : Item → Nat
  | .plain _ => 0
  | .group _ => 2

theorem HandOn.admits {pos k : Nat} {is : List Instruction} {i : Instruction} (h : HandOn pos is)
    (hi : is[k]? = some i) : (Place.of (pos + k) (is.length - (k + 1))).admits i = true := by
  induction is generalizing pos k with
  | nil => cases hi
  | cons j is ih =>
    obtain ⟨ha, h⟩ := h
    cases k with
    | zero => cases hi; simpa using ha
    | succ k =>
      have := ih h hi
      rw [Nat.add_right_comm, Nat.add_assoc] at this
      simpa [Nat.add_assoc] using this

theorem handOn_of_admits {pos : Nat} {is : List Instruction}
    (h : ∀ (k : Nat) (i : Instruction), is[k]? = some i → (Place.of (pos + k) (is.length - (k + 1))).admits i = true) :
    HandOn pos is := by
  induction is generalizing pos with
  | nil => trivial
  | cons i is ih =>
    refine ⟨by simpa using h 0 i rfl, ih fun k j hj => ?_⟩
    have := h (k + 1) j hj
    rw [List.length_cons, Nat.add_sub_add_right] at this
    rwa [Nat.add_right_comm, Nat.add_assoc]

/-- In a group, all steps but the last store to the accumulator and all but the first read it, once. -/
theorem Item.WellFormed.acc_of_group {is : List Instruction} (h : (Item.group is).WellFormed) {k : Nat}
    {i : Instruction} (hi : is[k]? = some i) :
    (.acc ∈ i.dests ↔ k + 1 < is.length) ∧ i.sources.count .acc = if k = 0 then 0 else 1 := by
  have hk := (List.getElem?_eq_some_iff.mp hi).1
  have ha := h.2.2.2.admits hi
  have h2 := h.1
  unfold Place.of at ha
  split at ha
  · rename_i h0
    obtain rfl : k = 0 := by omega
    simp only [Place.admits, Instruction.storesAcc, Bool.and_eq_true, beq_iff_eq, List.contains_iff_mem] at ha
    exact ⟨iff_of_true ha.2 (by omega), by simpa using ha.1⟩
  · rename_i h0
    rw [if_neg (by omega)]
    split at ha
    · simp only [Place.admits, Instruction.storesAcc, Bool.and_eq_true, beq_iff_eq, Bool.not_eq_true',
        List.contains_eq_mem, decide_eq_false_iff_not] at ha
      exact ⟨iff_of_false ha.2 (by omega), ha.1⟩
    · simp only [Place.admits, Instruction.storesAcc, Bool.and_eq_true, beq_iff_eq, List.contains_iff_mem] at ha
      exact ⟨iff_of_true ha.2 (by omega), ha.1⟩

theorem Item.WellFormed.no_acc_of_plain {i : Instruction} (h : (Item.plain i).WellFormed) :
    .acc ∉ i.sources ∧ .acc ∉ i.dests :=
  ⟨fun m => by simpa using (h.1.acc (.inl m)).1, fun m => by simpa using (h.1.acc (.inr m)).1⟩

/-- No instruction of a stream reads the accumulator twice. -/
theorem Item.WellFormed.count_acc_le {item : Item} (h : item.WellFormed) {i : Instruction}
    (hi : i ∈ item.instructions) : i.sources.count .acc ≤ 1 := by
  cases item with
  | plain j =>
    obtain rfl : i = j := by simpa [instructions] using hi
    rw [List.count_eq_zero_of_not_mem h.no_acc_of_plain.1]
    omega
  | group is =>
    obtain ⟨k, hk⟩ := List.getElem?_of_mem hi
    rw [(h.acc_of_group hk).2]
    split <;> omega

end Stream

namespace Program

/-! ## Programs of items -/

def itemNodes (base offset : Nat) : Stream.Item → List Node
  | .plain i => stepNodes base offset none [i]
  | .group is => stepNodes base (offset + 2) none is

theorem toList_pushItem (p : Program) (offset : Nat) (item : Stream.Item) :
    (p.pushItem offset item).toList = p.toList ++ itemNodes p.size offset item := by
  cases item <;> exact toList_pushSteps ..

theorem map_instr_itemNodes (base offset : Nat) (item : Stream.Item) :
    (itemNodes base offset item).map Node.instr = item.instructions := by
  cases item <;> exact map_instr_stepNodes ..

theorem itemNodes_eq (base offset : Nat) (item : Stream.Item) :
    itemNodes base offset item = stepNodes base (offset + item.lead) none item.instructions := by
  cases item <;> rfl

theorem grouping_itemNodes {item : Stream.Item} (h : item.WellFormed) (base offset : Nat) :
    Grouping base (itemNodes base offset item) := by
  cases item with
  | plain i =>
    obtain ⟨hs, hd⟩ := h.no_acc_of_plain
    have one (k : Nat) (n : Node) (e : (itemNodes base offset (.plain i))[k]? = some n) :
        .acc ∉ n.instr.sources ∧ .acc ∉ n.instr.dests ∧ n.feeds = none ∧ n.fedBy = none := by
      obtain ⟨hi, hf, hb⟩ := of_getElem?_stepNodes e
      obtain ⟨rfl, rfl⟩ : k = 0 ∧ i = n.instr := by cases k <;> simp_all
      exact ⟨hs, hd, by simpa using hf, by simpa using hb⟩
    exact ⟨fun k n e => by simp [one k n e], fun k n e => by simp [one k n e],
      fun k n e m => absurd m (one k n e).2.1, fun k n e m => absurd m (one k n e).1⟩
  | group is =>
    -- Which operands of step `k` are the accumulator is known from its place in the group.
    have acc {k : Nat} {i : Instruction} (hi : is[k]? = some i) := h.acc_of_group hi
    have source {k : Nat} {i : Instruction} (hi : is[k]? = some i) : .acc ∈ i.sources ↔ k ≠ 0 := by
      rw [← List.count_pos_iff, (acc hi).2]
      split <;> simp_all
    have node {k : Nat} (hk : k < is.length) : ∃ m, (itemNodes base offset (.group is))[k]? = some m ∧
        is[k]? = some m.instr := by
      have hl : k < (stepNodes base (offset + 2) none is).length := by rw [length_stepNodes]; exact hk
      exact ⟨_, List.getElem?_eq_getElem hl, (of_getElem?_stepNodes (List.getElem?_eq_getElem hl)).1⟩
    refine ⟨fun k n e => ?_, fun k n e => ?_, fun k n e m => ?_, fun k n e m => ?_⟩
    · obtain ⟨hi, hf, -⟩ := of_getElem?_stepNodes e
      simp only [hf, (acc hi).1]
    · obtain ⟨hi, -, hb⟩ := of_getElem?_stepNodes e
      by_cases h0 : k = 0
      · rw [hb, if_pos h0, if_neg (fun m => (source hi).mp m h0)]
      · rw [hb, if_neg h0, if_pos ((source hi).mpr h0)]
    · obtain ⟨hi, -, -⟩ := of_getElem?_stepNodes e
      obtain ⟨x, hx, hxi⟩ := node ((acc hi).1.mp m)
      exact ⟨x, hx, (source hxi).mpr (by omega)⟩
    · obtain ⟨hi, -, -⟩ := of_getElem?_stepNodes e
      have h0 := (source hi).mp m
      have hk := (List.getElem?_eq_some_iff.mp hi).1
      obtain ⟨x, hx, hxi⟩ := node (k := k - 1) (by omega)
      exact ⟨k - 1, x, by omega, hx, (acc hxi).1.mpr (by omega)⟩

def nodesFrom (base offset : Nat) : List Stream.Item → List Node
  | [] => []
  | item :: items =>
    itemNodes base offset item ++ nodesFrom (base + item.instructions.length) (offset + item.width) items

theorem length_itemNodes (base offset : Nat) (item : Stream.Item) :
    (itemNodes base offset item).length = item.instructions.length := by
  have := congrArg List.length (map_instr_itemNodes base offset item)
  simpa using this

theorem toList_foldl_pushItem (items : List Stream.Item) (p : Program) (offset : Nat) :
    (items.foldl (fun (p, offset) item => (pushItem p offset item, offset + item.width)) (p, offset)).1.toList =
      p.toList ++ nodesFrom p.size offset items := by
  induction items generalizing p offset with
  | nil => simp [nodesFrom]
  | cons item items ih =>
    have hs : (p.pushItem offset item).size = p.size + item.instructions.length := by
      rw [← Array.length_toList, toList_pushItem, List.length_append, length_itemNodes, Array.length_toList]
    rw [List.foldl_cons, ih, toList_pushItem, hs, List.append_assoc]
    rfl

theorem toList_ofItems (items : List Stream.Item) : (ofItems items).toList = nodesFrom 0 0 items := by
  rw [ofItems, toList_foldl_pushItem]
  rfl

theorem map_instr_nodesFrom (base offset : Nat) (items : List Stream.Item) :
    (nodesFrom base offset items).map Node.instr = items.flatMap Stream.Item.instructions := by
  induction items generalizing base offset with
  | nil => rfl
  | cons item items ih => rw [nodesFrom, List.map_append, map_instr_itemNodes, ih, List.flatMap_cons]

/-- The instructions of a program are those of its items. -/
theorem map_instr_ofItems (items : List Stream.Item) :
    (ofItems items).toList.map Node.instr = items.flatMap Stream.Item.instructions := by
  rw [toList_ofItems, map_instr_nodesFrom]

theorem grouping_nodesFrom {items : List Stream.Item} (hw : ∀ item ∈ items, item.WellFormed) (base offset : Nat) :
    Grouping base (nodesFrom base offset items) := by
  induction items generalizing base offset with
  | nil => exact grouping_nil base
  | cons item items ih =>
    apply (grouping_itemNodes (hw item List.mem_cons_self) base offset).append
    rw [length_itemNodes]
    exact ih (fun x hx => hw x (List.mem_cons_of_mem _ hx)) _ _

theorem nodesFrom_append (base offset : Nat) (items more : List Stream.Item) :
    nodesFrom base offset (items ++ more) = nodesFrom base offset items ++
      nodesFrom (base + (items.flatMap Stream.Item.instructions).length)
        (offset + total (items.map Stream.Item.width)) more := by
  induction items generalizing base offset with
  | nil => rfl
  | cons item items ih =>
    simp only [List.cons_append, nodesFrom, ih, List.append_assoc, List.flatMap_cons, List.length_append, List.map_cons,
      total_cons, Nat.add_assoc]

def nodeAt (front : List Stream.Item) (item : Stream.Item) (k : Nat) (i : Instruction) : Node :=
  let base := (front.flatMap Stream.Item.instructions).length
  { instr := i
    offset := total (front.map Stream.Item.width) + item.lead + total ((item.instructions.take k).map Instruction.width)
    feeds := if k + 1 < item.instructions.length then some ((base + k + 1 : Nat) : Int) else none
    fedBy := if k = 0 then none else some (base + k - 1) }

theorem getElem?_ofItems {front back : List Stream.Item} {item : Stream.Item} {k : Nat} {i : Instruction}
    (hi : item.instructions[k]? = some i) :
    (ofItems (front ++ item :: back))[(front.flatMap Stream.Item.instructions).length + k]? =
      some (nodeAt front item k i) := by
  have hl : (nodesFrom 0 0 front).length = (front.flatMap Stream.Item.instructions).length := by
    rw [← map_instr_nodesFrom 0 0 front, List.length_map]
  have hk := (List.getElem?_eq_some_iff.mp hi).1
  rw [← Array.getElem?_toList, toList_ofItems, nodesFrom_append, ← hl, List.getElem?_append_right (by omega),
    Nat.add_sub_cancel_left, nodesFrom, List.getElem?_append_left (by rw [length_itemNodes]; exact hk), itemNodes_eq,
    getElem?_stepNodes, hi]
  simp [nodeAt, hl]

abbrev Grouped (p : Program) : Prop := Grouping 0 p.toList

theorem grouped_ofItems {items : List Stream.Item} (hw : ∀ item ∈ items, item.WellFormed) : Grouped (ofItems items) := by
  show Grouping 0 (ofItems items).toList
  rw [toList_ofItems]
  exact grouping_nodesFrom hw 0 0

namespace Grouped

variable {p : Program}

theorem next?_eq (h : Grouped p) {i : Nat} {n : Node} (e : p[i]? = some n) :
    p.next? i = if .acc ∈ n.instr.dests then some (i + 1) else none := by
  rw [Program.next?_eq e, Node.target?, h.feeds i n (by simpa using e), Nat.zero_add]
  split <;> rfl

theorem prev?_eq (h : Grouped p) {i : Nat} {n : Node} (e : p[i]? = some n) :
    p.prev? i = if .acc ∈ n.instr.sources then some (i - 1) else none := by
  rw [Program.prev?_eq e, h.fedBy i n (by simpa using e)]
  simp

/-- Links join neighbours. -/
theorem next_eq_succ (h : Grouped p) {i j : Nat} (e : p.next? i = some j) : j = i + 1 := by
  obtain ⟨n, hn⟩ : ∃ n, p[i]? = some n := ⟨_, Array.getElem?_eq_getElem (lt_size_of_next? e)⟩
  rw [h.next?_eq hn] at e
  split at e
  · cases e; rfl
  · cases e

theorem linked (h : Grouped p) : p.Linked := by
  refine ⟨fun i j => ⟨fun e => ?_, fun e => ?_⟩, fun i j e => ?_, fun i n e hf => ?_⟩
  · obtain ⟨n, hn⟩ : ∃ n, p[i]? = some n := ⟨_, Array.getElem?_eq_getElem (lt_size_of_next? e)⟩
    rw [h.next?_eq hn] at e
    split at e
    · cases e
      rename_i hd
      obtain ⟨m, hm, hs⟩ := h.handed i n (by simpa using hn) hd
      rw [h.prev?_eq (by simpa using hm), if_pos hs]
      rfl
    · cases e
  · obtain ⟨n, hn⟩ : ∃ n, p[j]? = some n := ⟨_, Array.getElem?_eq_getElem (lt_size_of_prev? e)⟩
    rw [h.prev?_eq hn] at e
    split at e
    · cases e
      rename_i hs
      obtain ⟨k, m, rfl, hm, hd⟩ := h.taken j n (by simpa using hn) hs
      rw [Nat.add_sub_cancel, h.next?_eq (by simpa using hm), if_pos hd]
    · cases e
  · have := h.next_eq_succ e; omega
  · have hn := h.next?_eq e
    rw [Program.next?_eq e] at hn
    simp only [Node.isFolded, h.feeds i n (by simpa using e)] at hf
    split at hf
    · exact ⟨i + 1, by rw [hn, if_pos ‹_›]⟩
    · cases hf

end Grouped

/-! ## The instructions of a program -/

structure Formed (p : Program) : Prop where
  fits : ∀ (i : Nat) (n : Node), p[i]? = some n → n.instr.Fits true
  running : ∀ (i : Nat) (n : Node), p[i]? = some n → n.instr.opcode ≠ .done
  single : ∀ (i : Nat) (n : Node), p[i]? = some n → n.instr.sources.count .acc ≤ 1

theorem formed_ofItems {items : List Stream.Item} (hw : ∀ item ∈ items, item.WellFormed) : Formed (ofItems items) := by
  have found {i : Nat} {n : Node} (e : (ofItems items)[i]? = some n) :
      ∃ item ∈ items, item.WellFormed ∧ n.instr ∈ item.instructions := by
    have hm : n.instr ∈ (ofItems items).toList.map Node.instr :=
      List.mem_map.mpr ⟨n, List.mem_of_getElem? (by simpa using e), rfl⟩
    rw [map_instr_ofItems items, List.mem_flatMap] at hm
    obtain ⟨item, hi, hn⟩ := hm
    exact ⟨item, hi, hw item hi, hn⟩
  refine ⟨fun i n e => ?_, fun i n e => ?_, fun i n e => ?_⟩
  · obtain ⟨item, -, hf, hn⟩ := found e
    obtain ⟨c, hs, ha⟩ := hf.fits hn
    exact ⟨hs, fun h => ⟨rfl, (ha h).2⟩⟩
  · obtain ⟨item, -, hf, hn⟩ := found e
    cases item with
    | plain i =>
      obtain rfl : n.instr = i := by simpa [Stream.Item.instructions] using hn
      exact hf.2
    | group is =>
      intro h
      rcases (hf.2.2.1 _ hn).2 with hc | hc <;> simp [Instruction.category, h, Opcode.category] at hc
  · obtain ⟨item, -, hf, hn⟩ := found e
    exact hf.count_acc_le hn

end Program

/-- Only a computation hands its result on, and it has no other result. -/
theorem Instruction.Fits.of_acc_mem_dests {i : Instruction} {chained : Bool} (h : i.Fits chained)
    (ha : .acc ∈ i.dests) : i.category = .compute ∧ i.dests = [.acc] := by
  obtain ⟨opcode, payload, sources, dests⟩ := i
  have hs := h.shaped
  rcases (h.acc (.inr ha)).2 with hc | hc
  · refine ⟨hc, ?_⟩
    cases opcode <;> simp only [category, Opcode.category, reduceCtorEq] at hc
    obtain ⟨d, rfl⟩ := List.length_eq_one_iff.mp hs.2.2
    rw [List.mem_singleton.mp ha]
  · cases opcode <;> simp only [category, Opcode.category, reduceCtorEq] at hc
    rw [show dests = [] from hs.2.2] at ha
    cases ha

end LaneScript
