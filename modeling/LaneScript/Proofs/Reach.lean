/-
  LaneScript.Proofs.Reach — the states that optimising passes through.

  Optimising a program drops useless nodes, redirects the unread results of calls and
  folds results into their readers. `Reach` holds of every program and its marks that
  such steps lead to, taken in any number and any order; the optimised program is one
  of them (`reach_optimize`).

  Proved of every state reached (`Reach.intact`), from one step at a time:
  (1) links agree in both directions, run forwards and name nodes (`linked`);
  (2) no chain has more steps than a count byte holds (`short`). A fold joins the chain
      that ends at a node and the one that begins at its reader (`chain_link`), and its
      check measured both;
  (3) every table has an entry for each node, and what an entry names is there: a node,
      one of its sources or one of its destinations.
-/
import LaneScript.Proofs.Compile

namespace LaneScript

namespace Program

inductive Reach (limit : Nat) (q : Program) (k : Liveness) : Program → Liveness → Prop
  | start : Reach limit q k q k
  | drop {p : Program} {l : Liveness} {i : Nat} : Reach limit q k p l → l.isUseless p i = true →
      Reach limit q k p (l.kill i)
  | redirect {p : Program} {l : Liveness} {i : Nat} {n : Node} : Reach limit q k p l → p[i]? = some n →
      n.instr.category = .call →
        Reach limit q k p { l with unread := l.unread.modify i (· ++ l.unreadDests p i n.instr) }
  | fold {p : Program} {l : Liveness} {i j pos : Nat} : Reach limit q k p l → p.verdict l limit i = .fold j pos →
      Reach limit q k (p.link i j pos) l

structure Intact (p : Program) (l : Liveness) : Prop where
  linked : p.Linked
  short : ∀ i, (p.chain i).length ≤ 255
  producers : l.flow.producers.size = p.size
  readers : l.flow.readers.size = p.size
  dead : l.dead.size = p.size
  unread : l.unread.size = p.size
  /-- Every source has an entry for its producer, and a producer is a node. -/
  producer : ∀ (i : Nat) (n : Node), p[i]? = some n → (l.flow.producers.getD i []).length = n.instr.sources.length ∧
    ∀ w, some w ∈ l.flow.producers.getD i [] → w < p.size
  /-- What reads a node is a source of a later node. -/
  reader : ∀ i j pos, i < p.size → (j, pos) ∈ l.flow.readers.getD i #[] →
    i < j ∧ ∃ m, p[j]? = some m ∧ pos < m.instr.sources.length
  /-- Writers are nodes, and a search among those of a register ends within its list. -/
  writer : ∀ (r : UInt16) (ws : Array Nat), l.flow.writers[r]? = some ws →
    (∀ w ∈ ws, w < p.size) ∧ ∀ after, Liveness.countUpTo ws after ws.size 0 ws.size ≤ ws.size
  /-- What is marked unread is a destination of its node. -/
  mark : ∀ (i : Nat) (n : Node), p[i]? = some n → ∀ pos ∈ l.unread.getD i [], pos < n.instr.dests.length

variable {q p : Program} {k l : Liveness} {limit : Nat}

/-! ## Chains and folds -/

section Link

variable {i j pos : Nat} {n m : Node} (hn : p[i]? = some n) (hm : p[j]? = some m) (hij : i < j)
  (hi : p.next? i = none) (hj : p.prev? j = none)
include hn hm hij hi hj

/-- A fold puts the chain of its node in front of the chains that begin at its reader. -/
theorem chain_link (h : p.Linked) (a : Nat) :
    (p.link i j pos).chain a = if j ∈ p.chain a then p.chain i ++ p.chain a else p.chain a := by
  have hl : (p.link i j pos).Linked := linked_link h hn hm hij hi hj
  have hprev := @prev?_link p i j pos n m hn hm (Nat.ne_of_lt hij)
  induction a using Nat.strongRecOn with
  | ind a ih =>
    by_cases e : a = j
    · -- The reader itself is now fed by the node, whose own chain is too early to hold it.
      subst e
      have hni : a ∉ p.chain i := by
        intro hmem
        have := le_of_mem_chain h hmem
        omega
      rw [chain_of_prev hl (by rw [hprev, if_pos rfl]), ih i hij, if_neg hni, chain_of_first hj,
        if_pos (List.mem_singleton_self a)]
    · cases ha : p.prev? a with
      | none =>
        have hna : j ∉ p.chain a := by
          rw [chain_of_first ha, List.mem_singleton]
          exact Ne.symm e
        rw [if_neg hna, chain_of_first ha, chain_of_first (by rw [hprev, if_neg e, ha])]
      | some b =>
        have hmem : j ∈ p.chain a ↔ j ∈ p.chain b := by
          rw [chain_of_prev h ha, List.mem_append, List.mem_singleton, or_iff_left (Ne.symm e)]
        rw [chain_of_prev hl (by rw [hprev, if_neg e, ha]), ih b (h.prev_lt ha)]
        simp only [hmem]
        rw [chain_of_prev h ha]
        split
        · rw [List.append_assoc]
        · rfl

/-- The check of a fold bounds the chains that it joins. -/
theorem length_chain_link (h : p.Linked) (hs : ∀ a, (p.chain a).length ≤ 255)
    (hlen : (p.chain i).length + ((p.chain (p.root j)).dropWhile (· ≠ j)).length ≤ 255) (a : Nat) :
    ((p.link i j pos).chain a).length ≤ 255 := by
  rw [chain_link hn hm hij hi hj h]
  split
  · rename_i hmem
    have hroot : p.root a = p.root j := (root_of_mem_chain h hmem).symm
    obtain ⟨above, habove⟩ := exists_chain_append h (mem_chain_root h a)
    rw [hroot] at habove
    -- The chain of the root begins with the reader, so all of it was measured.
    rw [dropWhile_chain_root h hj, habove, List.length_append] at hlen
    rw [List.length_append]
    omega
  · exact hs a

end Link

/-! ## One step -/

theorem Intact.kill (h : Intact p l) (i : Nat) : Intact p (l.kill i) :=
  ⟨h.linked, h.short, h.producers, h.readers, by simpa [Liveness.kill] using h.dead, h.unread, h.producer, h.reader,
    h.writer, h.mark⟩

theorem lt_of_mem_unreadDests {i : Nat} {x : Instruction} {pos : Nat} (h : pos ∈ l.unreadDests p i x) :
    pos < x.dests.length := by
  obtain ⟨⟨d, a⟩, hd, e⟩ := List.mem_filterMap.mp h
  have hlt := (List.getElem?_eq_some_iff.mp (List.mk_mem_zipIdx_iff_getElem?.mp hd)).1
  cases d with
  | acc => cases e
  | reg r =>
    obtain ⟨-, e⟩ := Option.ite_none_left_eq_some.mp e
    cases e
    exact hlt

theorem Intact.redirect (h : Intact p l) {i : Nat} {n : Node} (hn : p[i]? = some n) :
    Intact p { l with unread := l.unread.modify i (· ++ l.unreadDests p i n.instr) } := by
  refine ⟨h.linked, h.short, h.producers, h.readers, h.dead, by simpa using h.unread, h.producer, h.reader, h.writer,
    fun a x hx pos hpos => ?_⟩
  have hi : i < l.unread.size := by
    rw [h.unread]
    exact lt_size_of_getElem? hn
  rw [Renumbering.getD_modify _ _ _ hi] at hpos
  split at hpos
  · rename_i e
    subst e
    rw [hn] at hx
    cases hx
    rcases List.mem_append.mp hpos with hpos | hpos
    · exact h.mark _ n hn pos hpos
    · exact lt_of_mem_unreadDests hpos
  · exact h.mark a x hx pos hpos

/-- Folding leaves every node its numbers of sources and destinations. -/
theorem operands_link {i j pos : Nat} {n m : Node} (hn : p[i]? = some n) (hm : p[j]? = some m) (hij : i ≠ j) {a : Nat}
    {x : Node} (hx : (p.link i j pos)[a]? = some x) :
    ∃ y, p[a]? = some y ∧ x.instr.sources.length = y.instr.sources.length ∧
      x.instr.dests.length = y.instr.dests.length := by
  rcases link_cases hn hm hij hx with ⟨rfl, rfl⟩ | ⟨rfl, rfl⟩ | ⟨-, -, hx⟩
  · exact ⟨n, hn, rfl, List.length_set⟩
  · exact ⟨m, hm, List.length_set, rfl⟩
  · exact ⟨x, hx, rfl, rfl⟩

theorem Intact.link (h : Intact p l) (hlimit : limit ≤ 255) {i j pos : Nat}
    (hv : p.verdict l limit i = .fold j pos) : Intact (p.link i j pos) l := by
  obtain ⟨n, m, r, hn, hc, hlen, -⟩ := verdict_eq_fold_iff.mp hv
  have hm := hc.reader
  have hread : (j, pos) ∈ l.flow.readers.getD i #[] := by
    have : (j, pos) ∈ l.liveReaders i := by rw [hc.only]; exact List.mem_singleton_self _
    exact (Liveness.mem_liveReaders.mp this).1
  have hij := (h.reader i j pos (lt_size_of_getElem? hn) hread).1
  have hi := hc.next?_eq_none hn
  have hj : p.prev? j = none := by rw [prev?_eq hm, hc.unfed]
  have hops {a : Nat} {x : Node} (hx : (p.link i j pos)[a]? = some x) :=
    operands_link hn hm (Nat.ne_of_lt hij) hx
  refine ⟨linked_link h.linked hn hm hij hi hj, ?_, ?_, ?_, ?_, ?_, fun a x hx => ?_, fun a b s ha hb => ?_, ?_,
    fun a x hx s hs => ?_⟩
  · exact length_chain_link hn hm hij hi hj h.linked h.short (Nat.le_trans hlen hlimit)
  · rw [size_link]; exact h.producers
  · rw [size_link]; exact h.readers
  · rw [size_link]; exact h.dead
  · rw [size_link]; exact h.unread
  · obtain ⟨y, hy, hlen, -⟩ := hops hx
    rw [hlen, size_link]
    exact h.producer a y hy
  · rw [size_link] at ha
    obtain ⟨hab, y, hy, hs⟩ := h.reader a b s ha hb
    obtain ⟨x, hx⟩ := exists_node (p := p.link i j pos) (by rw [size_link]; exact lt_size_of_getElem? hy : b < _)
    obtain ⟨y', hy', hlen, -⟩ := hops hx
    rw [hy] at hy'
    cases hy'
    exact ⟨hab, x, hx, by rw [hlen]; exact hs⟩
  · rw [size_link]; exact h.writer
  · obtain ⟨y, hy, -, hlen⟩ := hops hx
    rw [hlen]
    exact h.mark a y hy s hs

/-- What holds at the start holds of everything reached. -/
theorem Reach.intact (h : Reach limit q k p l) (hs : Intact q k) (hlimit : limit ≤ 255) : Intact p l := by
  induction h with
  | start => exact hs
  | drop _ _ ih => exact ih.kill _
  | redirect _ hn _ ih => exact ih.redirect hn
  | fold _ hv ih => exact ih.link hlimit hv

/-! ## The start -/

theorem chain_nodesFrom {front back : List Stream.Item} {item : Stream.Item} (hp : p = ofItems (front ++ item :: back))
    (hl : p.Linked) {a : Nat} (ha : a < item.instructions.length) :
    (p.chain ((front.flatMap Stream.Item.instructions).length + a)).length = a + 1 := by
  have hnode {a : Nat} (ha : a < item.instructions.length) :
      p[(front.flatMap Stream.Item.instructions).length + a]? = some (nodeAt front item a item.instructions[a]) := by
    rw [hp]
    exact getElem?_ofItems (List.getElem?_eq_getElem ha)
  induction a with
  | zero =>
    rw [chain_of_first (by rw [prev?_eq (hnode ha)]; rfl)]
    rfl
  | succ a ih =>
    have hprev : p.prev? ((front.flatMap Stream.Item.instructions).length + (a + 1)) =
        some ((front.flatMap Stream.Item.instructions).length + a) := by
      rw [prev?_eq (hnode ha)]
      rfl
    rw [chain_of_prev hl hprev, List.length_append, ih (by omega), List.length_singleton]

/-- Every instruction stands somewhere in one of the items. -/
theorem exists_item {items : List Stream.Item} {i : Nat} (hi : i < (items.flatMap Stream.Item.instructions).length) :
    ∃ front item back a, items = front ++ item :: back ∧ a < item.instructions.length ∧
      i = (front.flatMap Stream.Item.instructions).length + a := by
  induction items generalizing i with
  | nil => cases hi
  | cons item items ih =>
    by_cases hlt : i < item.instructions.length
    · exact ⟨[], item, items, i, rfl, hlt, (Nat.zero_add i).symm⟩
    · rw [List.flatMap_cons, List.length_append] at hi
      obtain ⟨front, item', back, a, e, ha, hia⟩ := ih (i := i - item.instructions.length) (by omega)
      refine ⟨item :: front, item', back, a, by rw [e]; rfl, ha, ?_⟩
      rw [List.flatMap_cons, List.length_append]
      omega

theorem length_instructions_le {item : Stream.Item} (h : item.WellFormed) : item.instructions.length ≤ 255 := by
  cases item with
  | plain i => exact (by decide : 1 ≤ 255)
  | group is => exact h.2.1

theorem length_chain_ofItems {items : List Stream.Item} (hw : ∀ item ∈ items, item.WellFormed) (i : Nat) :
    ((ofItems items).chain i).length ≤ 255 := by
  have hsize : (ofItems items).size = (items.flatMap Stream.Item.instructions).length := by
    rw [← map_instr_ofItems, List.length_map, Array.length_toList]
  by_cases hi : i < (ofItems items).size
  · rw [hsize] at hi
    obtain ⟨front, item, back, a, e, ha, rfl⟩ := exists_item hi
    have hle := length_instructions_le (hw item (by rw [e]; simp))
    rw [chain_nodesFrom (by rw [e]) (grouped_ofItems hw).linked ha]
    omega
  · have hnone : (ofItems items).prev? i = none := by
      rw [prev?, Array.getElem?_eq_none (Nat.le_of_not_lt hi)]
      rfl
    rw [chain_of_first hnone]
    exact (by decide : 1 ≤ 255)

theorem countUpTo_le (xs : Array Nat) (bound rounds lo span : Nat) :
    Liveness.countUpTo xs bound rounds lo span ≤ lo + span := by
  induction rounds generalizing lo span with
  | zero => exact Nat.le_add_right lo span
  | succ rounds ih =>
    rw [Liveness.countUpTo]
    split
    · omega
    · dsimp only
      split
      · exact Nat.le_trans (ih _ _) (by omega)
      · exact Nat.le_trans (ih _ _) (by omega)

/-- A program that was read, with everything taken for live. -/
theorem intact_ofItems {items : List Stream.Item} (hw : ∀ item ∈ items, item.WellFormed) {f : Flow}
    (hf : Flow.ofProgram (ofItems items) = .ok f) : Intact (ofItems items) (Liveness.ofFlow f (ofItems items)) := by
  have hlen := length_chain_ofItems hw
  have hlink := (grouped_ofItems hw).linked
  generalize ofItems items = p at hf hlen hlink ⊢
  have he := Flow.exact_ofProgram hf
  refine ⟨hlink, hlen, ?_, Flow.size_readers hf, by simp [Liveness.ofFlow], by simp [Liveness.ofFlow],
    fun i n hn => ⟨?_, fun w hw => ?_⟩, fun i j pos hi hread => ⟨?_, ?_⟩, fun r ws hr => ⟨fun w hw => ?_, fun after => ?_⟩,
    fun i n _ pos hpos => ?_⟩
  · show f.producers.size = p.size
    have := congrArg List.length he.producers
    simpa using this
  · show (f.producers.getD i []).length = _
    rw [he.producers_getD, List.length_map, sourcesOf_eq hn]
  · have hw : some w ∈ f.producers.getD i [] := hw
    rw [he.producers_getD] at hw
    obtain ⟨s, -, hs⟩ := List.mem_map.mp hw
    exact Liveness.producer_lt_size hs
  · exact Liveness.lt_of_mem_readers (l := Liveness.ofFlow f p) he hi hread
  · obtain ⟨s, hs, -⟩ := (he.mem_readers hi).mp hread
    obtain ⟨m, hm, -⟩ := mem_sourcesOf.mp (List.mem_of_getElem? hs)
    rw [sourcesOf_eq hm] at hs
    exact ⟨m, hm, (List.getElem?_eq_some_iff.mp hs).1⟩
  · have hws := he.writers r
    rw [show f.writers[r]? = some ws from hr, Option.getD_some] at hws
    rw [← Array.mem_toList_iff, hws] at hw
    exact List.mem_range.mp (List.mem_filter.mp hw).1
  · exact Nat.le_trans (countUpTo_le ws after ws.size 0 ws.size) (by omega)
  · rw [Liveness.unread_ofFlow] at hpos
    cases hpos

/-! ## The run -/

theorem Reach.sweep (h : Reach limit q k p l) (nodes : List Nat) : Reach limit q k p (l.sweep p nodes).1 := by
  suffices hs : ∀ (l : Liveness) (removed : List Nat), Reach limit q k p l →
      Reach limit q k p (nodes.foldl (Liveness.visit p) (l, removed)).1 from hs l [] h
  induction nodes with
  | nil => exact fun l removed h => h
  | cons i nodes ih =>
    intro l removed h
    rw [List.foldl_cons, Liveness.visit]
    split
    · exact ih _ _ (h.drop ‹_›)
    · exact ih _ _ h

theorem Reach.redirects (h : Reach limit q k p l) (nodes : List Nat) (redirected widest : Nat) :
    Reach limit q k p (nodes.foldl (Liveness.redirect p) (l, redirected, widest)).1 := by
  induction nodes generalizing l redirected widest with
  | nil => exact h
  | cons i nodes ih =>
    rw [List.foldl_cons]
    cases hn : p[i]? with
    | none =>
      simp only [Liveness.redirect, hn]
      exact ih h _ _
    | some n =>
      simp only [Liveness.redirect, hn]
      split
      · exact ih (h.redirect hn ‹_›) _ _
      · exact ih h _ _

theorem Reach.prune (h : Reach limit q k p l) : Reach limit q k p (l.prune p).1 := by
  rw [Liveness.prune_fst]
  exact (h.sweep _).redirects _ 0 0

theorem Reach.visits {f : Folding} (h : Reach limit q k f.program l) (nodes : List Nat) :
    Reach limit q k (nodes.foldl (Folding.visit l limit) f).program l := by
  induction nodes generalizing f with
  | nil => exact h
  | cons i nodes ih =>
    rw [List.foldl_cons]
    apply ih
    unfold Folding.visit
    split
    · exact h.fold ‹_›
    · exact h
    · exact h
    · exact h

theorem Reach.run {f : Folding} (h : Reach limit q k f.program l) (rounds : Nat) :
    Reach limit q k (f.run l limit rounds).program l := by
  induction rounds generalizing f with
  | zero => exact h
  | succ rounds ih =>
    have hr : Reach limit q k (f.round l limit).program l :=
      Reach.visits (f := { f with stats := { f.stats with rounds := f.stats.rounds + 1 } }) h _
    rw [Folding.run]
    split
    · exact hr
    · exact ih hr

end Program

namespace Compile

open Program

/-- The optimised program and its marks are reached from what was read. -/
theorem reach_optimize (settings : Settings) (d : Stream.Decoded) (f : Flow) :
    Reach settings.groupLimit.toNat d.program (Liveness.ofFlow f d.program) (optimize settings d f).program
      (optimize settings d f).live := by
  have hdrop : Reach settings.groupLimit.toNat d.program (Liveness.ofFlow f d.program) d.program
      (drop settings d.program (Liveness.ofFlow f d.program)).1 := by
    unfold drop
    split
    · exact Reach.start.prune
    · exact Reach.start
  unfold optimize
  dsimp only
  split
  · exact hdrop.run _
  · exact hdrop

end Compile

end LaneScript
