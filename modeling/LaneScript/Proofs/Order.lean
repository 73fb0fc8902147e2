/-
  LaneScript.Proofs.Order — the order in which live nodes are emitted.

  Nodes come in the order of their roots, and within one chain in the order of the
  program (`Before`, `pairwise_order`). Every live node comes once (`mem_order_iff`), a
  node right after the one that feeds it (`order_prev`), and nodes that something outside
  notices keep their order (`filter_order`).

  What matters for values is `Handed.no_store_between`: if a live node reads a register,
  the node it reads from comes before it and no node in between stores to that register.
-/
import LaneScript.Proofs.Fold
import Mathlib.Data.List.Sort

namespace LaneScript.Program

/-- Whether `a` is emitted before `b`. -/
def Before (p : Program) (a b : Nat) : Prop := p.root a < p.root b ∨ p.root a = p.root b ∧ a < b

variable {q p : Program} {l : Liveness}

theorem Before.asymm {a b : Nat} (h : p.Before a b) : ¬ p.Before b a := by
  unfold Before at *
  omega

theorem Before.ne {a b : Nat} (h : p.Before a b) : a ≠ b := by
  unfold Before at h
  rintro rfl
  omega

/-! ## The nodes of the order -/

theorem mem_liveRoots {i : Nat} (h : p.Linked) :
    i ∈ p.liveRoots l ↔ i < p.size ∧ l.isLive i = true ∧ p.next? i = none := by
  unfold liveRoots
  rw [List.mem_filter, List.mem_range, Bool.and_eq_true, Bool.not_eq_true']
  rw [h.any_isFolded, Option.isSome_eq_false_iff, Option.isNone_iff_eq_none]

structure Whole (p : Program) (l : Liveness) : Prop where
  linked : p.Linked
  live : ∀ i j, p.next? i = some j → l.isLive i = l.isLive j

theorem Handed.whole (h : q.Handed l p) : p.Whole l := ⟨h.linked, h.live⟩

namespace Whole

variable (h : p.Whole l)
include h

theorem live_root (i : Nat) : l.isLive (p.root i) = l.isLive i := by
  induction i using h.linked.induction with
  | last i e => rw [root_of_last e]
  | step i j e ih => rw [root_of_next h.linked e, ih, h.live i j e]

theorem root_mem_liveRoots {i : Nat} (hi : i < p.size) (hl : l.isLive i = true) : p.root i ∈ p.liveRoots l := by
  refine (mem_liveRoots h.linked).mpr ⟨root_lt_size h.linked hi, ?_, next?_root h.linked i⟩
  rw [h.live_root i]
  exact hl

theorem mem_order_iff {i : Nat} : i ∈ p.emissionOrder l ↔ i < p.size ∧ l.isLive i = true := by
  simp only [emissionOrder, chains, List.mem_flatten, List.mem_map, exists_exists_and_eq_and]
  constructor
  · rintro ⟨r, hr, hi⟩
    obtain ⟨hrs, hrl, hrn⟩ := (mem_liveRoots h.linked).mp hr
    have hroot := (mem_chain_iff h.linked hrn).mp hi
    have hle := le_root h.linked i
    rw [← h.live_root i, hroot]
    exact ⟨by omega, hrl⟩
  · rintro ⟨hi, hl⟩
    exact ⟨p.root i, h.root_mem_liveRoots hi hl, mem_chain_root h.linked i⟩

theorem pairwise_order : (p.emissionOrder l).Pairwise p.Before := by
  have roots : (p.liveRoots l).Pairwise (· < ·) := List.Pairwise.filter _ List.pairwise_lt_range
  have root {i j : Nat} (hi : i ∈ p.liveRoots l) (hj : j ∈ p.chain i) : p.root j = i :=
    (mem_chain_iff h.linked ((mem_liveRoots h.linked).mp hi).2.2).mp hj
  refine List.pairwise_flatten.mpr ⟨fun c hc => ?_, ?_⟩
  · obtain ⟨i, hi, rfl⟩ := List.mem_map.mp hc
    refine (pairwise_chain h.linked i).imp_of_mem fun {a b} ha hb hab => .inr ⟨?_, hab⟩
    rw [root hi ha, root hi hb]
  · refine List.pairwise_map.mpr (roots.imp_of_mem fun {i j} hi hj hij a ha b hb => .inl ?_)
    rw [root hi ha, root hj hb]
    exact hij

end Whole

theorem Handed.live_root (h : q.Handed l p) (i : Nat) : l.isLive (p.root i) = l.isLive i := h.whole.live_root i

theorem mem_order_iff (h : q.Handed l p) {i : Nat} : i ∈ p.emissionOrder l ↔ i < p.size ∧ l.isLive i = true :=
  h.whole.mem_order_iff

theorem pairwise_order (h : q.Handed l p) : (p.emissionOrder l).Pairwise p.Before := h.whole.pairwise_order

theorem nodup_order (h : q.Handed l p) : (p.emissionOrder l).Nodup := (pairwise_order h).imp Before.ne

/-- Positions in the order tell which node comes first. -/
theorem order_lt_iff (h : q.Handed l p) {x y a b : Nat} (hx : (p.emissionOrder l)[x]? = some a)
    (hy : (p.emissionOrder l)[y]? = some b) : x < y ↔ p.Before a b := by
  obtain ⟨hxl, rfl⟩ := List.getElem?_eq_some_iff.mp hx
  obtain ⟨hyl, rfl⟩ := List.getElem?_eq_some_iff.mp hy
  have sorted := List.pairwise_iff_getElem.mp (pairwise_order h)
  constructor
  · exact sorted x y hxl hyl
  · intro hb
    rcases Nat.lt_trichotomy x y with hlt | rfl | hgt
    · exact hlt
    · exact absurd rfl hb.ne
    · exact absurd (sorted y x hyl hxl hgt) hb.asymm

theorem order_inj (h : q.Handed l p) {x y a : Nat} (hx : (p.emissionOrder l)[x]? = some a)
    (hy : (p.emissionOrder l)[y]? = some a) : x = y :=
  (List.getElem?_inj (List.getElem?_eq_some_iff.mp hx).1 (nodup_order h)).mp (hx.trans hy.symm)

/-- A chain begins with the chain of each of its nodes. -/
theorem exists_chain_append (h : p.Linked) {i j : Nat} (hj : j ∈ p.chain i) : ∃ rest, p.chain i = p.chain j ++ rest := by
  induction i using Nat.strongRecOn with
  | ind i ih =>
    cases e : p.prev? i with
    | none =>
      rw [chain_of_first e, List.mem_singleton] at hj
      exact ⟨[], by rw [hj, List.append_nil]⟩
    | some k =>
      rw [chain_of_prev h e] at hj ⊢
      rcases List.mem_append.mp hj with hj | hj
      · obtain ⟨rest, hr⟩ := ih k (h.prev_lt e) hj
        exact ⟨rest ++ [i], by rw [hr, List.append_assoc]⟩
      · rw [List.mem_singleton.mp hj, chain_of_prev h e]
        exact ⟨[], by rw [List.append_nil]⟩

theorem dropWhile_chain_append (h : p.Linked) (j : Nat) (rest : List Nat) :
    (p.chain j ++ rest).dropWhile (· ≠ j) = j :: rest := by
  obtain ⟨front, hc, hlt⟩ := exists_chain_eq h j
  rw [hc, List.append_assoc, List.dropWhile_append_of_pos]
  · simp
  · intro a ha
    exact decide_eq_true (Nat.ne_of_lt (hlt a ha))

/-- The steps above a node are those above the node that it feeds, and the node. -/
theorem dropWhile_chain_of_next (h : p.Linked) {j k : Nat} (e : p.next? j = some k) :
    (p.chain (p.root j)).dropWhile (· ≠ j) = j :: (p.chain (p.root k)).dropWhile (· ≠ k) := by
  obtain ⟨rest, hr⟩ := exists_chain_append h (mem_chain_root h k)
  rw [root_of_next h e, hr, dropWhile_chain_append h k, chain_of_prev h ((h.agree j k).mp e), List.append_assoc,
    dropWhile_chain_append h j]
  rfl

/-- The chain of the root of an unfed node begins with it. -/
theorem dropWhile_chain_root (h : p.Linked) {j : Nat} (hj : p.prev? j = none) :
    (p.chain (p.root j)).dropWhile (· ≠ j) = p.chain (p.root j) := by
  obtain ⟨rest, hr⟩ := exists_chain_append h (mem_chain_root h j)
  rw [hr, dropWhile_chain_append h j, chain_of_first hj]
  rfl

/-- The order is some nodes, then a node and the one it feeds, then the others. -/
theorem Whole.exists_order_eq (h : p.Whole l) {a b : Nat} (hb : b < p.size) (hl : l.isLive b = true)
    (hp : p.prev? b = some a) : ∃ before after, p.emissionOrder l = before ++ a :: b :: after := by
  obtain ⟨front, back, hsplit⟩ := List.append_of_mem (h.root_mem_liveRoots hb hl)
  obtain ⟨rest, hr⟩ := exists_chain_append h.linked (mem_chain_root h.linked b)
  obtain ⟨deep, hd, -⟩ := exists_chain_eq h.linked a
  refine ⟨(front.map p.chain).flatten ++ deep, rest ++ (back.map p.chain).flatten, ?_⟩
  rw [emissionOrder, chains, hsplit]
  simp only [List.map_append, List.map_cons, List.flatten_append, List.flatten_cons, hr,
    chain_of_prev h.linked hp, hd, List.append_assoc, List.cons_append, List.nil_append]

/-- A node comes right after the one that feeds it. -/
theorem order_prev (h : q.Handed l p) {x a b : Nat} (hx : (p.emissionOrder l)[x]? = some b)
    (hp : p.prev? b = some a) : ∃ y, x = y + 1 ∧ (p.emissionOrder l)[y]? = some a := by
  obtain ⟨hb, hbl⟩ := (mem_order_iff h).mp (List.mem_of_getElem? hx)
  obtain ⟨pre, post, ho⟩ := h.whole.exists_order_eq hb hbl hp
  have hb' : (p.emissionOrder l)[pre.length + 1]? = some b := by
    rw [ho, List.getElem?_append_right (by omega)]
    simp
  refine ⟨pre.length, order_inj h hx hb', ?_⟩
  rw [ho, List.getElem?_append_right (Nat.le_refl _)]
  simp

/-! ## Nodes that are noticed -/

def noticed (p : Program) (i : Nat) : Bool := p[i]?.any fun n => !n.instr.isPure

theorem Handed.noticed_eq (h : q.Handed l p) (i : Nat) : p.noticed i = q.noticed i := by
  unfold noticed
  by_cases hi : i < p.size
  · obtain ⟨n, hn⟩ := exists_node hi
    obtain ⟨m, hm⟩ := exists_node (p := q) (by rw [← h.size]; exact hi)
    rw [hn, hm]
    simp only [Option.any_some, Instruction.isPure, Instruction.category, (h.same i m n hm hn).1]
  · rw [Array.getElem?_eq_none (Nat.le_of_not_lt hi), Array.getElem?_eq_none (by rw [← h.size]; omega)]

/-- Only pure nodes hand their result on. -/
theorem Handed.next?_of_noticed (h : q.Handed l p) {i : Nat} (hi : p.noticed i = true) : p.next? i = none := by
  obtain ⟨n, hn, hpure⟩ := (Option.any_eq_true _ _).mp hi
  by_contra hne
  obtain ⟨j, hj⟩ := Option.ne_none_iff_exists'.mp hne
  have hc := (h.step_of_next? hn hj).1
  simp [Instruction.isPure, hc] at hpure

/-- Noticed nodes are all emitted, and in the order of the program. -/
theorem filter_order (h : q.Handed l p) (hl : l.Sound q) :
    (p.emissionOrder l).filter q.noticed = (List.range q.size).filter q.noticed := by
  have e : q.noticed = p.noticed := funext fun i => (h.noticed_eq i).symm
  rw [e, ← h.size]
  refine List.Pairwise.eq_of_mem_iff (r := (· < ·)) ?_ (List.Pairwise.filter _ List.pairwise_lt_range) fun i => ?_
  · refine ((pairwise_order h).filter _).imp_of_mem fun {a b} ha hb hab => ?_
    have ha := h.next?_of_noticed (List.mem_filter.mp ha).2
    have hb := h.next?_of_noticed (List.mem_filter.mp hb).2
    simp only [Before, root_of_last ha, root_of_last hb] at hab
    omega
  · rw [List.mem_filter, List.mem_filter, mem_order_iff h, List.mem_range]
    refine and_congr_left fun hi => and_iff_left_of_imp fun _ => ?_
    rw [h.noticed_eq] at hi
    obtain ⟨n, hn, hpure⟩ := (Option.any_eq_true _ _).mp hi
    by_contra hlive
    rw [hl.pure i n hn (by simpa using hlive)] at hpure
    cases hpure

/-! ## Reads and stores -/

theorem Handed.mem_sourcesOf_of_reg (h : q.Handed l p) {m : Nat} {r : UInt16} (hr : .reg r ∈ p.sourcesOf m) :
    .reg r ∈ q.sourcesOf m := by
  obtain ⟨k, hk⟩ := List.getElem?_of_mem hr
  exact List.mem_of_getElem? (h.kept m k _ hk nofun)

theorem forM_ok {ε α : Type} {f : α → Except ε Unit} {xs : List α} (h : ∀ x ∈ xs, f x = .ok ()) :
    xs.forM f = .ok () := by
  induction xs with
  | nil => rfl
  | cons x xs ih =>
    rw [show (x :: xs).forM f = (f x >>= fun _ => xs.forM f) from rfl, h x List.mem_cons_self]
    exact ih fun y hy => h y (List.mem_cons_of_mem x hy)

/-- Only a root stores to a register. -/
theorem Handed.next?_of_stores (h : q.Handed l p) {r : UInt16} {u : Nat} (hst : l.stores p r u = true) :
    p.next? u = none := by
  obtain ⟨-, n, k, hn, hd, -⟩ := Liveness.stores_iff.mp hst
  by_contra hne
  obtain ⟨j, hj⟩ := Option.ne_none_iff_exists'.mp hne
  rw [(h.step_of_next? hn hj).2] at hd
  have := List.mem_of_getElem? hd
  simp at this

/-- A source that reads a node which feeds nothing was left as it was. -/
theorem Handed.source_kept (h : q.Handed l p) {j k i : Nat} {s : Source} (hs : (q.sourcesOf j)[k]? = some s)
    (hp : q.producerOf j s = some i) (hi : p.next? i = none) : (p.sourcesOf j)[k]? = some s := by
  obtain ⟨m, hm, -⟩ := mem_sourcesOf.mp (List.mem_of_getElem? hs)
  obtain ⟨n, hn⟩ := exists_node (p := p) (by rw [h.size]; exact lt_size_of_getElem? hm)
  have hlt : k < (p.sourcesOf j).length := by
    rw [sourcesOf_eq hn, (h.same j m n hm hn).2.2, ← sourcesOf_eq hm]
    exact (List.getElem?_eq_some_iff.mp hs).1
  have hk := List.getElem?_eq_getElem hlt
  by_cases ha : (p.sourcesOf j)[k] = .acc
  · -- Through the accumulator it would be fed by the node it reads.
    rw [ha] at hk
    obtain ⟨s', d, w, hs', hd, hw, hprev⟩ := h.taken j k hk
    rw [hs] at hs'
    cases hs'
    cases s with
    | reg r =>
      cases hd
      rw [show q.producerOf j (.reg r) = lastStore q.instrs (.reg r) j from rfl, hw] at hp
      cases hp
      rw [(h.linked.agree i j).mpr hprev] at hi
      cases hi
    | const _ | acc => cases hp
  · rw [hk, ← hs, h.kept j k _ hk ha]

theorem Handed.readsRegister_eq (h : q.Handed l p) (hf : l.flow.Exact q) {i : Nat} (hi : p.next? i = none)
    (hlt : i < q.size) {use : Nat × Nat} (hu : use ∈ l.liveReaders i) (r : UInt16) :
    Liveness.readsRegister p r use.1 use.2 = Liveness.readsRegister q r use.1 use.2 := by
  obtain ⟨s, hs, hp⟩ := (hf.mem_readers hlt).mp (Liveness.mem_liveReaders.mp hu).1
  rw [Bool.eq_iff_iff, Liveness.readsRegister_iff, Liveness.readsRegister_iff, hs, h.source_kept hs hp hi]

section Reads

variable (h : q.Handed l p) {m w : Nat} {r : UInt16} (hm : l.isLive m = true) (hr : .reg r ∈ p.sourcesOf m)
  (hw : lastStore q.instrs (.reg r) m = some w)
include h hm hr hw

theorem Handed.live_producer (hl : l.Sound q) : l.isLive w = true :=
  hl.reads m (.reg r) w (h.mem_sourcesOf_of_reg hr) hw hm

/-- The node that a live node reads from still has all its destinations, and what is read is not marked unread. -/
theorem Handed.dests_producer (hl : l.Sound q) : ∃ x y, q[w]? = some x ∧ p[w]? = some y ∧ y.instr.dests = x.instr.dests ∧
    .reg r ∈ y.instr.dests ∧ ∀ k, y.instr.dests[k]? = some (.reg r) → l.isUnread w k = false := by
  obtain ⟨-, hst, -⟩ := lastStore_eq_some_iff.mp hw
  obtain ⟨z, hz, hd⟩ := storesAt_iff.mp hst
  rw [q.getElem?_instrs, Option.map_eq_some_iff] at hz
  obtain ⟨x, hx, rfl⟩ := hz
  obtain ⟨y, hy⟩ := exists_node (p := p) (by rw [h.size]; exact lt_size_of_getElem? hx)
  have e := h.dests_eq hy hx (h.unfolded m r w hm hr hw)
  refine ⟨x, y, hx, hy, e, by rw [e]; exact hd, fun k hk => ?_⟩
  rw [e] at hk
  exact hl.isUnread_of_read hm (h.mem_sourcesOf_of_reg hr) hw hx hk

theorem Handed.before_of_read : p.Before w m := by
  have hlt := lastStore_lt hw
  have hle := le_root h.linked m
  refine .inl ?_
  rw [root_of_last (h.unfolded m r w hm hr hw)]
  omega

/-- Between a node and the one it reads from, no node of the order stores to the register. -/
theorem Handed.no_store_between {u : Nat} (hwu : p.Before w u) (hum : p.Before u m) : l.stores p r u = false := by
  rw [← Bool.not_eq_true]
  intro hst
  have hu := h.next?_of_stores hst
  have hwn := h.unfolded m r w hm hr hw
  have hlt := lastStore_lt hw
  simp only [Before, root_of_last hu, root_of_last hwn] at hwu hum
  have hle := le_root h.linked m
  obtain ⟨-, -, hlast⟩ := lastStore_eq_some_iff.mp hw
  rcases Nat.lt_trichotomy u m with hlt | rfl | hgt
  · -- It would have stored to the register after `w` in the program as well.
    have := hlast u (by omega) hlt
    rw [h.storesAt_of_stores hst] at this
    cases this
  · rw [root_of_last hu] at hum
    omega
  · -- It would stand between `m` and the place to which `m` was moved.
    rw [h.steady m r u hm hr hgt (by omega)] at hst
    cases hst

end Reads

/-! ## The check of the links -/

theorem Handed.foldedRead?_eq_none (h : q.Handed l p) (hf : l.flow.Exact q) {i : Nat} {n : Node}
    (hn : p[i]? = some n) (hi : l.isLive i = true) : p.foldedRead? l i n.instr = none := by
  refine List.findSome?_eq_none_iff.mpr fun ⟨k, r⟩ hr => ?_
  have hs : (p.sourcesOf i)[k]? = some (.reg r) := by
    rw [sourcesOf_eq hn]
    exact mem_reads.mp hr
  have hmem := List.mem_of_getElem? hs
  obtain ⟨w, hw⟩ := hf.written i r (h.mem_sourcesOf_of_reg hmem)
  have hnext := h.unfolded i r w hi hmem hw
  have hfold : (p[w]?.any Node.isFolded) = false := by
    rw [h.linked.any_isFolded, hnext]
    rfl
  dsimp only
  rw [hf.producers_getD, List.getElem?_map, h.kept i k _ hs nofun, Option.map_some, producerOf, hw]
  dsimp only
  rw [hfold]
  rfl

theorem Handed.forwardOk (h : q.Handed l p) {i : Nat} {n : Node} (hn : p[i]? = some n) (hi : l.isLive i = true) :
    p.forwardOk l i n = true := by
  rw [Program.forwardOk, ← next?_eq hn]
  cases e : p.next? i with
  | none => rfl
  | some j =>
    obtain ⟨m, hm⟩ := exists_node (h.linked.next_lt_size e)
    have hprev := (h.linked.agree i j).mp e
    rw [prev?_eq hm] at hprev
    simp [hm, hprev, h.linked.forward i j e, ← h.live i j e, hi]

theorem Handed.backwardOk (h : q.Handed l p) {i : Nat} {n : Node} (hn : p[i]? = some n) :
    p.backwardOk i n = true := by
  rw [Program.backwardOk, ← prev?_eq hn]
  cases e : p.prev? i with
  | none => rfl
  | some j =>
    have hnext := (h.linked.agree j i).mpr e
    obtain ⟨m, hm⟩ := exists_node (lt_size_of_next? hnext)
    rw [next?_eq hm] at hnext
    obtain ⟨z, hz, hzi⟩ := Option.bind_eq_some_iff.mp hnext
    simp [hm, hz, Int.mem_toNat?.mp hzi]

/-- The links of an optimised program pass the check, if no chain is too long. -/
theorem Handed.checkLinks (h : q.Handed l p) (hf : l.flow.Exact q) (hlen : ∀ c ∈ p.chains l, c.length ≤ 255) :
    p.checkLinks l = .ok () := by
  refine forM_ok fun ⟨n, i⟩ hmem => ?_
  have hn : p[i]? = some n := by
    rw [← Array.getElem?_toList]
    exact List.mk_mem_zipIdx_iff_getElem?.mp hmem
  dsimp only
  cases hi : l.isLive i with
  | false => rfl
  | true =>
    have hl : p.lengthOk i n = true := by
      rw [lengthOk, Bool.or_eq_true, decide_eq_true_iff]
      cases hfold : n.isFolded with
      | true => exact .inl rfl
      | false =>
        have hnext := (h.linked.isFolded_eq_false_iff hn).mp hfold
        exact .inr (hlen _ (List.mem_map_of_mem ((mem_liveRoots h.linked).mpr ⟨lt_size_of_getElem? hn, hi, hnext⟩)))
    simp [checkNode, h.foldedRead?_eq_none hf hn hi, h.forwardOk hn hi, h.backwardOk hn, hl]

/-! ## Entries by node -/

def setAll {α : Type} (xs : Array α) (entries : List (Nat × α)) : Array α :=
  entries.foldl (fun xs entry => xs.setIfInBounds entry.1 entry.2) xs

variable {α : Type}

theorem getElem?_setAll_of_not_mem {entries : List (Nat × α)} {i : Nat} (hi : i ∉ entries.map Prod.fst)
    (xs : Array α) : (setAll xs entries)[i]? = xs[i]? := by
  unfold setAll
  induction entries generalizing xs with
  | nil => rfl
  | cons entry entries ih =>
    obtain ⟨hne, hi⟩ := not_or.mp (mt List.mem_cons.mpr hi)
    rw [List.foldl_cons, ih hi, Array.getElem?_setIfInBounds_ne (Ne.symm hne)]

/-- Where no entry is set twice, each holds what was set. -/
theorem getElem?_setAll {entries : List (Nat × α)} (hd : (entries.map Prod.fst).Nodup) {i : Nat} {a : α}
    (hm : (i, a) ∈ entries) {xs : Array α} (hi : i < xs.size) : (setAll xs entries)[i]? = some a := by
  induction entries generalizing xs with
  | nil => cases hm
  | cons entry entries ih =>
    obtain ⟨hne, hd⟩ := List.nodup_cons.mp hd
    show (setAll (xs.setIfInBounds entry.1 entry.2) entries)[i]? = some a
    rcases List.mem_cons.mp hm with rfl | hm
    · rw [getElem?_setAll_of_not_mem hne, Array.getElem?_setIfInBounds_self_of_lt hi]
    · exact ih hd hm (by simpa using hi)

end LaneScript.Program
