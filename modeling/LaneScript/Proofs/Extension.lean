/-
  LaneScript.Proofs.Extension — a program and what more folds make of it.

  Folding only adds links: `Extends p p'` says that every link of `p` is one of `p'`. All
  else that folding changes follows from the links. A chain grows at its beginning
  (`Extends.chain_suffix`) and a root moves to the root of its own root
  (`Extends.root_root`). A node stores to its registers as long as it feeds nothing
  (`Handed.stores_iff`), and a source is a register as long as the node it reads from
  feeds nothing (`Handed.reads_iff`); so a computation with one live reader may be folded
  while the reader is free (`canFold_of_reader`). Of two programs folded from one, the
  extended one has fewer stores and fewer reads, and a node that may be folded there may
  be folded in the other (`canFold_of_extends`).
-/
import LaneScript.Proofs.Order
import Mathlib.Logic.Relation

namespace LaneScript.Program

def Extends (p p' : Program) : Prop := ∀ i j, p.next? i = some j → p'.next? i = some j

variable {q p p' : Program} {l : Liveness} {limit : Nat}

/-! ## Links -/

namespace Extends

theorem refl (p : Program) : Extends p p := fun _ _ h => h

theorem trans {p'' : Program} (h : Extends p p') (h' : Extends p' p'') : Extends p p'' :=
  fun i j e => h' i j (h i j e)

theorem next?_eq_none (h : Extends p p') {i : Nat} (e : p'.next? i = none) : p.next? i = none := by
  refine Option.eq_none_iff_forall_ne_some.mpr fun j hj => ?_
  rw [h i j hj] at e
  cases e

section Linked

variable (h : Extends p p') (hp : p.Linked) (hp' : p'.Linked)
include h hp hp'

theorem prev? {i j : Nat} (e : p.prev? j = some i) : p'.prev? j = some i :=
  (hp'.agree i j).mp (h i j ((hp.agree i j).mpr e))

theorem prev?_eq_none {j : Nat} (e : p'.prev? j = none) : p.prev? j = none := by
  refine Option.eq_none_iff_forall_ne_some.mpr fun i hi => ?_
  rw [h.prev? hp hp' hi] at e
  cases e

/-- A node goes where its former root goes. -/
theorem root_root (i : Nat) : p'.root (p.root i) = p'.root i := by
  induction i using hp.induction with
  | last i e => rw [root_of_last e]
  | step i j e ih => rw [root_of_next hp e, ih, root_of_next hp' (h i j e)]

theorem root_le (i : Nat) : p.root i ≤ p'.root i := by
  rw [← h.root_root hp hp' i]
  exact le_root hp' (p.root i)

theorem chain_suffix (i : Nat) : p.chain i <:+ p'.chain i := by
  induction i using Nat.strongRecOn with
  | ind i ih =>
    cases e : p.prev? i with
    | none =>
      obtain ⟨front, hc, -⟩ := exists_chain_eq hp' i
      exact ⟨front, by rw [chain_of_first e, hc]⟩
    | some j =>
      obtain ⟨front, hc⟩ := ih j (hp.prev_lt e)
      exact ⟨front, by rw [chain_of_prev hp e, chain_of_prev hp' (h.prev? hp hp' e), ← hc, List.append_assoc]⟩

/-- A node has more steps above it, or as many. -/
theorem length_above_le (j : Nat) :
    ((p.chain (p.root j)).dropWhile (· ≠ j)).length ≤ ((p'.chain (p'.root j)).dropWhile (· ≠ j)).length := by
  induction j using hp.induction with
  | last j e =>
    obtain ⟨rest, hr⟩ := exists_chain_append hp' (mem_chain_root hp' j)
    have hone := dropWhile_chain_append hp j []
    rw [List.append_nil] at hone
    rw [root_of_last e, hone, hr, dropWhile_chain_append hp' j]
    simp
  | step j k e ih =>
    rw [dropWhile_chain_of_next hp e, dropWhile_chain_of_next hp' (h j k e), List.length_cons, List.length_cons]
    exact Nat.succ_le_succ ih

end Linked

end Extends

/-! ## Stores and reads -/

/-- A node keeps a value in a register as long as it feeds nothing. -/
theorem Handed.stores_iff (h : q.Handed l p) {r : UInt16} {u : Nat} :
    l.stores p r u = true ↔ l.stores q r u = true ∧ p.next? u = none := by
  constructor
  · intro hst
    have hu := h.next?_of_stores hst
    obtain ⟨hl, n, k, hn, hd, hk⟩ := Liveness.stores_iff.mp hst
    obtain ⟨m, hm⟩ := exists_node (p := q) (by rw [← h.size]; exact lt_size_of_getElem? hn)
    exact ⟨Liveness.stores_iff.mpr ⟨hl, m, k, hm, by rw [← h.dests_eq hn hm hu]; exact hd, hk⟩, hu⟩
  · rintro ⟨hst, hu⟩
    obtain ⟨hl, m, k, hm, hd, hk⟩ := Liveness.stores_iff.mp hst
    obtain ⟨n, hn⟩ := exists_node (p := p) (by rw [h.size]; exact lt_size_of_getElem? hm)
    exact Liveness.stores_iff.mpr ⟨hl, n, k, hn, by rw [h.dests_eq hn hm hu]; exact hd, hk⟩

/-- A source of a live node is a register as long as the node it reads from feeds nothing. -/
theorem Handed.reads_iff (h : q.Handed l p) (hf : l.flow.Exact q) {i k : Nat} {r : UInt16} (hi : l.isLive i = true) :
    (p.sourcesOf i)[k]? = some (.reg r) ↔
      (q.sourcesOf i)[k]? = some (.reg r) ∧ ∀ w, lastStore q.instrs (.reg r) i = some w → p.next? w = none := by
  constructor
  · intro hs
    exact ⟨h.kept i k _ hs nofun, fun w hw => h.unfolded i r w hi (List.mem_of_getElem? hs) hw⟩
  · rintro ⟨hs, hw⟩
    obtain ⟨w, e⟩ := hf.written i r (List.mem_of_getElem? hs)
    exact h.source_kept hs e (hw w e)

/-- A computation that feeds nothing and has one live reader can be folded, if the reader is fed by nothing and takes
    results there. -/
theorem canFold_of_reader (hl : l.Sound q) (h : q.Handed l p) {k j pos : Nat} {n m : Node} (hn : p[k]? = some n)
    (hc : n.instr.category = .compute) (hk : p.next? k = none) (hlive : l.isLive k = true)
    (hone : l.liveReaders k = [(j, pos)]) (hm : p[j]? = some m) (hj : p.prev? j = none)
    (hfits : m.instr.category = .compute ∨ m.instr.category = .output ∧ pos = 1) :
    ∃ r, p.CanFold l k j pos n m r := by
  have hlt : k < q.size := by
    rw [← h.size]
    exact lt_size_of_getElem? hn
  obtain ⟨x, hx⟩ := exists_node hlt
  have hmem : (j, pos) ∈ l.liveReaders k := by
    rw [hone]
    exact List.mem_singleton_self _
  obtain ⟨s, hs, hp⟩ := (hl.flow.mem_readers hlt).mp (Liveness.mem_liveReaders.mp hmem).1
  cases s with
  | const c => cases hp
  | acc => cases hp
  | reg r =>
    -- The register that the reader names is the one result of the computation.
    have hdests : n.instr.dests = [.reg r] := by
      obtain ⟨y, hy, hd⟩ := storesAt_iff.mp (lastStore_eq_some_iff.mp hp).2.1
      rw [getElem?_instrs, hx] at hy
      cases hy
      rw [← h.dests_eq hn hx hk] at hd
      have hs := (h.formed.fits k n hn).shaped
      unfold Instruction.WellShaped at hs
      cases hop : n.instr.opcode <;> rw [Instruction.category, hop] at hc <;> cases hc
      rw [hop] at hs
      obtain ⟨d, hone⟩ := List.length_eq_one_iff.mp hs.2.2
      rw [hone, List.mem_singleton] at hd
      rw [hone, hd]
    have hsource := h.source_kept hs hp hk
    rw [sourcesOf_eq hm] at hsource
    exact ⟨r, hc, hdests, hone, hm, hsource, by rw [← prev?_eq hm, hj], (h.prev?_eq_none_iff hm).mp hj, hfits,
      (h.linked.isFolded_eq_false_iff hn).mpr hk, hlive⟩

/-! ## Two programs folded from one -/

section Folded

variable (h : q.Handed l p) (h' : q.Handed l p') (he : Extends p p')
include h h' he

theorem source_of_extends (hf : l.flow.Exact q) {i k : Nat} {r : UInt16} (hi : l.isLive i = true)
    (hs : (p'.sourcesOf i)[k]? = some (.reg r)) : (p.sourcesOf i)[k]? = some (.reg r) := by
  obtain ⟨hq, hw⟩ := (h'.reads_iff hf hi).mp hs
  exact (h.reads_iff hf hi).mpr ⟨hq, fun w e => he.next?_eq_none (hw w e)⟩

theorem read_of_extends (hf : l.flow.Exact q) {i : Nat} {r : UInt16} (hi : l.isLive i = true)
    (hr : .reg r ∈ p'.sourcesOf i) : .reg r ∈ p.sourcesOf i := by
  obtain ⟨k, hk⟩ := List.getElem?_of_mem hr
  exact List.mem_of_getElem? (source_of_extends h h' he hf hi hk)

/-- What may be folded later might have been folded before. -/
theorem canFold_of_extends (hl : l.Sound q) {i j pos : Nat} {n' m' : Node} {r : UInt16} (hn' : p'[i]? = some n')
    (hc : p'.CanFold l i j pos n' m' r) : ∃ n m, p[i]? = some n ∧ p.CanFold l i j pos n m r := by
  obtain ⟨n, hn⟩ := exists_node (p := p) (by rw [h.size, ← h'.size]; exact lt_size_of_getElem? hn')
  obtain ⟨m, hm⟩ := exists_node (p := p) (by rw [h.size, ← h'.size]; exact lt_size_of_getElem? hc.reader)
  obtain ⟨x, hx⟩ := exists_node (p := q) (by rw [← h.size]; exact lt_size_of_getElem? hn)
  obtain ⟨y, hy⟩ := exists_node (p := q) (by rw [← h.size]; exact lt_size_of_getElem? hm)
  have hi := hc.next?_eq_none hn'
  have hnext : p.next? i = none := he.next?_eq_none hi
  have hprev : p.prev? j = none :=
    he.prev?_eq_none h.linked h'.linked (by rw [prev?_eq hc.reader]; exact hc.unfed)
  obtain ⟨a, ha⟩ := canFold_of_reader hl h hn (by rw [h.category_eq hn hx, ← h'.category_eq hn' hx, hc.compute]) hnext
    hc.live hc.only hm hprev (by rw [h.category_eq hm hy, ← h'.category_eq hc.reader hy]; exact hc.fits)
  -- Both have the destination that they were read with, since neither feeds a node.
  have hdests := ha.dests
  rw [h.dests_eq hn hx hnext, ← h'.dests_eq hn' hx hi, hc.dests] at hdests
  cases hdests
  exact ⟨n, m, hn, ha⟩

end Folded

/-! ## Runs of folds -/

def FoldStep (l : Liveness) (limit : Nat) (p p' : Program) : Prop :=
  ∃ i j pos, p.verdict l limit i = .fold j pos ∧ p' = p.link i j pos

abbrev FoldsTo (l : Liveness) (limit : Nat) : Program → Program → Prop := Relation.ReflTransGen (FoldStep l limit)

/-- The links after a fold. -/
theorem next?_fold (hl : l.Sound q) (h : q.Handed l p) {i j pos : Nat} (hv : p.verdict l limit i = .fold j pos) :
    p.next? i = none ∧ i < p.size ∧ ∀ k, (p.link i j pos).next? k = if k = i then some j else p.next? k := by
  obtain ⟨n, m, r, hn, hc, -, -⟩ := verdict_eq_fold_iff.mp hv
  have hij : i ≠ j := Nat.ne_of_lt (lastStore_lt (hc.producer h hl hn).1)
  exact ⟨hc.next?_eq_none hn, lt_size_of_getElem? hn, next?_link hn hc.reader hij⟩

theorem FoldStep.handed (hl : l.Sound q) (h : q.Handed l p) (hs : FoldStep l limit p p') : q.Handed l p' := by
  obtain ⟨i, j, pos, hv, rfl⟩ := hs
  obtain ⟨n, m, r, hn, hc, -, hb⟩ := verdict_eq_fold_iff.mp hv
  exact h.link hl hn hc hb

theorem FoldStep.extends (hl : l.Sound q) (h : q.Handed l p) (hs : FoldStep l limit p p') : Extends p p' := by
  obtain ⟨i, j, pos, hv, rfl⟩ := hs
  obtain ⟨hi, -, hnext⟩ := next?_fold hl h hv
  intro a b e
  rw [hnext, if_neg, e]
  rintro rfl
  rw [hi] at e
  cases e

/-- A run of folds keeps the invariant and every link. -/
theorem handed_of_foldsTo (hl : l.Sound q) (h : q.Handed l p) (hs : FoldsTo l limit p p') :
    q.Handed l p' ∧ Extends p p' := by
  induction hs with
  | refl => exact ⟨h, Extends.refl p⟩
  | tail _ hstep ih => exact ⟨hstep.handed hl ih.1, ih.2.trans (hstep.extends hl ih.1)⟩

theorem foldsTo_visit (l : Liveness) (limit : Nat) (f : Folding) (i : Nat) :
    FoldsTo l limit f.program (f.visit l limit i).program := by
  unfold Folding.visit
  split
  · exact .single ⟨i, _, _, ‹_›, rfl⟩
  · exact .refl
  · exact .refl
  · exact .refl

theorem foldsTo_visitAll (l : Liveness) (limit : Nat) (f : Folding) (nodes : List Nat) :
    FoldsTo l limit f.program (nodes.foldl (Folding.visit l limit) f).program := by
  induction nodes generalizing f with
  | nil => exact .refl
  | cons i nodes ih => exact (foldsTo_visit l limit f i).trans (ih (f.visit l limit i))

theorem foldsTo_round (l : Liveness) (limit : Nat) (f : Folding) :
    FoldsTo l limit f.program (f.round l limit).program :=
  foldsTo_visitAll l limit { f with stats := { f.stats with rounds := f.stats.rounds + 1 } } _

theorem foldsTo_run (l : Liveness) (limit rounds : Nat) (f : Folding) :
    FoldsTo l limit f.program (f.run l limit rounds).program := by
  induction rounds generalizing f with
  | zero => exact .refl
  | succ rounds ih =>
    rw [Folding.run]
    split
    · exact foldsTo_round l limit f
    · exact (foldsTo_round l limit f).trans (ih (f.round l limit))

end LaneScript.Program
