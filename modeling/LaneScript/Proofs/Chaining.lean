/-
  LaneScript.Proofs.Chaining — what a run of folds makes of a program, node by node.

  `Tracked` is what a run keeps: the folds that it noted are the links that it made, each
  between live nodes; offsets stay; and a chain that is longer than the limit is a group
  of the source in which nothing was changed. One fold keeps it (`Tracked.link`) and so
  does a run (`tracked_fold`).

  The rest is read off the links. A node that feeds what it fed in the source has the
  destinations it had there, any other has lost its one register to the accumulator
  (`rewired_dests`); it is the same with sources and the node that feeds it
  (`rewired_sources`). A fold joins live nodes only, so a dead chain is a group of the
  source, whose steps stand side by side (`Tracked.root_of_dead`, `Tracked.steady`).
-/
import LaneScript.Proofs.Reach
import LaneScript.Proofs.ReadBack
import LaneScript.Proofs.Rounds

namespace LaneScript

theorem eq_of_count_le_one {α : Type} [BEq α] [LawfulBEq α] {x : α} {xs : List α} (h : xs.count x ≤ 1) {a b : Nat}
    (ha : xs[a]? = some x) (hb : xs[b]? = some x) : a = b := by
  induction xs generalizing a b with
  | nil => cases ha
  | cons y xs ih =>
    have rest {k : Nat} (hk : xs[k]? = some x) : 0 < xs.count x := List.count_pos_iff.mpr (List.mem_of_getElem? hk)
    rw [List.count_cons] at h
    cases a with
    | zero =>
      cases b with
      | zero => rfl
      | succ b =>
        have hy : y = x := by simpa using ha
        have := rest (by simpa using hb)
        simp only [hy, beq_self_eq_true, if_true] at h
        omega
    | succ a =>
      cases b with
      | zero =>
        have hy : y = x := by simpa using hb
        have := rest (by simpa using ha)
        simp only [hy, beq_self_eq_true, if_true] at h
        omega
      | succ b =>
        have := ih (a := a) (b := b) (by omega) (by simpa using ha) (by simpa using hb)
        omega

namespace Program

variable {q p : Program} {l : Liveness} {limit : Nat} {folds : List (Nat × Nat)}

/-! ## Runs -/

/-- What every fold keeps, a run keeps. -/
theorem run_invariant {P : Program → List (Nat × Nat) → Prop}
    (step : ∀ p folds i j pos, P p folds → p.verdict l limit i = .fold j pos → P (p.link i j pos) ((i, j) :: folds))
    {f : Folding} (h : P f.program f.folds) (rounds : Nat) :
    P (f.run l limit rounds).program (f.run l limit rounds).folds := by
  have visit (f : Folding) (i : Nat) (h : P f.program f.folds) :
      P (f.visit l limit i).program (f.visit l limit i).folds := by
    unfold Folding.visit
    split
    · exact step _ _ _ _ _ h ‹_›
    · exact h
    · exact h
    · exact h
  have visitAll (nodes : List Nat) (f : Folding) (h : P f.program f.folds) :
      P (nodes.foldl (Folding.visit l limit) f).program (nodes.foldl (Folding.visit l limit) f).folds := by
    induction nodes generalizing f with
    | nil => exact h
    | cons i nodes ih => exact ih (f.visit l limit i) (visit f i h)
  induction rounds generalizing f with
  | zero => exact h
  | succ rounds ih =>
    have hround : P (f.round l limit).program (f.round l limit).folds :=
      visitAll _ { f with stats := { f.stats with rounds := f.stats.rounds + 1 } } h
    rw [Folding.run]
    split
    · exact hround
    · exact ih hround

/-- The chain that ends at `r` is one of `q`, with every node as it was. -/
structure Untouched (q p : Program) (r : Nat) : Prop where
  chain : p.chain r = q.chain r
  nodes : ∀ m ∈ p.chain r, p[m]? = q[m]?

/-- A fold between nodes of other chains leaves a chain untouched. -/
theorem Untouched.link {a i j pos : Nat} {n m : Node} (h : Untouched q p a) (hp : p.Linked) (hn : p[i]? = some n)
    (hm : p[j]? = some m) (hij : i < j) (hi : p.next? i = none) (hj : p.prev? j = none) (hia : i ∉ p.chain a)
    (hja : j ∉ p.chain a) : Untouched q (p.link i j pos) a := by
  have hchain : (p.link i j pos).chain a = p.chain a := by rw [chain_link hn hm hij hi hj hp, if_neg hja]
  refine ⟨hchain.trans h.chain, ?_⟩
  intro k hk
  rw [hchain] at hk
  have hki : k ≠ i := by
    rintro rfl
    exact hia hk
  have hkj : k ≠ j := by
    rintro rfl
    exact hja hk
  rw [getElem?_link hn hm (Nat.ne_of_lt hij), if_neg hki, if_neg hkj]
  exact h.nodes k hk

/-- `p` is what the given folds, newest first, made of `q`. -/
structure Tracked (q : Program) (l : Liveness) (limit : Nat) (p : Program) (folds : List (Nat × Nat)) : Prop where
  handed : q.Handed l p
  kept : Extends q p
  offset : ∀ i : Nat, p[i]?.map Node.offset = q[i]?.map Node.offset
  once : (folds.map Prod.fst).Nodup
  /-- The folds are the links that are new. -/
  mem_folds : ∀ i j, (i, j) ∈ folds ↔ q.next? i = none ∧ p.next? i = some j
  alive : ∀ i j, (i, j) ∈ folds → l.isLive i = true
  short : ∀ r, p.next? r = none → (p.chain r).length ≤ limit ∨ Untouched q p r

theorem tracked_self (h : q.Handed l q) : Tracked q l limit q [] := by
  refine ⟨h, Extends.refl q, fun _ => rfl, List.nodup_nil, ?_, ?_, fun r _ => .inr ⟨rfl, fun _ _ => rfl⟩⟩
  · intro i j
    refine iff_of_false List.not_mem_nil ?_
    rintro ⟨hn, hj⟩
    rw [hn] at hj
    cases hj
  · intro i j hm
    cases hm

/-- One fold is tracked by noting it. -/
theorem Tracked.link (h : Tracked q l limit p folds) (hl : l.Sound q) {i j pos : Nat}
    (hv : p.verdict l limit i = .fold j pos) : Tracked q l limit (p.link i j pos) ((i, j) :: folds) := by
  obtain ⟨n, m, r, hn, hc, hlen, hb⟩ := verdict_eq_fold_iff.mp hv
  have hlt : i < j := lastStore_lt (hc.producer h.handed hl hn).1
  have hij : i ≠ j := Nat.ne_of_lt hlt
  have hm := hc.reader
  have hi := hc.next?_eq_none hn
  have hj : p.prev? j = none := by rw [prev?_eq hm, hc.unfed]
  have hp := h.handed.linked
  have hnext := @next?_link p i j pos n m hn hm hij
  refine ⟨h.handed.link hl hn hc hb, h.kept.trans (FoldStep.extends hl h.handed ⟨i, j, pos, hv, rfl⟩), ?_, ?_, ?_, ?_, ?_⟩
  · intro k
    rw [← h.offset k, getElem?_link hn hm hij]
    by_cases e : k = i
    · rw [if_pos e, e, hn]
      rfl
    · rw [if_neg e]
      by_cases e' : k = j
      · rw [if_pos e', e', hm]
        rfl
      · rw [if_neg e']
  · refine List.nodup_cons.mpr ⟨?_, h.once⟩
    intro hmem
    obtain ⟨⟨a, b⟩, hab, rfl⟩ := List.mem_map.mp hmem
    rw [((h.mem_folds a b).mp hab).2] at hi
    cases hi
  · intro a b
    rw [List.mem_cons, h.mem_folds, hnext]
    by_cases e : a = i
    · subst e
      simp [hi, h.kept.next?_eq_none hi, eq_comm]
    · simp [e]
  · intro a b hab
    rcases List.mem_cons.mp hab with e | hab
    · cases e
      exact hc.live
    · exact h.alive a b hab
  · intro a ha
    rw [hnext] at ha
    by_cases e : a = i
    · rw [if_pos e] at ha
      cases ha
    · rw [if_neg e] at ha
      by_cases hmem : j ∈ p.chain a
      · -- The joined chain is what the check measured.
        rw [dropWhile_chain_root hp hj, (mem_chain_iff hp ha).mp hmem] at hlen
        rw [chain_link hn hm hlt hi hj hp, if_pos hmem, List.length_append]
        exact .inl hlen
      · have hia : i ∉ p.chain a := by
          rw [mem_chain_iff hp ha, root_of_last hi]
          exact Ne.symm e
        rcases h.short a ha with hle | hu
        · rw [chain_link hn hm hlt hi hj hp, if_neg hmem]
          exact .inl hle
        · exact .inr (hu.link hp hn hm hlt hi hj hia hmem)

theorem tracked_fold (hl : l.Sound q) (h : q.Handed l q) (limit : Nat) (stats : FoldStats) :
    Tracked q l limit (q.fold l limit stats).program (q.fold l limit stats).folds :=
  run_invariant (P := Tracked q l limit) (fun _ _ _ _ _ ht hv => ht.link hl hv) (f := ⟨q, stats, []⟩)
    (tracked_self h) (q.size + 1)

/-- A link was there before or is a fold. -/
theorem Tracked.link_or_fold (h : Tracked q l limit p folds) {i j : Nat} (e : p.next? i = some j) :
    q.next? i = some j ∨ (i, j) ∈ folds := by
  cases hq : q.next? i with
  | none => exact .inr ((h.mem_folds i j).mpr ⟨hq, e⟩)
  | some k =>
    have hk := h.kept i k hq
    rw [e] at hk
    cases hk
    exact .inl rfl

/-! ## Nodes -/

theorem Linked.feeds_eq (h : p.Linked) {i : Nat} {n : Node} (hn : p[i]? = some n) :
    n.feeds = (p.next? i).map Int.ofNat := by
  cases e : p.next? i with
  | some j =>
    rw [next?_eq hn] at e
    exact Compile.feeds_eq_some_iff.mpr e
  | none =>
    cases hf : n.feeds with
    | none => rfl
    | some z =>
      obtain ⟨j, hj⟩ := h.named i n hn (by simp [Node.isFolded, hf])
      rw [next?_eq hn, hj] at e
      cases e

section Nodes

variable (hq : q.Handed l q) (h : Tracked q l limit p folds) {i : Nat} {m n : Node} (hm : q[i]? = some m)
  (hn : p[i]? = some n)
include hq h hm hn

/-- A node keeps its destinations unless it was folded; then it had one, a register. -/
theorem rewired_dests : n.feeds = m.feeds ∧ n.instr.dests = m.instr.dests ∨
    m.feeds = none ∧ ∃ j r, (i, j) ∈ folds ∧ n.feeds = some (j : Int) ∧ m.instr.dests = [.reg r] ∧
      n.instr.dests = [.acc] := by
  rw [h.handed.linked.feeds_eq hn, hq.linked.feeds_eq hm]
  cases e : p.next? i with
  | none =>
    rw [h.kept.next?_eq_none e]
    exact .inl ⟨rfl, h.handed.dests_eq hn hm e⟩
  | some j =>
    have hd := (h.handed.step_of_next? hn e).2
    rcases h.link_or_fold e with hj | hfold
    · rw [hj]
      exact .inl ⟨rfl, by rw [hd, (hq.step_of_next? hm hj).2]⟩
    · have hnone := ((h.mem_folds i j).mp hfold).1
      rw [hnone]
      rcases h.handed.dests i m n hm hn with hsame | ⟨-, r, hr⟩
      · have hacc := (hq.next?_eq_none_iff hm).mp hnone
        rw [← hsame, hd] at hacc
        exact absurd (List.mem_singleton_self _) hacc
      · exact .inr ⟨rfl, j, r, hfold, rfl, hr, hd⟩

omit hq in
/-- A source that is not the accumulator is what it was. -/
theorem source_eq {k : Nat} (hk : n.instr.sources[k]? ≠ some .acc) : n.instr.sources[k]? = m.instr.sources[k]? := by
  have hlen := (h.handed.same i m n hm hn).2.2
  cases e : n.instr.sources[k]? with
  | none =>
    rw [List.getElem?_eq_none_iff] at e
    exact (List.getElem?_eq_none (by omega)).symm
  | some s =>
    have hs : s ≠ .acc := fun hs => hk (by rw [e, hs])
    have := h.handed.kept i k s (by rw [sourcesOf_eq hn]; exact e) hs
    rw [sourcesOf_eq hm] at this
    exact this.symm

omit hq in
/-- Where a node takes the accumulator at one source, the others are as they were. -/
theorem sources_eq_set {pos : Nat} (hpos : n.instr.sources[pos]? = some .acc) :
    n.instr.sources = m.instr.sources.set pos .acc := by
  have hlen := (h.handed.same i m n hm hn).2.2
  refine List.ext_getElem? ?_
  intro k
  rw [List.getElem?_set]
  by_cases e : pos = k
  · subst e
    rw [if_pos rfl, if_pos (by rw [← hlen]; exact (List.getElem?_eq_some_iff.mp hpos).1), hpos]
  · rw [if_neg e]
    exact source_eq h hm hn fun hk => e (eq_of_count_le_one (h.handed.formed.single i n hn) hpos hk)

/-- What takes the accumulator from a folded node read the register that the node stored to. -/
theorem register_of_fold {w pos : Nat} (hfold : (w, i) ∈ folds) (hpos : n.instr.sources[pos]? = some .acc) :
    ∃ k r, q[w]? = some k ∧ k.instr.dests = [.reg r] ∧ m.instr.sources[pos]? = some (.reg r) := by
  obtain ⟨hnone, hnext⟩ := (h.mem_folds w i).mp hfold
  obtain ⟨s, d, w', hs, hd, hlast, hw'⟩ := h.handed.taken i pos (by rw [sourcesOf_eq hn]; exact hpos)
  rw [(h.handed.linked.agree w i).mp hnext] at hw'
  cases hw'
  obtain ⟨x, hx⟩ := exists_node (lt_size_of_next? hnext)
  obtain ⟨k, hk⟩ := exists_node (h.handed.size ▸ lt_size_of_next? hnext)
  rcases rewired_dests hq h hk hx with ⟨hsame, -⟩ | ⟨-, j, r, -, -, hr, -⟩
  · rw [h.handed.linked.feeds_eq hx, hq.linked.feeds_eq hk, hnext, hnone] at hsame
    cases hsame
  · obtain ⟨y, hy, hmem⟩ := storesAt_iff.mp (lastStore_eq_some_iff.mp hlast).2.1
    rw [getElem?_instrs, hk] at hy
    cases hy
    rw [hr, List.mem_singleton] at hmem
    subst hmem
    rw [sourcesOf_eq hm] at hs
    cases s with
    | reg r' =>
      cases hd
      exact ⟨k, r, hk, hr, hs⟩
    | const c => cases hd
    | acc => cases hd

/-- A node keeps its sources unless another was folded into it; then one of them was the register of that node. -/
theorem rewired_sources : n.fedBy = m.fedBy ∧ n.instr.sources = m.instr.sources ∨
    m.fedBy = none ∧ ∃ w k pos r, (w, i) ∈ folds ∧ n.fedBy = some w ∧ q[w]? = some k ∧ k.instr.dests = [.reg r] ∧
      m.instr.sources[pos]? = some (.reg r) ∧ n.instr.sources = m.instr.sources.set pos .acc := by
  rw [← prev?_eq hn, ← prev?_eq hm]
  cases e : p.prev? i with
  | none =>
    have hnone : q.prev? i = none := h.kept.prev?_eq_none hq.linked h.handed.linked e
    refine .inl ⟨hnone.symm, List.ext_getElem? ?_⟩
    intro k
    exact source_eq h hm hn fun hk => (h.handed.prev?_eq_none_iff hn).mp e (List.mem_of_getElem? hk)
  | some w =>
    rcases h.link_or_fold ((h.handed.linked.agree w i).mpr e) with hold | hfold
    · -- The source that was the accumulator still is.
      have hprev := (hq.linked.agree w i).mp hold
      obtain ⟨pos, hpos⟩ := List.getElem?_of_mem ((hq.prev_iff i m hm).mp ⟨w, hprev⟩)
      have hpos' : n.instr.sources[pos]? = some .acc := by
        by_contra hne
        exact hne ((source_eq h hm hn hne).trans hpos)
      obtain ⟨hlt, hget⟩ := List.getElem?_eq_some_iff.mp hpos
      refine .inl ⟨hprev.symm, ?_⟩
      rw [sources_eq_set h hm hn hpos', ← hget, List.set_getElem_self]
    · obtain ⟨pos, hpos⟩ := List.getElem?_of_mem ((h.handed.prev_iff i n hn).mp ⟨w, e⟩)
      obtain ⟨k, r, hk, hr, hs⟩ := register_of_fold hq h hm hn hfold hpos
      have hnone : q.prev? i = none := by
        by_contra hne
        obtain ⟨w', hw'⟩ := Option.ne_none_iff_exists'.mp hne
        have hsame := h.kept.prev? hq.linked h.handed.linked hw'
        rw [e] at hsame
        cases hsame
        have hnew := ((h.mem_folds w i).mp hfold).1
        rw [(hq.linked.agree w i).mpr hw'] at hnew
        cases hnew
      exact .inr ⟨hnone, w, k, pos, r, hfold, rfl, hk, hr, hs, sources_eq_set h hm hn hpos⟩

end Nodes

/-! ## Chains -/

/-- The chains of dead nodes are those of the source. -/
theorem Tracked.root_of_dead (h : Tracked q l limit p folds) (hq : q.Linked) {i : Nat} (hi : l.isLive i = false) :
    p.root i = q.root i := by
  induction i using h.handed.linked.induction with
  | last i e => rw [root_of_last e, root_of_last (h.kept.next?_eq_none e)]
  | step i j e ih =>
    have hj : l.isLive j = false := by rw [← h.handed.live i j e, hi]
    have hnext : q.next? i = some j := by
      rcases h.link_or_fold e with hnext | hfold
      · exact hnext
      · have hlive := h.alive i j hfold
        rw [hi] at hlive
        cases hlive
    rw [root_of_next h.handed.linked e, root_of_next hq hnext, ih hj]

/-- No node is carried to its root over a store to a register that it reads. -/
theorem Tracked.steady (h : Tracked q l limit p folds) (hg : q.Grouped) {i u : Nat} {r : UInt16}
    (hr : .reg r ∈ p.sourcesOf i) (hiu : i < u) (hu : u < p.root i) : l.stores p r u = false := by
  cases hi : l.isLive i with
  | true => exact h.handed.steady i r u hi hr hiu hu
  | false =>
    rw [h.root_of_dead hg.linked hi] at hu
    have hnext := h.kept u (u + 1) (hg.root_between (Nat.le_of_lt hiu) hu)
    by_contra hst
    rw [h.handed.next?_of_stores (Bool.not_eq_false _ ▸ hst)] at hnext
    cases hnext

structure Legal (q : Program) (l : Liveness) (limit : Nat) (f : Folding) : Prop where
  size : f.program.size = q.size
  /-- A folded node computes, and its one result goes to one source of a later node that is live if it is. -/
  folded : ∀ (i : Nat) (n : Node), f.program[i]? = some n → n.isFolded = true → n.instr.category = .compute ∧
    n.instr.dests = [.acc] ∧ ∃ (j : Nat) (m : Node), n.feeds = some (j : Int) ∧ i < j ∧ f.program[j]? = some m ∧
      m.fedBy = some i ∧ l.isLive j = l.isLive i ∧ m.instr.sources.count .acc = 1 ∧
      (m.instr.category = .output → m.instr.sources[0]? ≠ some .acc)
  unfolded : ∀ (i : Nat) (n : Node), f.program[i]? = some n → n.isFolded = false → .acc ∉ n.instr.dests
  unfed : ∀ (i : Nat) (n : Node), f.program[i]? = some n → n.fedBy = none → .acc ∉ n.instr.sources
  /-- A chain is emitted at its root, and between a step and the root no register that the step reads is stored to. -/
  steady : ∀ (root : Nat) (n : Node), f.program[root]? = some n → n.isFolded = false → ∀ m ∈ f.program.chain root,
    ∀ r, .reg r ∈ f.program.sourcesOf m → ∀ u, m < u → u < root → l.stores f.program r u = false
  short : ∀ (root : Nat) (n : Node), f.program[root]? = some n → n.isFolded = false →
    2 ≤ (f.program.chain root).length → (f.program.chain root).length ≤ limit ∨ Untouched q f.program root
  same : ∀ (i : Nat) (m n : Node), q[i]? = some m → f.program[i]? = some n → n.offset = m.offset ∧
    n.instr.opcode = m.instr.opcode ∧ n.instr.category = m.instr.category ∧ n.instr.payload = m.instr.payload
  dests : ∀ (i : Nat) (m n : Node), q[i]? = some m → f.program[i]? = some n →
    n.feeds = m.feeds ∧ n.instr.dests = m.instr.dests ∨
      m.feeds = none ∧ ∃ j r, (i, j) ∈ f.folds ∧ n.feeds = some (j : Int) ∧ m.instr.dests = [.reg r] ∧
        n.instr.dests = [.acc]
  sources : ∀ (i : Nat) (m n : Node), q[i]? = some m → f.program[i]? = some n →
    n.fedBy = m.fedBy ∧ n.instr.sources = m.instr.sources ∨
      m.fedBy = none ∧ ∃ w k pos r, (w, i) ∈ f.folds ∧ n.fedBy = some w ∧ q[w]? = some k ∧
        k.instr.dests = [.reg r] ∧ m.instr.sources[pos]? = some (.reg r) ∧
        n.instr.sources = m.instr.sources.set pos .acc

theorem Tracked.legal {f : Folding} (h : Tracked q l limit f.program f.folds) (hg : q.Grouped) (hq : q.Handed l q) :
    Legal q l limit f := by
  have hp := h.handed.linked
  have hlast {i : Nat} {n : Node} (hn : f.program[i]? = some n) := (hp.isFolded_eq_false_iff hn).mp
  refine ⟨h.handed.size, ?_, ?_, ?_, ?_, ?_, ?_, fun i m n hm hn => rewired_dests hq h hm hn,
    fun i m n hm hn => rewired_sources hq h hm hn⟩
  · intro i n hn hi
    obtain ⟨j, hj⟩ := (hp.isFolded_iff hn).mp hi
    obtain ⟨hc, hd⟩ := h.handed.step_of_next? hn hj
    obtain ⟨m, hm⟩ := exists_node (hp.next_lt_size hj)
    have hprev := (hp.agree i j).mp hj
    have hpos : 0 < m.instr.sources.count .acc :=
      List.count_pos_iff.mpr ((h.handed.prev_iff j m hm).mp ⟨i, hprev⟩)
    have hle := h.handed.formed.single j m hm
    refine ⟨hc, hd, j, m, ?_, hp.forward i j hj, hm, (prev?_eq hm).symm.trans hprev, (h.handed.live i j hj).symm,
      by omega, ?_⟩
    · rw [hp.feeds_eq hn, hj]
      rfl
    · intro ho
      have hs := (h.handed.formed.fits j m hm).shaped
      unfold Instruction.WellShaped at hs
      cases hop : m.instr.opcode <;> rw [Instruction.category, hop] at ho <;> cases ho
      rw [hop] at hs
      obtain ⟨-, ⟨r, s, hsrc⟩, -⟩ := hs
      simp [hsrc]
  · intro i n hn hi
    exact (h.handed.next?_eq_none_iff hn).mp (hlast hn hi)
  · intro i n hn hi
    exact (h.handed.prev?_eq_none_iff hn).mp (by rw [prev?_eq hn, hi])
  · intro root n hn hi m hm r hr u hmu hu
    have hroot := (mem_chain_iff hp (hlast hn hi)).mp hm
    exact h.steady hg hr hmu (hroot.symm ▸ hu)
  · intro root n hn hi _
    exact h.short root (hlast hn hi)
  · intro i m n hm hn
    have hoff := h.offset i
    rw [hm, hn] at hoff
    obtain ⟨hop, hpay, -⟩ := h.handed.same i m n hm hn
    exact ⟨Option.some.inj hoff, hop, congrArg Opcode.category hop, hpay⟩

end Program

namespace Compile

open Program

/-- Folding a program that was read, with or without dropping first, leaves every chain legal and all else alone. -/
theorem fold_legal {code : Bytes} {functions : Nat} {d : Stream.Decoded} {f : Flow}
    (hd : Stream.decode code functions = .ok d) (hf : Flow.ofProgram d.program = .ok f) (settings : Settings)
    (limit : Nat) (stats : FoldStats) :
    Legal d.program (drop settings d.program (Liveness.ofFlow f d.program)).1 limit
      (d.program.fold (drop settings d.program (Liveness.ofFlow f d.program)).1 limit stats) := by
  have ho : Optimum settings d (optimize settings d f) := optimum_optimize (Stream.decode_ok hd).2.1 hf
  rw [← live_optimize]
  have hq : d.program.Handed (optimize settings d f).live d.program := handed_self ho.grouped ho.formed ho.sound
  exact (tracked_fold ho.sound hq limit stats).legal ho.grouped hq

/-- A group of three steps and a negation, each with an output of its own. -/
def abreastStream : Bytes :=
  [0x02, 0, 0, 0x0f, 3, 0x10, 0x80, 0, 0, 0, 0, 0x11, 0x82, 0, 0, 0, 0, 0x10, 0x02, 0, 0, 0, 1, 0x10, 0, 0, 0, 0, 2,
   0x80, 0, 0, 0, 0, 0, 0, 1, 0, 0, 0x80, 0, 0, 0, 0, 0, 0, 2, 0, 1]

/-- With chains of two at most the negation is folded, and the group stays as it is. -/
theorem fold_legal_abreast : ∃ d f, Stream.decode abreastStream 0 = .ok d ∧ Flow.ofProgram d.program = .ok f ∧
    (d.program.fold (Liveness.ofFlow f d.program) 2 {}).folds = [(4, 6)] ∧
    (d.program.fold (Liveness.ofFlow f d.program) 2 {}).program.chains (Liveness.ofFlow f d.program) =
      [[0], [1, 2, 3], [5], [4, 6]] ∧
    Legal d.program (Liveness.ofFlow f d.program) 2 (d.program.fold (Liveness.ofFlow f d.program) 2 {}) := by
  obtain ⟨d, hd, hflow⟩ := exists_ok_of_any (by decide +kernel : (Stream.decode abreastStream 0).toOption.any (fun d =>
    (Flow.ofProgram d.program).toOption.any fun f =>
      (d.program.fold (Liveness.ofFlow f d.program) 2 {}).folds = [(4, 6)] ∧
      (d.program.fold (Liveness.ofFlow f d.program) 2 {}).program.chains (Liveness.ofFlow f d.program) =
        [[0], [1, 2, 3], [5], [4, 6]]) = true)
  obtain ⟨f, hf, hruns⟩ := exists_ok_of_any hflow
  obtain ⟨hfolds, hchains⟩ := of_decide_eq_true hruns
  exact ⟨d, f, hd, hf, hfolds, hchains, fold_legal hd hf { prune := false } 2 {}⟩

end Compile

end LaneScript
