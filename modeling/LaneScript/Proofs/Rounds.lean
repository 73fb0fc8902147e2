/-
  LaneScript.Proofs.Rounds — how many rounds folding takes.

  The first round visits every node from the last to the first, and most of what can be
  folded is folded then. What it passes over for good is what it finds unfit or too long:
  chains only grow and readers only fill (`verdict_of_extends`). A node that is barred by
  a store can become free later, since later visits take away the stores that bar it and
  the reads that they bar. A store behind the node was visited before it, so it can only
  be folded late as well; what starts late folds is a read that the first round took
  away from a node which it had already passed (`Settles.start`).

  So folding takes one round if it folds nothing, at most two if no node is late, and at
  most one more for each late node (`Settles`).
-/
import LaneScript.Proofs.Extension
import LaneScript.Proofs.Compile

namespace LaneScript.Program

variable {q p p' : Program} {l : Liveness} {limit : Nat}

/-! ## Verdicts -/

/-- Node `m` would move with `i` to the root of its reader, and on the way `w` stores to a register that it reads. -/
structure Bars (p : Program) (l : Liveness) (i m : Nat) (r : UInt16) (w : Nat) : Prop where
  moved : m ∈ p.chain i
  read : .reg r ∈ p.sourcesOf m
  after : m < w
  before : ∃ j pos, l.liveReaders i = [(j, pos)] ∧ w < p.root j
  stores : l.stores p r w = true

theorem verdict_of_canFold {i j pos : Nat} {n m : Node} {r : UInt16} (hn : p[i]? = some n)
    (hc : p.CanFold l i j pos n m r) : p.verdict l limit i =
      if limit < (p.chain i).length + ((p.chain (p.root j)).dropWhile (· ≠ j)).length then .blockedByLength
      else if (p.chain i).any (p.losesSource l (p.root j)) then .blockedByStore
      else .fold j pos := by
  simp only [verdict, hn, foldTarget?_eq_some_iff.mpr ⟨m, r, hc⟩]

/-- A node is barred if and only if a step of its chain loses a source on the way to the root of its reader. -/
theorem exists_bars_iff (h : q.Handed l p) (hf : l.flow.Exact q) {i j pos : Nat}
    (hone : l.liveReaders i = [(j, pos)]) :
    (∃ m r w, p.Bars l i m r w) ↔ (p.chain i).any (p.losesSource l (p.root j)) = true := by
  rw [List.any_eq_true]
  constructor
  · rintro ⟨m, r, w, hb⟩
    obtain ⟨j', pos', hone', hw⟩ := hb.before
    rw [hone] at hone'
    cases hone'
    exact ⟨m, hb.moved, losesSource_iff.mpr ⟨r, hb.read,
      (Liveness.storedBetween_iff hf fun _ => h.storesAt_of_stores).mpr ⟨w, hb.after, hw, hb.stores⟩⟩⟩
  · rintro ⟨m, hm, hloses⟩
    obtain ⟨r, hr, hb⟩ := losesSource_iff.mp hloses
    obtain ⟨w, hmw, hw, hst⟩ := (Liveness.storedBetween_iff hf fun _ => h.storesAt_of_stores).mp hb
    exact ⟨m, r, w, hm, hr, hmw, ⟨j, pos, hone, hw⟩, hst⟩

theorem exists_bars (h : q.Handed l p) (hf : l.flow.Exact q) {i : Nat} (hv : p.verdict l limit i = .blockedByStore) :
    ∃ m r w, p.Bars l i m r w := by
  unfold verdict at hv
  split at hv
  · cases hv
  · rename_i n hn
    split at hv
    · cases hv
    · rename_i j pos ht
      obtain ⟨y, a, hc⟩ := foldTarget?_eq_some_iff.mp ht
      dsimp only at hv
      split at hv
      · cases hv
      · split at hv
        · rename_i hany
          exact (exists_bars_iff h hf hc.only).mpr hany
        · cases hv

/-- A node that is folded is not barred. -/
theorem Bars.not_fold {i m w j pos : Nat} {r : UInt16} (hb : p.Bars l i m r w) (h : q.Handed l p)
    (hf : l.flow.Exact q) : p.verdict l limit i ≠ .fold j pos := by
  intro hv
  obtain ⟨n, y, a, hn, hc, -, hkeep⟩ := verdict_eq_fold_iff.mp hv
  obtain ⟨k, hk, hloses⟩ := List.any_eq_true.mp ((exists_bars_iff h hf hc.only).mp ⟨m, r, w, hb⟩)
  rw [hkeep k hk] at hloses
  cases hloses

section Folded

variable (h : q.Handed l p) (h' : q.Handed l p') (he : Extends p p')
include h h' he

/-- What is folded later was free before, or barred by a store alone. -/
theorem verdict_of_extends (hl : l.Sound q) {i j pos : Nat} (hv : p'.verdict l limit i = .fold j pos) :
    p.verdict l limit i = .fold j pos ∨ p.verdict l limit i = .blockedByStore := by
  obtain ⟨n', m', r, hn', hc', hlen, -⟩ := verdict_eq_fold_iff.mp hv
  obtain ⟨n, m, hn, hc⟩ := canFold_of_extends h h' he hl hn' hc'
  -- Both chains that the fold joins were shorter or as long.
  have hbelow := (he.chain_suffix h.linked h'.linked i).length_le
  have habove := he.length_above_le h.linked h'.linked j
  rw [verdict_of_canFold hn hc, if_neg (by omega)]
  split
  · exact .inr rfl
  · exact .inl rfl

/-- What bars a node bars it as long as the register is read and stored to. -/
theorem Bars.of_extends {i m w : Nat} {r : UInt16} (hb : p.Bars l i m r w) (hr : .reg r ∈ p'.sourcesOf m)
    (hw : p'.next? w = none) : p'.Bars l i m r w := by
  obtain ⟨j, pos, hone, hlt⟩ := hb.before
  have hle := he.root_le h.linked h'.linked j
  exact ⟨(he.chain_suffix h.linked h'.linked i).subset hb.moved, hr, hb.after, ⟨j, pos, hone, by omega⟩,
    h'.stores_iff.mpr ⟨(h.stores_iff.mp hb.stores).1, hw⟩⟩

end Folded

/-! ## Nodes folded since -/

def foldedSince (a b : Program) : List Nat :=
  (List.range a.size).filter fun i => (a.next? i).isNone && (b.next? i).isSome

theorem mem_foldedSince {a b : Program} (hs : b.size = a.size) {i : Nat} :
    i ∈ foldedSince a b ↔ a.next? i = none ∧ ∃ j, b.next? i = some j := by
  rw [foldedSince, List.mem_filter, List.mem_range, Bool.and_eq_true, Option.isNone_iff_eq_none,
    Option.isSome_iff_exists, ← hs]
  exact and_iff_right_of_imp fun ⟨_, j, hj⟩ => lt_size_of_next? hj

theorem foldedSince_self (a : Program) : foldedSince a a = [] := by
  refine List.eq_nil_iff_forall_not_mem.mpr fun i hi => ?_
  obtain ⟨h, j, hj⟩ := (mem_foldedSince rfl).mp hi
  rw [h] at hj
  cases hj

theorem length_filter_range_succ {n i : Nat} {f g : Nat → Bool} (hi : i < n) (hf : f i = false) (hg : g i = true)
    (h : ∀ k, k ≠ i → g k = f k) :
    ((List.range n).filter g).length = ((List.range n).filter f).length + 1 := by
  induction n with
  | zero => omega
  | succ n ih =>
    rw [List.range_succ, List.filter_append, List.filter_append, List.length_append, List.length_append]
    by_cases e : i = n
    · subst e
      have hrest : (List.range i).filter g = (List.range i).filter f :=
        List.filter_congr fun k hk => h k (Nat.ne_of_lt (List.mem_range.mp hk))
      simp [hrest, hf, hg]
    · rw [ih (by omega), List.filter_singleton, List.filter_singleton, h n (Ne.symm e)]
      omega

section Visits

variable (hl : l.Sound q) {f : Folding} (h : q.Handed l f.program)
include hl h

theorem handed_visit (limit i : Nat) : q.Handed l (f.visit l limit i).program := (visit_step hl h limit i).1

theorem handed_visitAll (limit : Nat) (nodes : List Nat) : q.Handed l (nodes.foldl (Folding.visit l limit) f).program :=
  (visitAll_step hl h limit nodes).1

/-- The count of folds is that of the nodes that feed something since. -/
theorem folded_visit (limit : Nat) {a : Program} (he : Extends a f.program) (hs : f.program.size = a.size) (i : Nat) :
    (f.visit l limit i).stats.folded + (foldedSince a f.program).length =
      f.stats.folded + (foldedSince a (f.visit l limit i).program).length := by
  unfold Folding.visit
  split
  · rename_i j pos hv
    obtain ⟨hi, hlt, hnext⟩ := next?_fold hl h hv
    have hone := length_filter_range_succ (n := a.size) (i := i)
      (f := fun k => (a.next? k).isNone && (f.program.next? k).isSome)
      (g := fun k => (a.next? k).isNone && ((f.program.link i j pos).next? k).isSome)
      (by omega) (by simp [hi]) (by simp [hnext, he.next?_eq_none hi]) (fun k hk => by simp [hnext, hk])
    simp only [foldedSince, hone]
    omega
  · rfl
  · rfl
  · rfl

theorem folded_visitAll (limit : Nat) {a : Program} (he : Extends a f.program) (hs : f.program.size = a.size)
    (nodes : List Nat) :
    (nodes.foldl (Folding.visit l limit) f).stats.folded + (foldedSince a f.program).length =
      f.stats.folded + (foldedSince a (nodes.foldl (Folding.visit l limit) f).program).length := by
  induction nodes generalizing f with
  | nil => rfl
  | cons i nodes ih =>
    have hone := folded_visit hl h limit he hs i
    have hv := handed_visit hl h limit i
    have hext : Extends f.program (f.visit l limit i).program := (handed_of_foldsTo hl h (foldsTo_visit l limit f i)).2
    have hrest := ih hv (he.trans hext) (by rw [hv.size, ← h.size, hs])
    rw [List.foldl_cons]
    omega

/-- Only a visit to a node makes it feed something. -/
theorem next?_visitAll {nodes : List Nat} {k : Nat} (hk : k ∉ nodes) :
    (nodes.foldl (Folding.visit l limit) f).program.next? k = f.program.next? k := by
  induction nodes generalizing f with
  | nil => rfl
  | cons i nodes ih =>
    obtain ⟨hne, hk⟩ := not_or.mp (mt List.mem_cons.mpr hk)
    rw [List.foldl_cons, ih (handed_visit hl h limit i) hk]
    unfold Folding.visit
    split
    · rename_i j pos hv
      rw [(next?_fold hl h hv).2.2, if_neg hne]
    · rfl
    · rfl
    · rfl

end Visits

theorem rounds_visitAll (nodes : List Nat) (f : Folding) :
    (nodes.foldl (Folding.visit l limit) f).stats.rounds = f.stats.rounds := by
  induction nodes generalizing f with
  | nil => rfl
  | cons i nodes ih =>
    rw [List.foldl_cons, ih]
    unfold Folding.visit
    split <;> rfl

theorem rounds_round (l : Liveness) (limit : Nat) (f : Folding) :
    (f.round l limit).stats.rounds = f.stats.rounds + 1 :=
  rounds_visitAll _ _

theorem folded_round (hl : l.Sound q) {f : Folding} (h : q.Handed l f.program) (limit : Nat) {a : Program}
    (he : Extends a f.program) (hs : f.program.size = a.size) :
    (f.round l limit).stats.folded + (foldedSince a f.program).length =
      f.stats.folded + (foldedSince a (f.round l limit).program).length :=
  folded_visitAll (f := { f with stats := { f.stats with rounds := f.stats.rounds + 1 } }) hl h limit he hs _

theorem folded_run (hl : l.Sound q) {f : Folding} (h : q.Handed l f.program) (limit : Nat) {a : Program}
    (he : Extends a f.program) (hs : f.program.size = a.size) (rounds : Nat) :
    (f.run l limit rounds).stats.folded + (foldedSince a f.program).length =
      f.stats.folded + (foldedSince a (f.run l limit rounds).program).length := by
  induction rounds generalizing f with
  | zero => rfl
  | succ rounds ih =>
    have hone := folded_round hl h limit he hs
    obtain ⟨hround, hext⟩ := handed_of_foldsTo hl h (foldsTo_round l limit f)
    rw [Folding.run]
    split
    · exact hone
    · have hrest := ih hround (he.trans hext) (by rw [hround.size, ← h.size, hs])
      omega

/-- Each round but the last folds a node. -/
theorem rounds_run {rounds : Nat} {f : Folding} (hl : l.Sound q) (h : q.Handed l f.program) (limit : Nat)
    (hr : f.program.loose < rounds) :
    f.stats.rounds + 1 ≤ (f.run l limit rounds).stats.rounds ∧
      (f.run l limit rounds).stats.rounds + f.stats.folded ≤ f.stats.rounds + 1 + (f.run l limit rounds).stats.folded ∧
        ((f.run l limit rounds).stats.rounds = f.stats.rounds + 1 ↔
          (f.run l limit rounds).stats.folded = f.stats.folded) := by
  induction rounds generalizing f with
  | zero => omega
  | succ rounds ih =>
    have hround := rounds_round l limit f
    obtain ⟨h1, h2⟩ := round_step hl h limit
    rw [Folding.run]
    rcases h2 with hs | ⟨h2, h3⟩
    · have e := (round_settled hs).2.2
      rw [if_pos e]
      omega
    · rw [if_neg (by omega)]
      have hrest := ih h1 (by omega)
      omega

/-! ## The first round -/

/-- The first sweep over `p` when it has visited the nodes from the last down to `i`. -/
def sweptTo (p : Program) (l : Liveness) (limit i : Nat) : Folding :=
  (List.range' i (p.size - i)).reverse.foldl (Folding.visit l limit) ⟨p, { rounds := 1 }, []⟩

def foundAt (p : Program) (l : Liveness) (limit i : Nat) : Program := (p.sweptTo l limit (i + 1)).program

def firstRound (p : Program) (l : Liveness) (limit : Nat) : Folding := Folding.round l limit ⟨p, {}, []⟩

theorem sweptTo_zero (p : Program) : p.sweptTo l limit 0 = p.firstRound l limit := by
  rw [sweptTo, firstRound, Folding.round, List.range_eq_range']
  rfl

theorem sweptTo_eq {i k : Nat} (hik : i ≤ k) (hk : k ≤ p.size) :
    p.sweptTo l limit i = (List.range' i (k - i)).reverse.foldl (Folding.visit l limit) (p.sweptTo l limit k) := by
  have hsplit : List.range' i (p.size - i) = List.range' i (k - i) ++ List.range' k (p.size - k) := by
    have := @List.range'_append_1 i (k - i) (p.size - k)
    rw [show i + (k - i) = k by omega, show k - i + (p.size - k) = p.size - i by omega] at this
    exact this.symm
  rw [sweptTo, hsplit, List.reverse_append, List.foldl_append, sweptTo]

theorem sweptTo_of_lt {i : Nat} (hi : i < p.size) :
    p.sweptTo l limit i = (p.sweptTo l limit (i + 1)).visit l limit i := by
  rw [sweptTo_eq (Nat.le_add_right i 1) hi, Nat.add_sub_cancel_left]
  rfl

/-- The nodes that the first round finds barred are those that it counts. -/
theorem blockedByStore_sweptTo {i d : Nat} (hd : i + d = p.size) :
    (p.sweptTo l limit i).stats.blockedByStore =
      ((List.range' i d).filter fun k => (p.foundAt l limit k).verdict l limit k = .blockedByStore).length := by
  induction d generalizing i with
  | zero =>
    obtain rfl : i = p.size := hd
    simp [sweptTo]
  | succ d ih =>
    rw [sweptTo_of_lt (by omega), List.range'_succ, List.filter_cons]
    have hrest := ih (i := i + 1) (by omega)
    unfold Folding.visit
    cases hv : (p.sweptTo l limit (i + 1)).program.verdict l limit i <;> simp [foundAt, hv, hrest]

/-! ## Late folds -/

def late (p : Program) (l : Liveness) (limit : Nat) : List Nat :=
  foldedSince (p.firstRound l limit).program (p.fold l limit {}).program

/-- A node that gets to feed something is folded on the way. -/
theorem exists_fold_of_foldsTo (hl : l.Sound q) (h : q.Handed l p) (hs : FoldsTo l limit p p') {i k : Nat}
    (hi : p.next? i = none) (hi' : p'.next? i = some k) :
    ∃ a j pos, FoldsTo l limit p a ∧ a.verdict l limit i = .fold j pos ∧ FoldsTo l limit (a.link i j pos) p' := by
  induction hs using Relation.ReflTransGen.head_induction_on with
  | refl =>
    rw [hi] at hi'
    cases hi'
  | @head a b hstep hrest ih =>
    obtain ⟨x, j, pos, hv, rfl⟩ := hstep
    by_cases e : i = x
    · subst e
      exact ⟨a, j, pos, .refl, hv, hrest⟩
    · have hb : FoldStep l limit a (a.link x j pos) := ⟨x, j, pos, hv, rfl⟩
      obtain ⟨c, j', pos', h1, h2, h3⟩ := ih (hb.handed hl h) (by rw [(next?_fold hl h hv).2.2, if_neg e, hi])
      exact ⟨c, j', pos', h1.head hb, h2, h3⟩

structure Settles (l : Liveness) (limit : Nat) (p : Program) : Prop where
  one : (p.fold l limit {}).stats.rounds = 1 ↔ (p.fold l limit {}).stats.folded = 0
  two : (p.fold l limit {}).stats.rounds ≤ 2 ↔ p.late l limit = []
  /-- Each round after the second needs a late fold. -/
  rounds : (p.fold l limit {}).stats.rounds ≤ 2 + (p.late l limit).length
  folded : (p.fold l limit {}).stats.folded = (p.firstRound l limit).stats.folded + (p.late l limit).length
  few : (p.late l limit).length ≤ (p.firstRound l limit).stats.blockedByStore
  /-- A node that the first sweep finds unfit or too long is never folded. -/
  barred : ∀ i ∈ p.late l limit, (p.foundAt l limit i).verdict l limit i = .blockedByStore ∧
    ∃ m r w, (p.foundAt l limit i).Bars l i m r w
  /-- A store stops barring a late node when the register is read no more or the store is folded late itself. -/
  freed : ∀ i ∈ p.late l limit, ∀ m r w, (p.foundAt l limit i).Bars l i m r w →
    .reg r ∉ (p.fold l limit {}).program.sourcesOf m ∨ i < w ∧ w ∈ p.late l limit
  /-- Some late node was freed by the first round, which took away every read that was barred. -/
  start : p.late l limit ≠ [] → ∃ i ∈ p.late l limit, ∀ m r w, (p.foundAt l limit i).Bars l i m r w →
    .reg r ∉ (p.firstRound l limit).program.sourcesOf m

theorem foldsTo_sweptTo (l : Liveness) (limit : Nat) {i k : Nat} (hik : i ≤ k) (hk : k ≤ p.size) :
    FoldsTo l limit (p.sweptTo l limit k).program (p.sweptTo l limit i).program := by
  rw [sweptTo_eq hik hk]
  exact foldsTo_visitAll l limit _ _

theorem sweptTo_size (p : Program) : (p.sweptTo l limit p.size).program = p := by simp [sweptTo]

section Swept

variable (hl : l.Sound q) (h : q.Handed l p)
include hl h

theorem handed_sweptTo (limit i : Nat) : q.Handed l (p.sweptTo l limit i).program :=
  handed_visitAll (f := ⟨p, { rounds := 1 }, []⟩) hl h limit _

/-- Only its own visit changes what a node feeds. -/
theorem next?_sweptTo {i k w : Nat} (hik : i ≤ k) (hk : k ≤ p.size) (hw : w < i ∨ k ≤ w) :
    (p.sweptTo l limit i).program.next? w = (p.sweptTo l limit k).program.next? w := by
  rw [sweptTo_eq hik hk]
  refine next?_visitAll hl (handed_sweptTo hl h limit k) fun hmem => ?_
  have := List.mem_range'_1.mp (List.mem_reverse.mp hmem)
  omega

theorem handed_firstRound (limit : Nat) : q.Handed l (p.firstRound l limit).program := by
  rw [← sweptTo_zero]
  exact handed_sweptTo hl h limit 0

/-- A node that the first sweep folds feeds something ever after. -/
theorem verdict_foundAt {i j pos : Nat} (hi : i < p.size) (hloose : (p.firstRound l limit).program.next? i = none) :
    (p.foundAt l limit i).verdict l limit i ≠ .fold j pos := by
  intro hv
  have hvisit : (p.sweptTo l limit i).program.next? i = some j := by
    rw [sweptTo_of_lt hi, Folding.visit, show (p.sweptTo l limit (i + 1)).program.verdict l limit i = _ from hv]
    exact ((next?_fold hl (handed_sweptTo hl h limit (i + 1)) hv).2.2 i).trans (if_pos rfl)
  have hrest := foldsTo_sweptTo l limit (Nat.zero_le i) (Nat.le_of_lt hi)
  rw [sweptTo_zero] at hrest
  rw [(handed_of_foldsTo hl (handed_sweptTo hl h limit i) hrest).2 i j hvisit] at hloose
  cases hloose

end Swept

section Late

variable (hl : l.Sound q) (h : q.Handed l q)
include hl h

/-- What bars a node when the first sweep comes to it is the node itself or comes behind it. -/
theorem Bars.le (hg : q.Grouped) {i m w : Nat} {r : UInt16} (hb : (q.foundAt l limit i).Bars l i m r w)
    (hi : i < q.size) (hloose : (q.foundAt l limit i).next? i = none) : i ≤ w := by
  have hh : q.Handed l (q.foundAt l limit i) := handed_sweptTo hl h limit (i + 1)
  have he : Extends q (q.foundAt l limit i) := by
    have hs := foldsTo_sweptTo l limit (p := q) hi (Nat.le_refl _)
    rw [sweptTo_size] at hs
    exact (handed_of_foldsTo hl h hs).2
  by_contra hlt
  -- Up to `i` the links are those of the source, so the moved nodes are the steps of a group that ends at `i`.
  have hm : (q.foundAt l limit i).root m = i := (mem_chain_iff hh.linked hloose).mp hb.moved
  have hroot : q.root m = i := by
    have hle := he.root_le h.linked hh.linked m
    by_contra hne
    have hlast : (q.foundAt l limit i).next? (q.root m) = none := by
      rw [foundAt, next?_sweptTo hl h hi (Nat.le_refl _) (.inl (by omega)), sweptTo_size]
      exact next?_root h.linked m
    have hrr := he.root_root h.linked hh.linked m
    rw [root_of_last hlast] at hrr
    omega
  have hnext := he w (w + 1) (hg.root_between (Nat.le_of_lt hb.after) (by omega))
  rw [hh.next?_of_stores hb.stores] at hnext
  cases hnext

/-- A node that is folded once the first sweep has passed it was barred, and either the read or the store is gone. -/
theorem freed_of_fold (hg : q.Grouped) {i j pos : Nat} {a : Program} (hi : i < q.size)
    (ha : FoldsTo l limit (q.firstRound l limit).program a) (hloose : (q.firstRound l limit).program.next? i = none)
    (hv : a.verdict l limit i = .fold j pos) :
    (q.foundAt l limit i).verdict l limit i = .blockedByStore ∧
      ∀ m r w, (q.foundAt l limit i).Bars l i m r w → l.isLive m = true ∧ (.reg r ∉ a.sourcesOf m ∨
        i < w ∧ (q.firstRound l limit).program.next? w = none ∧ ∃ k, a.next? w = some k) := by
  have hh : q.Handed l (q.foundAt l limit i) := handed_sweptTo hl h limit (i + 1)
  have hsweep : FoldsTo l limit (q.foundAt l limit i) (q.firstRound l limit).program := by
    rw [← sweptTo_zero]
    exact foldsTo_sweptTo l limit (Nat.zero_le (i + 1)) hi
  obtain ⟨-, hext⟩ := handed_of_foldsTo hl hh hsweep
  obtain ⟨ha', he⟩ := handed_of_foldsTo hl hh (hsweep.trans ha)
  obtain ⟨n, y, c, hn, hc, -⟩ := verdict_eq_fold_iff.mp hv
  refine ⟨(verdict_of_extends hh ha' he hl hv).resolve_left (verdict_foundAt hl h hi hloose), fun m r w hb => ⟨?_, ?_⟩⟩
  · rw [← hh.live_root m, root_of_mem_chain hh.linked hb.moved, hh.live_root i]
    exact hc.live
  · by_cases hr : .reg r ∈ a.sourcesOf m
    · cases hw : a.next? w with
      | none => exact absurd hv (Bars.not_fold (hb.of_extends hh ha' he hr hw) ha' hl.flow)
      | some k =>
        have hle := hb.le hl h hg hi (hext.next?_eq_none hloose)
        have hne : i ≠ w := by
          rintro rfl
          rw [hc.next?_eq_none hn] at hw
          cases hw
        refine .inr ⟨by omega, ?_, k, rfl⟩
        rw [← sweptTo_zero, next?_sweptTo hl h (Nat.zero_le (i + 1)) hi (.inr (by omega))]
        exact hh.next?_of_stores hb.stores
    · exact .inl hr

/-- The end comes with the first round, or after a run of more. -/
theorem fold_eq (limit : Nat) : q.fold l limit {} = q.firstRound l limit ∧ (q.firstRound l limit).stats.folded = 0 ∨
    q.fold l limit {} = (q.firstRound l limit).run l limit q.size ∧ 0 < (q.firstRound l limit).stats.folded ∧
      (q.firstRound l limit).program.loose < q.size := by
  have hfold : q.fold l limit {} = if (q.firstRound l limit).stats.folded = 0 then q.firstRound l limit
      else (q.firstRound l limit).run l limit q.size := rfl
  rw [hfold]
  split
  · exact .inl ⟨rfl, ‹_›⟩
  · rename_i hne
    refine .inr ⟨rfl, Nat.pos_of_ne_zero hne, ?_⟩
    rcases (round_step (f := ⟨q, {}, []⟩) hl h limit).2 with hs | ⟨-, hlt⟩
    · exact absurd (round_settled hs).2.2 hne
    · exact Nat.lt_of_lt_of_le hlt loose_le_size

theorem foldsTo_fold (limit : Nat) : FoldsTo l limit (q.firstRound l limit).program (q.fold l limit {}).program := by
  rcases fold_eq hl h limit with ⟨e, -⟩ | ⟨e, -⟩
  · rw [e]
  · rw [e]
    exact foldsTo_run l limit _ _

theorem mem_late {i : Nat} : i ∈ q.late l limit ↔
    (q.firstRound l limit).program.next? i = none ∧ ∃ j, (q.fold l limit {}).program.next? i = some j := by
  have hfirst := handed_firstRound hl h limit
  have hend := (handed_of_foldsTo hl hfirst (foldsTo_fold hl h limit)).1
  exact mem_foldedSince (by rw [hend.size, hfirst.size])

/-- A late node is folded on the way from the first round to the end. -/
theorem exists_fold_of_late {i : Nat} (hi : i ∈ q.late l limit) : i < q.size ∧
    (q.firstRound l limit).program.next? i = none ∧ ∃ a j pos, FoldsTo l limit (q.firstRound l limit).program a ∧
      a.verdict l limit i = .fold j pos ∧ FoldsTo l limit a (q.fold l limit {}).program := by
  have hfirst := handed_firstRound hl h limit
  obtain ⟨hnone, k, hk⟩ := (mem_late hl h).mp hi
  obtain ⟨a, j, pos, ha, hv, hrest⟩ := exists_fold_of_foldsTo hl hfirst (foldsTo_fold hl h limit) hnone hk
  refine ⟨?_, hnone, a, j, pos, ha, hv, hrest.head ⟨i, j, pos, hv, rfl⟩⟩
  rw [← (handed_of_foldsTo hl hfirst (foldsTo_fold hl h limit)).1.size]
  exact lt_size_of_next? hk

theorem verdict_of_late (hg : q.Grouped) {i : Nat} (hi : i ∈ q.late l limit) :
    (q.foundAt l limit i).verdict l limit i = .blockedByStore := by
  obtain ⟨hlt, hnone, a, j, pos, ha, hv, -⟩ := exists_fold_of_late hl h hi
  exact (freed_of_fold hl h hg hlt ha hnone hv).1

theorem length_late_le (hg : q.Grouped) :
    (q.late l limit).length ≤ (q.firstRound l limit).stats.blockedByStore := by
  have hsize := (handed_firstRound hl h limit).size
  rw [← sweptTo_zero, blockedByStore_sweptTo (Nat.zero_add q.size), ← List.range_eq_range', late, foldedSince, hsize,
    ← List.countP_eq_length_filter, ← List.countP_eq_length_filter]
  refine List.countP_mono_left fun i hi hsince => decide_eq_true (verdict_of_late hl h hg ?_)
  rw [late, foldedSince, hsize]
  exact List.mem_filter.mpr ⟨hi, hsince⟩

theorem freed_of_late (hg : q.Grouped) {i m w : Nat} {r : UInt16} (hi : i ∈ q.late l limit)
    (hb : (q.foundAt l limit i).Bars l i m r w) :
    .reg r ∉ (q.fold l limit {}).program.sourcesOf m ∨ i < w ∧ w ∈ q.late l limit := by
  obtain ⟨hlt, hnone, a, j, pos, ha, hv, hrest⟩ := exists_fold_of_late hl h hi
  obtain ⟨ha', -⟩ := handed_of_foldsTo hl (handed_firstRound hl h limit) ha
  obtain ⟨hend, he⟩ := handed_of_foldsTo hl ha' hrest
  obtain ⟨hlive, hr | ⟨hiw, hw, k, hk⟩⟩ := (freed_of_fold hl h hg hlt ha hnone hv).2 m r w hb
  · exact .inl fun hread => hr (read_of_extends ha' hend he hl.flow hlive hread)
  · exact .inr ⟨hiw, (mem_late hl h).mpr ⟨hw, k, he w k hk⟩⟩

theorem exists_freed_first (hg : q.Grouped) (hne : q.late l limit ≠ []) : ∃ i ∈ q.late l limit,
    ∀ m r w, (q.foundAt l limit i).Bars l i m r w → .reg r ∉ (q.firstRound l limit).program.sourcesOf m := by
  have hfirst := handed_firstRound hl h limit
  -- The first fold after the first round finds the program as that round left it.
  rcases Relation.ReflTransGen.cases_head (foldsTo_fold hl h limit) with e | ⟨b, ⟨i, j, pos, hv, rfl⟩, hrest⟩
  · exact absurd (by rw [late, ← e, foldedSince_self]) hne
  · obtain ⟨hnone, hlt, hnext⟩ := next?_fold hl hfirst hv
    have hb := FoldStep.handed hl hfirst ⟨i, j, pos, hv, rfl⟩
    have hi := (handed_of_foldsTo hl hb hrest).2 i j (by rw [hnext, if_pos rfl])
    refine ⟨i, (mem_late hl h).mpr ⟨hnone, j, hi⟩, fun m r w hbar => ?_⟩
    rw [hfirst.size] at hlt
    obtain ⟨-, hr | ⟨-, hw, k, hk⟩⟩ := (freed_of_fold hl h hg hlt .refl hnone hv).2 m r w hbar
    · exact hr
    · rw [hw] at hk
      cases hk

/-- What the counts of folding say of the late nodes. -/
theorem stats_fold (limit : Nat) :
    (q.fold l limit {}).stats.folded = (q.firstRound l limit).stats.folded + (q.late l limit).length ∧
    (q.fold l limit {}).stats.rounds ≤ 2 + (q.late l limit).length ∧
      ((q.fold l limit {}).stats.rounds ≤ 2 ↔ q.late l limit = []) ∧
        ((q.fold l limit {}).stats.rounds = 1 ↔ (q.fold l limit {}).stats.folded = 0) := by
  have hfirst := handed_firstRound hl h limit
  have hround : (q.firstRound l limit).stats.rounds = 1 := rounds_round l limit _
  unfold late
  rcases fold_eq hl h limit with ⟨e, e0⟩ | ⟨e, e0, hlt⟩
  · rw [e, foldedSince_self]
    simp [hround, e0]
  · have hfolded := folded_run hl hfirst limit (Extends.refl _) rfl q.size
    obtain ⟨h1, h2, h3⟩ := rounds_run hl hfirst limit hlt
    rw [e, ← List.length_eq_zero_iff]
    rw [foldedSince_self, List.length_nil] at hfolded
    omega

theorem settles (hg : q.Grouped) (limit : Nat) : q.Settles l limit := by
  obtain ⟨hfolded, hrounds, htwo, hone⟩ := stats_fold hl h limit
  exact ⟨hone, htwo, hrounds, hfolded, length_late_le hl h hg,
    fun i hi => ⟨verdict_of_late hl h hg hi,
      exists_bars (handed_sweptTo hl h limit (i + 1)) hl.flow (verdict_of_late hl h hg hi)⟩,
    fun i hi m r w hb => freed_of_late hl h hg hi hb, exists_freed_first hl h hg⟩

end Late

end LaneScript.Program

namespace LaneScript.Compile

open Program

theorem live_optimize (settings : Settings) (d : Stream.Decoded) (f : Flow) :
    (optimize settings d f).live = (drop settings d.program (Liveness.ofFlow f d.program)).1 := by
  unfold optimize
  dsimp only
  split <;> rfl

/-- Folding a program that was read, with or without dropping first, takes one round if and only if it folds nothing and
    more than two only for nodes that are folded after the first round; such a node was barred by stores alone, each of
    which goes with the read that it barred or is folded late itself. -/
theorem fold_settles {code : Bytes} {functions : Nat} {d : Stream.Decoded} {f : Flow}
    (hd : Stream.decode code functions = .ok d) (hf : Flow.ofProgram d.program = .ok f) (settings : Settings)
    (limit : Nat) : d.program.Settles (drop settings d.program (Liveness.ofFlow f d.program)).1 limit := by
  have ho : Optimum settings d (optimize settings d f) := optimum_optimize (Stream.decode_ok hd).2.1 hf
  rw [← live_optimize]
  exact settles ho.sound (handed_self ho.grouped ho.formed ho.sound) ho.grouped limit

/-- An index is negated and its absolute value written, in a place whose register held the negation. -/
def reusedStream : Bytes :=
  [0x02, 0, 0, 0x10, 0, 0, 0, 0, 1, 0x11, 0, 0, 1, 0, 2, 0x02, 0, 1, 0x80, 0, 0, 0, 0, 1, 0, 2, 0, 0]

/-- The absolute value is barred when the first round comes to it and folded by the second. -/
theorem fold_settles_reused : ∃ d f, Stream.decode reusedStream 0 = .ok d ∧ Flow.ofProgram d.program = .ok f ∧
    d.program.late (Liveness.ofFlow f d.program) 16 = [2] ∧ d.program.Settles (Liveness.ofFlow f d.program) 16 := by
  obtain ⟨d, hd, hflow⟩ := exists_ok_of_any (by decide +kernel : (Stream.decode reusedStream 0).toOption.any (fun d =>
    (Flow.ofProgram d.program).toOption.any fun f => d.program.late (Liveness.ofFlow f d.program) 16 = [2]) = true)
  obtain ⟨f, hf, hlate⟩ := exists_ok_of_any hflow
  exact ⟨d, f, hd, hf, of_decide_eq_true hlate, fold_settles hd hf { prune := false } 16⟩

/-- Two rounds are not enough: what the first round passes over as barred may be folded by the second. -/
theorem fold_three_rounds : ∃ d f, Stream.decode reusedStream 0 = .ok d ∧ Flow.ofProgram d.program = .ok f ∧
    (d.program.foundAt (Liveness.ofFlow f d.program) 16 2).verdict (Liveness.ofFlow f d.program) 16 2 =
      .blockedByStore ∧
    (d.program.fold (Liveness.ofFlow f d.program) 16 {}).folds = [(2, 4), (1, 2)] ∧
    (d.program.fold (Liveness.ofFlow f d.program) 16 {}).stats =
      { folded := 2, rounds := 3, blockedByStore := 1, blockedByLength := 0 } := by
  obtain ⟨d, hd, hflow⟩ := exists_ok_of_any (by decide +kernel : (Stream.decode reusedStream 0).toOption.any (fun d =>
    (Flow.ofProgram d.program).toOption.any fun f =>
      (d.program.foundAt (Liveness.ofFlow f d.program) 16 2).verdict (Liveness.ofFlow f d.program) 16 2 =
        .blockedByStore ∧
      (d.program.fold (Liveness.ofFlow f d.program) 16 {}).folds = [(2, 4), (1, 2)] ∧
      (d.program.fold (Liveness.ofFlow f d.program) 16 {}).stats =
        { folded := 2, rounds := 3, blockedByStore := 1, blockedByLength := 0 }) = true)
  obtain ⟨f, hf, hcounts⟩ := exists_ok_of_any hflow
  exact ⟨d, f, hd, hf, of_decide_eq_true hcounts⟩

end LaneScript.Compile
