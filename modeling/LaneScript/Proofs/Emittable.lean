/-
  LaneScript.Proofs.Emittable — what the check of the links is worth.

  The check looks at one live node and its two links at a time, and the links may be
  anything: they may leave the program, run backwards, name the node itself or be shared
  by several nodes. If no live node is fed by a dead one, passing the check is enough
  for the whole program (`emittable_of_checkLinks`): walking back from a live node ends,
  the order holds every live node once and no dead one, each with the node it feeds right
  behind it, no chain is longer than a count byte says, and nothing reads a folded result.

  The links of dead nodes are not checked, and do not matter: with these cut the program
  is one of whole chains (`Sifted.whole`), with the same chains of live nodes and the
  same order.
-/
import LaneScript.Proofs.Order
import LaneScript.Workbench

namespace LaneScript

theorem forM_eq_ok_iff {ε α : Type} {f : α → Except ε Unit} {xs : List α} :
    xs.forM f = .ok () ↔ ∀ x ∈ xs, f x = .ok () := by
  refine ⟨?_, Program.forM_ok⟩
  induction xs with
  | nil => intro _ x hx; cases hx
  | cons x xs ih =>
    intro h
    rw [show (x :: xs).forM f = (f x >>= fun _ => xs.forM f) from rfl] at h
    cases hx : f x with
    | error e => rw [hx] at h; cases h
    | ok u =>
      rw [hx] at h
      exact List.forall_mem_cons.mpr ⟨hx, ih h⟩

namespace Program

variable {p : Program} {l : Liveness}

/-- Walking back from `node` along the links, over any number of steps, passes these nodes, the last first, and ends at
    one that nothing feeds. -/
inductive Walk (p : Program) : (node : Nat) → (nodes : List Nat) → Prop
  | first {node : Nat} {n : Node} : p[node]? = some n → n.fedBy = none → Walk p node [node]
  | back {node previous : Nat} {n : Node} {nodes : List Nat} : p[node]? = some n → n.fedBy = some previous →
      Walk p previous nodes → Walk p node (nodes ++ [node])

theorem Walk.lt_size {node : Nat} {nodes : List Nat} (h : p.Walk node nodes) : ∀ i ∈ nodes, i < p.size := by
  induction h with
  | first hn _ => exact List.forall_mem_singleton.mpr (lt_size_of_getElem? hn)
  | back hn _ _ ih =>
    intro i hi
    rcases List.mem_append.mp hi with hi | hi
    · exact ih i hi
    · rw [List.mem_singleton.mp hi]
      exact lt_size_of_getElem? hn

/-! ## What is checked of a node -/

theorem mem_zipIdx_toList {i : Nat} {n : Node} : (n, i) ∈ p.toList.zipIdx ↔ p[i]? = some n := by
  rw [List.mk_mem_zipIdx_iff_getElem?, Array.getElem?_toList]

theorem checkLinks_eq_ok_iff : p.checkLinks l = .ok () ↔
    ∀ (i : Nat) (n : Node), p[i]? = some n → l.isLive i = true → p.checkNode l i n = .ok () := by
  rw [checkLinks, forM_eq_ok_iff]
  constructor
  · intro h i n hn hl
    have := h (n, i) (mem_zipIdx_toList.mpr hn)
    simpa [hl] using this
  · intro h x hx
    by_cases hl : l.isLive x.2 = true
    · simpa [hl] using h x.2 x.1 (mem_zipIdx_toList.mp hx) hl
    · simp [hl]

theorem checkNode_eq_ok_iff {i : Nat} {n : Node} : p.checkNode l i n = .ok () ↔ p.foldedRead? l i n.instr = none ∧
    p.forwardOk l i n = true ∧ p.backwardOk i n = true ∧ p.lengthOk i n = true := by
  unfold checkNode
  cases p.foldedRead? l i n.instr with
  | some w => simp
  | none =>
    by_cases h : (p.forwardOk l i n && p.backwardOk i n && p.lengthOk i n) = true
    · rw [if_pos h]
      rw [Bool.and_eq_true, Bool.and_eq_true, and_assoc] at h
      exact iff_of_true rfl ⟨rfl, h⟩
    · rw [if_neg h]
      rw [Bool.and_eq_true, Bool.and_eq_true, and_assoc] at h
      exact iff_of_false (by simp) fun hc => h hc.2

theorem forwardOk_iff {i : Nat} {n : Node} : p.forwardOk l i n = true ↔
    ∀ j, n.target? = some j → i < j ∧ l.isLive j = true ∧ p.prev? j = some i := by
  unfold forwardOk
  cases n.target? with
  | none => simp
  | some j =>
    cases hm : p[j]? with
    | none => simp [prev?, hm]
    | some m => simp [prev?, hm, and_assoc]

theorem backwardOk_iff {i : Nat} {n : Node} : p.backwardOk i n = true ↔
    ∀ j, n.fedBy = some j → ∃ m, p[j]? = some m ∧ m.feeds = some (i : Int) := by
  unfold backwardOk
  cases n.fedBy with
  | none => simp
  | some j => cases hm : p[j]? <;> simp [hm]

theorem foldedRead?_eq_none_iff {i : Nat} {x : Instruction} : p.foldedRead? l i x = none ↔
    ∀ (pos : Nat) (r : UInt16) (w : Nat), x.sources[pos]? = some (.reg r) →
      (l.flow.producers.getD i [])[pos]? = some (some w) → p[w]?.any Node.isFolded = false := by
  unfold foldedRead?
  simp only [List.findSome?_eq_none_iff, Prod.forall, mem_reads]
  constructor
  · intro h pos r w hs hw
    have := h pos r hs
    rw [hw] at this
    simpa using this
  · intro h pos r hs
    split
    · rename_i w hw
      simp [h pos r w hs hw]
    · rfl

structure Sifted (p : Program) (l : Liveness) : Prop where
  named : ∀ (i : Nat) (n : Node), p[i]? = some n → n.isFolded = true → ∃ j, n.target? = some j
  fed : ∀ i j, l.isLive i = true → p.prev? i = some j → l.isLive j = true
  forward : ∀ i j, l.isLive i = true → p.next? i = some j → i < j ∧ l.isLive j = true ∧ p.prev? j = some i
  backward : ∀ i j, l.isLive i = true → p.prev? i = some j → p.next? j = some i

theorem target?_of_feeds {n : Node} {j : Nat} (h : n.feeds = some (j : Int)) : n.target? = some j := by
  rw [Node.target?, h]
  exact Int.mem_toNat?.mpr rfl

theorem feeds_of_target? {n : Node} {j : Nat} (h : n.target? = some j) : n.feeds = some (j : Int) := by
  obtain ⟨k, hk, hj⟩ := Option.bind_eq_some_iff.mp h
  rw [hk, Int.mem_toNat?.mp hj]

/-- The check leaves nothing of this open but that numbers are numbers and that nothing live is fed by a dead node. -/
theorem sifted_of_checkLinks (hfeeds : ∀ (i : Nat) (n : Node) (k : Int), p[i]? = some n → n.feeds = some k → 0 ≤ k)
    (hfed : ∀ (i : Nat) (n : Node) (j : Nat), p[i]? = some n → l.isLive i = true → n.fedBy = some j → l.isLive j = true)
    (h : p.checkLinks l = .ok ()) : p.Sifted l := by
  have checked := checkLinks_eq_ok_iff.mp h
  refine ⟨?_, ?_, ?_, ?_⟩
  · intro i n hn hfolded
    obtain ⟨k, hk⟩ := Option.isSome_iff_exists.mp hfolded
    exact ⟨k.toNat, target?_of_feeds (by rw [hk, Int.toNat_of_nonneg (hfeeds i n k hn hk)])⟩
  · intro i j hl hj
    obtain ⟨n, hn, hj⟩ := Option.bind_eq_some_iff.mp hj
    exact hfed i n j hn hl hj
  · intro i j hl hj
    obtain ⟨n, hn, hj⟩ := Option.bind_eq_some_iff.mp hj
    exact forwardOk_iff.mp (checkNode_eq_ok_iff.mp (checked i n hn hl)).2.1 j hj
  · intro i j hl hj
    obtain ⟨n, hn, hj⟩ := Option.bind_eq_some_iff.mp hj
    obtain ⟨m, hm, hi⟩ := backwardOk_iff.mp (checkNode_eq_ok_iff.mp (checked i n hn hl)).2.2.1 j hj
    rw [next?_eq hm]
    exact target?_of_feeds hi

/-! ## Cutting the links of dead nodes -/

def withoutDeadLinks (p : Program) (l : Liveness) : Program :=
  p.mapIdx fun i n => if l.isLive i then n else { n with feeds := none, fedBy := none }

theorem size_withoutDeadLinks : (p.withoutDeadLinks l).size = p.size := Array.size_mapIdx

theorem getElem?_withoutDeadLinks (i : Nat) : (p.withoutDeadLinks l)[i]? =
    p[i]?.map fun n => if l.isLive i then n else { n with feeds := none, fedBy := none } := Array.getElem?_mapIdx

theorem next?_withoutDeadLinks (i : Nat) :
    (p.withoutDeadLinks l).next? i = if l.isLive i then p.next? i else none := by
  rw [next?, next?, getElem?_withoutDeadLinks]
  by_cases hl : l.isLive i = true
  · simp [hl]
  · cases p[i]? <;> simp [hl, Node.target?]

theorem prev?_withoutDeadLinks (i : Nat) :
    (p.withoutDeadLinks l).prev? i = if l.isLive i then p.prev? i else none := by
  rw [prev?, prev?, getElem?_withoutDeadLinks]
  by_cases hl : l.isLive i = true
  · simp [hl]
  · cases p[i]? <;> simp [hl]

namespace Sifted

variable (h : p.Sifted l)
include h

/-- With the links of dead nodes cut, all chains are whole. -/
theorem whole : (p.withoutDeadLinks l).Whole l := by
  have next {i j : Nat} (e : (p.withoutDeadLinks l).next? i = some j) : l.isLive i = true ∧ p.next? i = some j := by
    rw [next?_withoutDeadLinks] at e
    by_cases hl : l.isLive i = true
    · exact ⟨hl, by simpa [hl] using e⟩
    · simp [hl] at e
  have prev {i j : Nat} (e : (p.withoutDeadLinks l).prev? i = some j) : l.isLive i = true ∧ p.prev? i = some j := by
    rw [prev?_withoutDeadLinks] at e
    by_cases hl : l.isLive i = true
    · exact ⟨hl, by simpa [hl] using e⟩
    · simp [hl] at e
  refine ⟨⟨?_, ?_, ?_⟩, ?_⟩
  · intro i j
    constructor
    · intro e
      obtain ⟨hl, e⟩ := next e
      obtain ⟨-, hj, hprev⟩ := h.forward i j hl e
      rw [prev?_withoutDeadLinks, if_pos hj, hprev]
    · intro e
      obtain ⟨hl, e⟩ := prev e
      rw [next?_withoutDeadLinks, if_pos (h.fed j i hl e), h.backward j i hl e]
  · intro i j e
    obtain ⟨hl, e⟩ := next e
    exact (h.forward i j hl e).1
  · intro i n hn hfolded
    rw [getElem?_withoutDeadLinks] at hn
    obtain ⟨m, hm, rfl⟩ := Option.map_eq_some_iff.mp hn
    by_cases hl : l.isLive i = true
    · rw [if_pos hl] at hfolded ⊢
      exact h.named i m hm hfolded
    · simp [hl, Node.isFolded] at hfolded
  · intro i j e
    obtain ⟨hl, e⟩ := next e
    rw [hl, (h.forward i j hl e).2.1]

/-- A walk from a live node meets live nodes only. -/
theorem backFrom_withoutDeadLinks (rounds : Nat) {i : Nat} (hl : l.isLive i = true) :
    (p.withoutDeadLinks l).backFrom rounds i [] = p.backFrom rounds i [] := by
  induction rounds generalizing i with
  | zero => rfl
  | succ rounds ih =>
    rw [backFrom_succ, backFrom_succ, prev?_withoutDeadLinks, if_pos hl]
    cases e : p.prev? i with
    | none => rfl
    | some j => simp only [ih (h.fed i j hl e)]

theorem chain_withoutDeadLinks {i : Nat} (hl : l.isLive i = true) : (p.withoutDeadLinks l).chain i = p.chain i := by
  rw [chain, chain, size_withoutDeadLinks]
  exact h.backFrom_withoutDeadLinks _ hl

theorem emissionOrder_withoutDeadLinks : (p.withoutDeadLinks l).emissionOrder l = p.emissionOrder l := by
  have hroots : (p.withoutDeadLinks l).liveRoots l = p.liveRoots l := by
    rw [liveRoots, liveRoots, size_withoutDeadLinks]
    refine List.filter_congr ?_
    intro i _
    rw [getElem?_withoutDeadLinks]
    by_cases hl : l.isLive i = true
    · simp [hl]
    · simp [hl]
  rw [emissionOrder, emissionOrder, chains, chains, hroots]
  refine congrArg List.flatten (List.map_congr_left ?_)
  intro i hi
  exact h.chain_withoutDeadLinks (Bool.and_eq_true_iff.mp (List.mem_filter.mp hi).2).1

theorem mem_order_iff {i : Nat} : i ∈ p.emissionOrder l ↔ i < p.size ∧ l.isLive i = true := by
  rw [← h.emissionOrder_withoutDeadLinks, h.whole.mem_order_iff, size_withoutDeadLinks]

theorem nodup_order : (p.emissionOrder l).Nodup := by
  rw [← h.emissionOrder_withoutDeadLinks]
  exact h.whole.pairwise_order.imp Before.ne

/-- The bounded walk that gives a chain is the whole walk. -/
theorem walk_chain {i : Nat} (hi : i < p.size) (hl : l.isLive i = true) : p.Walk i (p.chain i) := by
  induction i using Nat.strongRecOn with
  | ind i ih =>
    obtain ⟨n, hn⟩ := exists_node hi
    cases e : p.prev? i with
    | none =>
      rw [chain_of_first e]
      exact .first hn (by rw [← prev?_eq hn]; exact e)
    | some j =>
      have hj := h.fed i j hl e
      have hlt := (h.forward j i hj (h.backward i j hl e)).1
      have hchain : p.chain i = p.chain j ++ [i] := by
        have e' : (p.withoutDeadLinks l).prev? i = some j := by rw [prev?_withoutDeadLinks, if_pos hl, e]
        rw [← h.chain_withoutDeadLinks hl, ← h.chain_withoutDeadLinks hj]
        exact chain_of_prev h.whole.linked e'
      rw [hchain]
      exact .back hn (by rw [← prev?_eq hn]; exact e) (ih j hlt (by omega) hj)

theorem pairwise_chain {i : Nat} (hl : l.isLive i = true) : (p.chain i).Pairwise (· < ·) := by
  rw [← h.chain_withoutDeadLinks hl]
  exact Program.pairwise_chain h.whole.linked i

/-- A live node stands right before the one that it feeds. -/
theorem exists_order_eq {i j : Nat} (hl : l.isLive i = true) (e : p.next? i = some j) :
    ∃ before after, p.emissionOrder l = before ++ i :: j :: after := by
  obtain ⟨-, hj, hprev⟩ := h.forward i j hl e
  rw [← h.emissionOrder_withoutDeadLinks]
  refine h.whole.exists_order_eq ?_ hj ?_
  · rw [size_withoutDeadLinks]
    exact lt_size_of_prev? hprev
  · rw [prev?_withoutDeadLinks, if_pos hj, hprev]

/-- Every chain of live nodes begins one that ends at a live node that feeds nothing. -/
theorem exists_root {i : Nat} (hi : i < p.size) (hl : l.isLive i = true) :
    ∃ root n rest, p[root]? = some n ∧ l.isLive root = true ∧ n.isFolded = false ∧ p.chain root = p.chain i ++ rest := by
  have hroot := h.whole.root_mem_liveRoots (by rw [size_withoutDeadLinks]; exact hi) hl
  obtain ⟨hlt, hlive, hlast⟩ := (mem_liveRoots h.whole.linked).mp hroot
  obtain ⟨rest, hrest⟩ := exists_chain_append h.whole.linked (mem_chain_root h.whole.linked i)
  rw [size_withoutDeadLinks] at hlt
  obtain ⟨n, hn⟩ := exists_node hlt
  rw [h.chain_withoutDeadLinks hlive, h.chain_withoutDeadLinks hl] at hrest
  refine ⟨_, n, rest, hn, hlive, ?_, hrest⟩
  rw [h.whole.linked.isFolded_eq_false_iff (n := n)]
  · exact hlast
  · rw [getElem?_withoutDeadLinks, hn, Option.map_some, if_pos hlive]

end Sifted

/-! ## The check as a whole -/

structure Emittable (p : Program) (l : Liveness) : Prop where
  /-- Walking back from a live node ends, and the numbers fall on the way. -/
  walk : ∀ i, i < p.size → l.isLive i = true → p.Walk i (p.chain i) ∧ (p.chain i).Pairwise (· < ·)
  once : (p.emissionOrder l).Nodup
  mem_order : ∀ i, i ∈ p.emissionOrder l ↔ i < p.size ∧ l.isLive i = true
  /-- A live node that is folded stands right before the one that it feeds. -/
  adjacent : ∀ (i : Nat) (n : Node), p[i]? = some n → l.isLive i = true → n.isFolded = true →
    ∃ j : Nat, n.feeds = some (j : Int) ∧ ∃ before after, p.emissionOrder l = before ++ i :: j :: after
  short : ∀ i, i < p.size → l.isLive i = true → (p.chain i).length ≤ 255
  /-- What a live node reads from a register comes from a node that is not folded. -/
  unfolded : ∀ (i : Nat) (n : Node) (pos : Nat) (r : UInt16) (w : Nat) (m : Node), p[i]? = some n → l.isLive i = true →
    n.instr.sources[pos]? = some (.reg r) → (l.flow.producers.getD i [])[pos]? = some (some w) → p[w]? = some m →
      m.isFolded = false

theorem emittable_of_checkLinks (h : p.Sifted l) (hc : p.checkLinks l = .ok ()) : p.Emittable l := by
  have checked := checkLinks_eq_ok_iff.mp hc
  refine ⟨?_, h.nodup_order, fun i => h.mem_order_iff, ?_, ?_, ?_⟩
  · intro i hi hl
    exact ⟨h.walk_chain hi hl, h.pairwise_chain hl⟩
  · intro i n hn hl hfolded
    obtain ⟨j, hj⟩ := h.named i n hn hfolded
    exact ⟨j, feeds_of_target? hj, h.exists_order_eq hl ((next?_eq hn).trans hj)⟩
  · intro i hi hl
    obtain ⟨root, n, rest, hn, hlive, hfolded, hrest⟩ := h.exists_root hi hl
    have hlen := (checkNode_eq_ok_iff.mp (checked root n hn hlive)).2.2.2
    rw [lengthOk, hfolded, Bool.false_or, decide_eq_true_eq, hrest, List.length_append] at hlen
    omega
  · intro i n pos r w m hn hl hs hw hm
    have := foldedRead?_eq_none_iff.mp (checkNode_eq_ok_iff.mp (checked i n hn hl)).1 pos r w hs hw
    rwa [hm] at this

end Program

namespace Workbench

open Program

variable {b : Workbench}

theorem checkLinks_eq_none_iff : b.checkLinks = .ok none ↔
    ∀ (i : Nat) (n : Node), b.program[i]? = some n → b.linkTrouble? i n = none := by
  have hfirst : (b.program.toList.zipIdx.findSome? fun x => b.linkTrouble? x.2 x.1) = none ↔
      ∀ (i : Nat) (n : Node), b.program[i]? = some n → b.linkTrouble? i n = none := by
    rw [List.findSome?_eq_none_iff]
    constructor
    · intro h i n hn
      exact h (n, i) (mem_zipIdx_toList.mpr hn)
    · intro h x hx
      exact h x.2 x.1 (mem_zipIdx_toList.mp hx)
  rw [← hfirst, checkLinks]
  split
  · rename_i hnone
    exact iff_of_true rfl hnone
  · rename_i hsome
    exact iff_of_false (by simp) fun hnone => Option.some_ne_none _ (hsome.symm.trans hnone)
  · rename_i hsome
    exact iff_of_false (by simp) fun hnone => Option.some_ne_none _ (hsome.symm.trans hnone)

/-- A live node is no trouble if it passes the check and its chain, where that is walked, stays in the program. -/
theorem linkTrouble?_eq_none_iff {i : Nat} {n : Node} (hl : b.live.isLive i = true) : b.linkTrouble? i n = none ↔
    b.program.checkNode b.live i n = .ok () ∧ (n.isFolded = false → ∀ j ∈ b.program.chain i, j < b.program.size) := by
  rw [checkNode_eq_ok_iff, linkTrouble?, hl]
  cases b.program.foldedRead? b.live i n.instr with
  | some w => simp
  | none =>
    by_cases hlinks : (b.program.forwardOk b.live i n && b.program.backwardOk i n) = true
    · obtain ⟨hforward, hbackward⟩ := Bool.and_eq_true_iff.mp hlinks
      by_cases hlength : b.program.lengthOk i n = true
      · cases hfolded : n.isFolded <;> simp [hforward, hbackward, hlength]
      · -- The chain is walked before its length is looked at, so one of the two is the trouble.
        by_cases hstray : (!n.isFolded && (b.program.chain i).any (b.program.size ≤ ·)) = true
        · simp [hforward, hbackward, hlength, hstray]
        · simp [hforward, hbackward, hlength, hstray]
    · have hnot : ¬(b.program.forwardOk b.live i n = true ∧ b.program.backwardOk i n = true) := by simpa using hlinks
      simp only [hlinks, Bool.not_true, Bool.false_eq_true, if_false, Bool.not_false, if_true, true_and]
      exact iff_of_false (by simp) fun hc => hnot ⟨hc.1.1, hc.1.2.1⟩

theorem linkTrouble?_of_dead {i : Nat} (n : Node) (hl : b.live.isLive i = false) : b.linkTrouble? i n = none := by
  simp [linkTrouble?, hl]

/-- Where links are numbers and no live node is fed by a dead one, the bench finds trouble just where the check of the
    program does, and no walk leaves the program. A program that passes can be emitted. -/
theorem checkLinks_emittable (b : Workbench)
    (hfeeds : ∀ (i : Nat) (n : Node) (k : Int), b.program[i]? = some n → n.feeds = some k → 0 ≤ k)
    (hfed : ∀ (i : Nat) (n : Node) (j : Nat), b.program[i]? = some n → b.live.isLive i = true → n.fedBy = some j →
      b.live.isLive j = true) :
    (b.checkLinks = .ok none ↔ b.program.checkLinks b.live = .ok ()) ∧
      (b.checkLinks = .ok none → b.program.Emittable b.live ∧ b.order = .ok (b.program.emissionOrder b.live)) := by
  have hbench : b.checkLinks = .ok none → b.program.checkLinks b.live = .ok () := by
    intro h
    refine checkLinks_eq_ok_iff.mpr ?_
    intro i n hn hl
    exact ((linkTrouble?_eq_none_iff hl).mp (checkLinks_eq_none_iff.mp h i n hn)).1
  refine ⟨⟨hbench, ?_⟩, ?_⟩
  · intro h
    have hs := sifted_of_checkLinks hfeeds hfed h
    refine checkLinks_eq_none_iff.mpr ?_
    intro i n hn
    by_cases hl : b.live.isLive i = true
    · refine (linkTrouble?_eq_none_iff hl).mpr ⟨checkLinks_eq_ok_iff.mp h i n hn hl, ?_⟩
      intro _
      exact (hs.walk_chain (lt_size_of_getElem? hn) hl).lt_size
    · exact linkTrouble?_of_dead n (by simpa using hl)
  · intro h
    have hs := sifted_of_checkLinks hfeeds hfed (hbench h)
    refine ⟨emittable_of_checkLinks hs (hbench h), if_pos (List.all_eq_true.mpr ?_)⟩
    intro i hi
    exact decide_eq_true (hs.mem_order_iff.mp hi).1

/-- A negation of a negation is written to an output. The dead node between them is linked to itself and to a node that
    there is not. -/
def tangled : Workbench where
  program := #[
    { instr := { opcode := .execIndex, dests := [.reg 0] }, offset := 0 },
    { instr := { opcode := .compute .neg, sources := [.reg 0], dests := [.acc] }, offset := 3, feeds := some 3 },
    { instr := { opcode := .nop }, offset := 9, feeds := some 2, fedBy := some 8 },
    { instr := { opcode := .compute .neg, sources := [.acc], dests := [.acc] }, offset := 10, feeds := some 4,
      fedBy := some 1 },
    { instr := { opcode := .output .float, payload := .field 0 0, sources := [.reg 0, .acc] }, offset := 16,
      fedBy := some 3 }]
  live := {
    flow := { producers := #[[], [some 0], [], [none], [some 0, none]] }
    dead := #[false, false, true, false, false]
    unread := Array.replicate 5 [] }

theorem checkLinks_emittable_tangled : tangled.checkLinks = .ok none ∧
    tangled.program.checkLinks tangled.live = .ok () ∧ tangled.program.Emittable tangled.live ∧
      tangled.order = .ok [0, 1, 3, 4] := by
  have hnumbers : tangled.program.toList.all (fun n => n.feeds.all (0 ≤ ·)) = true := by decide
  have hlive : tangled.program.toList.zipIdx.all (fun x =>
      !tangled.live.isLive x.2 || x.1.fedBy.all tangled.live.isLive) = true := by decide
  have hcheck : tangled.checkLinks = .ok none := by decide
  have horder : tangled.program.emissionOrder tangled.live = [0, 1, 3, 4] := by decide
  obtain ⟨hiff, hemits⟩ := checkLinks_emittable tangled
    (by
      intro i n k hn hk
      have := List.all_eq_true.mp hnumbers n (List.mem_of_getElem? (by rw [Array.getElem?_toList]; exact hn))
      rw [hk] at this
      exact of_decide_eq_true this)
    (by
      intro i n j hn hl hj
      have := List.all_eq_true.mp hlive (n, i) (mem_zipIdx_toList.mpr hn)
      simpa [hl, hj] using this)
  obtain ⟨hemittable, hordered⟩ := hemits hcheck
  rw [horder] at hordered
  exact ⟨hcheck, hiff.mp hcheck, hemittable, hordered⟩

end Workbench

end LaneScript
