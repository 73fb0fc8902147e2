/-
  LaneScript.Proofs.Liveness — what the marks of a liveness say.

  `Sound` is what the later stages rely on: a dead node is pure, a node that a live node
  reads is live, linked nodes are dead or alive together, and a destination is only
  marked unread if no live node reads its register from there. Taking everything for
  live is sound (`sound_ofFlow`).

  Pruning is exact. A node's uses all come later, so marking a node does not change what
  was found for those behind it, and in the end a node is live just when it is not
  useless (`prune_isLive`); a call's unread destinations are those of the final marks
  (`prune_unread`). Soundness follows (`sound_prune`).

  `storedBetween_iff` says that the search through the writers of a register finds a
  store between two nodes whenever there is one.
-/
import LaneScript.Program.Liveness
import LaneScript.Proofs.Flow
import LaneScript.Proofs.Items

namespace LaneScript.Liveness

/-! ## Stores between two nodes -/

structure SplitAt (xs : Array Nat) (bound k : Nat) : Prop where
  below : ∀ j x, j < k → xs[j]? = some x → x ≤ bound
  above : ∀ j x, k ≤ j → xs[j]? = some x → bound < x

theorem stores_iff {l : Liveness} {p : Program} {r : UInt16} {u : Nat} :
    l.stores p r u = true ↔ l.isLive u = true ∧
      ∃ n pos, p[u]? = some n ∧ n.instr.dests[pos]? = some (.reg r) ∧ l.isUnread u pos = false := by
  unfold stores
  cases p[u]? with
  | none => simp
  | some n => simp [List.any_eq_true, List.mem_zipIdx_iff_getElem?]

theorem mem_liveReaders {l : Liveness} {i j pos : Nat} :
    (j, pos) ∈ l.liveReaders i ↔ (j, pos) ∈ l.flow.readers.getD i #[] ∧ l.isLive j = true := by
  simp [liveReaders]

theorem readsRegister_iff {p : Program} {r : UInt16} {i k : Nat} :
    readsRegister p r i k = true ↔ (p.sourcesOf i)[k]? = some (.reg r) := by
  rw [readsRegister, Program.sourcesOf]
  cases p[i]? <;> simp

theorem storesAt_of_stores {l : Liveness} {p : Program} {r : UInt16} {u : Nat} (h : l.stores p r u = true) :
    storesAt p.instrs (.reg r) u = true := by
  obtain ⟨-, n, pos, hn, hd, -⟩ := stores_iff.mp h
  refine storesAt_iff.mpr ⟨n.instr, ?_, List.mem_of_getElem? hd⟩
  rw [Program.getElem?_instrs, hn]
  rfl

theorem nodup_liveReaders {l : Liveness} {p : Program} (hf : l.flow.Exact p) {i : Nat} (hi : i < p.size) :
    (l.liveReaders i).Nodup := by
  rw [liveReaders, Array.toList_filter]
  exact (hf.nodup_readers hi).filter _

theorem countUpTo_split {xs : Array Nat} {bound : Nat} (hs : xs.toList.Pairwise (· < ·)) {rounds lo span : Nat}
    (hr : span ≤ rounds) (hsize : lo + span ≤ xs.size) (hlo : ∀ j x, j < lo → xs[j]? = some x → x ≤ bound)
    (hhi : ∀ j x, lo + span ≤ j → xs[j]? = some x → bound < x) : SplitAt xs bound (countUpTo xs bound rounds lo span) := by
  have sorted (j k x y : Nat) (hjk : j < k) (hx : xs[j]? = some x) (hy : xs[k]? = some y) : x < y := by
    rw [← Array.getElem?_toList] at hx hy
    obtain ⟨hj, rfl⟩ := List.getElem?_eq_some_iff.mp hx
    obtain ⟨hk, rfl⟩ := List.getElem?_eq_some_iff.mp hy
    exact List.pairwise_iff_getElem.mp hs j k hj hk hjk
  induction rounds generalizing lo span with
  | zero =>
    have : span = 0 := by omega
    subst this
    exact ⟨hlo, hhi⟩
  | succ rounds ih =>
    rw [countUpTo]
    by_cases h0 : span = 0
    · rw [if_pos h0]
      subst h0
      exact ⟨hlo, hhi⟩
    · rw [if_neg h0]
      have hmid : lo + span / 2 < xs.size := by omega
      obtain ⟨y, hy⟩ : ∃ y, xs[lo + span / 2]? = some y := ⟨_, Array.getElem?_eq_getElem hmid⟩
      have hd : xs.getD (lo + span / 2) 0 = y := by simp [Array.getD_eq_getD_getElem?, hy]
      simp only [hd]
      split
      · rename_i hle
        refine ih (by omega) (by omega) (fun j x hj hx => ?_) (fun j x hj hx => hhi j x (by omega) hx)
        by_cases e : j = lo + span / 2
        · rw [e, hy] at hx; cases hx; exact hle
        · have := sorted j _ x y (by omega) hx hy
          omega
      · rename_i hgt
        refine ih (by omega) (by omega) hlo (fun j x hj hx => ?_)
        by_cases e : j = lo + span / 2
        · rw [e, hy] at hx; cases hx; omega
        · have := sorted _ j y x (by omega) hy hx
          omega

theorem storedFrom_iff {l : Liveness} {p : Program} {r : UInt16} {ws : Array Nat} {before : Nat}
    (hs : ws.toList.Pairwise (· < ·)) {count pos : Nat} (hc : ws.size ≤ pos + count) :
    l.storedFrom p r ws before count pos = true ↔
      ∃ k w, pos ≤ k ∧ ws[k]? = some w ∧ w < before ∧ l.stores p r w = true := by
  induction count generalizing pos with
  | zero =>
    refine iff_of_false nofun ?_
    rintro ⟨k, w, hk, hw, -⟩
    have := (Array.getElem?_eq_some_iff.mp hw).1
    omega
  | succ count ih =>
    rw [storedFrom]
    cases hp : ws[pos]? with
    | none =>
      refine iff_of_false nofun ?_
      rintro ⟨k, w, hk, hw, -⟩
      have h1 := (Array.getElem?_eq_some_iff.mp hw).1
      have h2 := Array.getElem?_eq_none_iff.mp hp
      omega
    | some v =>
      simp only [Bool.and_eq_true, decide_eq_true_eq, Bool.or_eq_true]
      rw [ih (by omega)]
      constructor
      · rintro ⟨hv, hst | ⟨k, w, hk, h⟩⟩
        · exact ⟨pos, v, by omega, hp, hv, hst⟩
        · exact ⟨k, w, by omega, h⟩
      · rintro ⟨k, w, hk, hw, hwb, hst⟩
        by_cases e : k = pos
        · subst e
          rw [hp] at hw; cases hw
          exact ⟨hwb, .inl hst⟩
        · have hvw : v < w := by
            rw [← Array.getElem?_toList] at hp hw
            obtain ⟨h1, rfl⟩ := List.getElem?_eq_some_iff.mp hp
            obtain ⟨h2, rfl⟩ := List.getElem?_eq_some_iff.mp hw
            exact List.pairwise_iff_getElem.mp hs pos k h1 h2 (by omega)
          exact ⟨by omega, .inr ⟨k, w, by omega, hw, hwb, hst⟩⟩

/-- A store is found if there is one, as long as stores only vanished since the flow was found. -/
theorem storedBetween_iff {l : Liveness} {q p : Program} (hf : l.flow.Exact q) {r : UInt16}
    (hsub : ∀ u, l.stores p r u = true → storesAt q.instrs (.reg r) u = true) {after before : Nat} :
    l.storedBetween p r after before = true ↔ ∃ u, after < u ∧ u < before ∧ l.stores p r u = true := by
  have hw := hf.writers r
  -- Every node that stores is among the noted writers.
  have noted (u : Nat) (hu : l.stores p r u = true) : u ∈ ((l.flow.writers[r]?).getD #[]).toList := by
    have hst := hsub u hu
    obtain ⟨x, hx, -⟩ := storesAt_iff.mp hst
    have hlt : u < q.size := by
      rw [← Program.length_instrs]
      exact (List.getElem?_eq_some_iff.mp hx).1
    rw [hw]
    exact List.mem_filter.mpr ⟨List.mem_range.mpr hlt, hst⟩
  have hs : ((l.flow.writers[r]?).getD #[]).toList.Pairwise (· < ·) := by
    rw [hw]
    exact List.Pairwise.filter _ List.pairwise_lt_range
  unfold storedBetween
  cases hr : l.flow.writers[r]? with
  | none =>
    refine iff_of_false nofun ?_
    rintro ⟨u, -, -, hu⟩
    have := noted u hu
    simp [hr] at this
  | some ws =>
    rw [hr] at hs
    simp only [hr, Option.getD_some] at noted hs
    have split : SplitAt ws after (countUpTo ws after ws.size 0 ws.size) :=
      countUpTo_split hs (Nat.le_refl _) (by omega) (by omega)
        (fun j x hj hx => by have := (Array.getElem?_eq_some_iff.mp hx).1; omega)
    rw [storedFrom_iff hs (by omega)]
    constructor
    · rintro ⟨k, w, hk, hw, hb, hst⟩
      exact ⟨w, split.above k w hk hw, hb, hst⟩
    · rintro ⟨u, hau, hub, hst⟩
      obtain ⟨k, hk⟩ := List.getElem?_of_mem (noted u hst)
      rw [Array.getElem?_toList] at hk
      refine ⟨k, u, ?_, hk, hub, hst⟩
      by_contra hlt
      have := split.below k u (by omega) hk
      omega

/-! ## Dropping useless nodes -/

variable {l : Liveness} {p : Program}

theorem isUseless_iff {i : Nat} :
    l.isUseless p i = true ↔ ∃ n, p[i]? = some n ∧ n.instr.isPure = true ∧
      (∀ j pos, (j, pos) ∈ l.flow.readers.getD i #[] → l.isLive j = false) ∧
        ∀ j, p.next? i = some j → l.isLive j = false := by
  unfold isUseless Program.next?
  cases p[i]? with
  | none => simp
  | some n =>
    have hr : (l.flow.readers.getD i #[]).any (fun use => l.isLive use.1) = false ↔
        ∀ j pos, (j, pos) ∈ l.flow.readers.getD i #[] → l.isLive j = false := by
      rw [← Array.any_toList, List.any_eq_false]
      simp only [Prod.forall, Array.mem_toList_iff, Bool.not_eq_true]
    have ht : n.target?.any l.isLive = false ↔ ∀ j, n.target? = some j → l.isLive j = false := by
      cases n.target? <;> simp
    simp only [Bool.and_eq_true, Bool.not_eq_true', hr, ht, Option.bind_some, Option.some.injEq, exists_eq_left',
      and_assoc]

theorem lt_of_mem_readers (hf : l.flow.Exact p) {i j pos : Nat} (hi : i < p.size)
    (h : (j, pos) ∈ l.flow.readers.getD i #[]) : i < j := by
  obtain ⟨s, -, hs⟩ := (hf.mem_readers hi).mp h
  cases s with
  | reg r => exact lastStore_lt hs
  | const c => cases hs
  | acc => cases hs

theorem isLive_kill {i k : Nat} (hk : k < l.dead.size) : (l.kill k).isLive i = (decide (i ≠ k) && l.isLive i) := by
  simp only [isLive, kill, Array.getD_eq_getD_getElem?, Array.getElem?_setIfInBounds]
  by_cases e : k = i
  · subst e; simp [hk]
  · simp [e, Ne.symm e]

/-- Whether a node is useless depends on later nodes only. -/
theorem isUseless_kill (hf : l.flow.Exact p) (hp : p.Linked) {i k : Nat} (hk : k < l.dead.size) (hki : k ≤ i)
    (hi : i < p.size) : (l.kill k).isUseless p i = l.isUseless p i := by
  rw [Bool.eq_iff_iff, isUseless_iff, isUseless_iff]
  have later {j : Nat} (hj : i < j) : (l.kill k).isLive j = l.isLive j := by
    rw [isLive_kill hk, decide_eq_true (by omega), Bool.true_and]
  refine exists_congr fun n => and_congr_right fun _ => and_congr_right fun _ => and_congr ?_ ?_
  · refine forall_congr' fun j => forall_congr' fun pos => ?_
    refine forall_congr' fun h => ?_
    rw [later (lt_of_mem_readers hf hi h)]
  · refine forall_congr' fun j => forall_congr' fun h => ?_
    rw [later (hp.forward i j h)]

structure Swept (p : Program) (f : Flow) (k : Nat) (l : Liveness) : Prop where
  flow : l.flow = f
  size : l.dead.size = p.size
  unread : l.unread = Array.replicate p.size []
  before : ∀ i < k, l.isLive i = true
  behind : ∀ i, k ≤ i → i < p.size → l.isLive i = !l.isUseless p i

theorem swept_ofFlow (f : Flow) (p : Program) : Swept p f p.size (ofFlow f p) where
  flow := rfl
  size := by simp [ofFlow]
  unread := rfl
  before i hi := by simp [isLive, ofFlow, Array.getD_eq_getD_getElem?, hi]
  behind i h1 h2 := by omega

theorem swept_kill {f : Flow} {k : Nat} (hf : f.Exact p) (hp : p.Linked) (hk : k < p.size) (h : Swept p f (k + 1) l)
    (hu : l.isUseless p k = true) : Swept p f k (l.kill k) := by
  have hf' : l.flow.Exact p := by rw [h.flow]; exact hf
  have hkd : k < l.dead.size := by rw [h.size]; exact hk
  refine ⟨h.flow, ?_, h.unread, fun i hi => ?_, fun i h1 h2 => ?_⟩
  · simp [kill, h.size]
  · rw [isLive_kill hkd, h.before i (by omega), decide_eq_true (by omega)]
    rfl
  · rw [isUseless_kill hf' hp hkd h1 h2, isLive_kill hkd]
    by_cases e : i = k
    · subst e; simp [hu]
    · rw [decide_eq_true e, h.behind i (by omega) h2, Bool.true_and]

theorem swept_keep {f : Flow} {k : Nat} (h : Swept p f (k + 1) l) (hu : l.isUseless p k = false) : Swept p f k l := by
  refine ⟨h.flow, h.size, h.unread, fun i hi => h.before i (by omega), fun i h1 h2 => ?_⟩
  by_cases e : i = k
  · subst e
    rw [h.before i (by omega), hu]
    rfl
  · exact h.behind i (by omega) h2

theorem sweep_swept {f : Flow} (hf : f.Exact p) (hp : p.Linked) :
    Swept p f 0 ((ofFlow f p).sweep p (List.range p.size).reverse).1 := by
  suffices h : ∀ k ≤ p.size, ∀ (l : Liveness) (removed : List Nat), Swept p f k l →
      Swept p f 0 ((List.range k).reverse.foldl (visit p) (l, removed)).1 from
    h p.size (Nat.le_refl _) _ [] (swept_ofFlow f p)
  intro k
  induction k with
  | zero => exact fun _ l removed h => h
  | succ k ih =>
    intro hk l removed h
    rw [List.range_succ, List.reverse_append, List.reverse_singleton, List.singleton_append, List.foldl_cons]
    cases hu : l.isUseless p k with
    | true =>
      simp only [visit, hu, if_true]
      exact ih (by omega) _ _ (swept_kill hf hp hk h hu)
    | false =>
      simp only [visit, hu, Bool.false_eq_true, if_false]
      exact ih (by omega) _ _ (swept_keep h hu)

/-- Where no node is useless nothing is dropped. -/
theorem sweep_eq_self {nodes : List Nat} (h : ∀ i ∈ nodes, l.isUseless p i = false) : l.sweep p nodes = (l, []) := by
  unfold sweep
  induction nodes with
  | nil => rfl
  | cons i nodes ih =>
    simp only [List.foldl_cons, visit, h i List.mem_cons_self]
    exact ih fun j hj => h j (List.mem_cons_of_mem _ hj)

/-! ## Redirecting the unread results of calls -/

def unreadAt (l : Liveness) (p : Program) (i : Nat) : List Nat :=
  match p[i]? with
  | none => []
  | some n => if n.instr.category = .call then l.unreadDests p i n.instr else []

theorem unreadAt_congr {l' : Liveness} (hf : l'.flow = l.flow) (hd : l'.dead = l.dead) (i : Nat) :
    l'.unreadAt p i = l.unreadAt p i := by
  obtain ⟨flow, dead, unread⟩ := l
  obtain ⟨flow', dead', unread'⟩ := l'
  cases hf
  cases hd
  rfl

theorem redirect_step (acc : Liveness × Nat × Nat) (k : Nat) (hk : k < acc.1.unread.size) :
    (redirect p acc k).1.flow = acc.1.flow ∧ (redirect p acc k).1.dead = acc.1.dead ∧
      (redirect p acc k).1.unread.size = acc.1.unread.size ∧
      ∀ i, (redirect p acc k).1.unread.getD i [] =
        if i = k then acc.1.unread.getD i [] ++ acc.1.unreadAt p i else acc.1.unread.getD i [] := by
  obtain ⟨l, redirected, widest⟩ := acc
  simp only [redirect, unreadAt]
  cases hn : p[k]? with
  | none =>
    refine ⟨rfl, rfl, rfl, fun i => ?_⟩
    by_cases e : i = k
    · subst e; simp [hn]
    · rw [if_neg e]
  | some n =>
    by_cases hc : n.instr.category = .call
    · simp only [hc, if_true, Array.size_modify, true_and]
      intro i
      simp only [Array.getD_eq_getD_getElem?, Array.getElem?_modify]
      by_cases e : i = k
      · subst e; simp [Array.getElem?_eq_getElem hk, hn, hc]
      · simp [e, Ne.symm e]
    · simp only [hc, if_false, true_and]
      intro i
      by_cases e : i = k
      · subst e; simp [hn, hc]
      · rw [if_neg e]

theorem redirect_run (hu : l.unread = Array.replicate p.size []) {k : Nat} (hk : k ≤ p.size) :
    let l' := ((List.range k).foldl (redirect p) (l, 0, 0)).1
    l'.flow = l.flow ∧ l'.dead = l.dead ∧ l'.unread.size = p.size ∧
      ∀ i, l'.unread.getD i [] = if i < k then l.unreadAt p i else [] := by
  induction k with
  | zero =>
    refine ⟨rfl, rfl, by simp [hu], fun i => ?_⟩
    by_cases hi : i < p.size <;> simp [hu, hi]
  | succ k ih =>
    obtain ⟨h1, h2, h3, h4⟩ := ih (by omega)
    rw [List.range_succ, List.foldl_append, List.foldl_cons, List.foldl_nil]
    generalize (List.range k).foldl (redirect p) (l, 0, 0) = acc at h1 h2 h3 h4 ⊢
    obtain ⟨e1, e2, e3, e4⟩ := redirect_step (p := p) acc k (by rw [h3]; exact hk)
    refine ⟨e1.trans h1, e2.trans h2, e3.trans h3, fun i => ?_⟩
    rw [e4, h4, unreadAt_congr h1 h2]
    by_cases e : i = k
    · subst e; simp
    · rw [if_neg e]
      by_cases hi : i < k
      · rw [if_pos hi, if_pos (by omega)]
      · rw [if_neg hi, if_neg (by omega)]

/-! ## Pruning -/

/-- The marks of a pruned program, each given by the others. -/
structure Exact (p : Program) (l : Liveness) : Prop where
  flow : l.flow.Exact p
  live : ∀ i < p.size, l.isLive i = !l.isUseless p i
  unread : ∀ i, l.unread.getD i [] = l.unreadAt p i

theorem prune_fst : (prune p l).1 =
    ((List.range p.size).foldl (redirect p) ((l.sweep p (List.range p.size).reverse).1, 0, 0)).1 := rfl

theorem exact_prune {f : Flow} (hf : f.Exact p) (hp : p.Linked) : ((ofFlow f p).prune p).1.Exact p := by
  rw [prune_fst]
  have h := sweep_swept hf hp
  generalize ((ofFlow f p).sweep p (List.range p.size).reverse).1 = l at h ⊢
  obtain ⟨h1, h2, h3, h4⟩ := redirect_run (p := p) h.unread (Nat.le_refl _)
  generalize (List.range p.size).foldl (redirect p) (l, 0, 0) = acc at h1 h2 h3 h4 ⊢
  have hl (i : Nat) : acc.1.isLive i = l.isLive i := by simp only [isLive, h2]
  refine ⟨?_, fun i hi => ?_, fun i => ?_⟩
  · rw [h1, h.flow]
    exact hf
  · have hu : acc.1.isUseless p i = l.isUseless p i := by
      rw [Bool.eq_iff_iff, isUseless_iff, isUseless_iff]
      simp only [h1, hl]
    rw [hl, hu, h.behind i (Nat.zero_le i) hi]
  · rw [h4, unreadAt_congr h1 h2]
    split
    · rfl
    · rename_i hi
      rw [unreadAt, Array.getElem?_eq_none (Nat.le_of_not_lt hi)]

theorem isLive_ofFlow (f : Flow) (p : Program) (i : Nat) : (ofFlow f p).isLive i = true := by
  by_cases hi : i < p.size <;> simp [isLive, ofFlow, Array.getD_eq_getD_getElem?, hi]

theorem unread_ofFlow (f : Flow) (p : Program) (i : Nat) : (ofFlow f p).unread.getD i [] = [] := by
  by_cases hi : i < p.size <;> simp [ofFlow, Array.getD_eq_getD_getElem?, hi]

/-- Where nothing is useless, nothing is dropped. -/
theorem prune_of_useful {f : Flow} (h : ∀ i < p.size, (ofFlow f p).isUseless p i = false) :
    ((ofFlow f p).prune p).2.removed = [] ∧ ∀ i, ((ofFlow f p).prune p).1.isLive i = true := by
  have hs : (ofFlow f p).sweep p (List.range p.size).reverse = (ofFlow f p, []) :=
    sweep_eq_self fun i hi => h i (List.mem_range.mp (List.mem_reverse.mp hi))
  refine ⟨congrArg Prod.snd hs, fun i => ?_⟩
  rw [prune_fst, hs, isLive, (redirect_run (p := p) rfl (Nat.le_refl _)).2.1]
  exact isLive_ofFlow f p i

/-! ## Soundness -/

structure Sound (p : Program) (l : Liveness) : Prop where
  flow : l.flow.Exact p
  pure : ∀ (i : Nat) (n : Node), p[i]? = some n → l.isLive i = false → n.instr.isPure = true
  reads : ∀ i s w, s ∈ p.sourcesOf i → p.producerOf i s = some w → l.isLive i = true → l.isLive w = true
  links : ∀ i j, p.next? i = some j → l.isLive i = l.isLive j
  unread : ∀ i, l.unread.getD i [] = [] ∨ l.unread.getD i [] = l.unreadAt p i

theorem sound_ofFlow {f : Flow} (hf : f.Exact p) : (ofFlow f p).Sound p := by
  refine ⟨hf, fun i n _ h => ?_, fun i s w _ _ _ => isLive_ofFlow f p w,
    fun i j _ => (isLive_ofFlow f p i).trans (isLive_ofFlow f p j).symm, fun i => .inl (unread_ofFlow f p i)⟩
  rw [isLive_ofFlow] at h
  cases h

theorem producer_lt_size {i w : Nat} {s : Source} (h : p.producerOf i s = some w) : w < p.size := by
  cases s with
  | reg r =>
    obtain ⟨-, hs, -⟩ := lastStore_eq_some_iff.mp h
    obtain ⟨x, hx, -⟩ := storesAt_iff.mp hs
    rw [← Program.length_instrs]
    exact (List.getElem?_eq_some_iff.mp hx).1
  | const c => cases h
  | acc => cases h

/-- A node that only stores to the accumulator has no readers. -/
theorem no_readers_of_acc (hf : l.flow.Exact p) {i : Nat} {n : Node} (hn : p[i]? = some n)
    (hd : n.instr.dests = [.acc]) (j pos : Nat) : (j, pos) ∉ l.flow.readers.getD i #[] := by
  intro h
  obtain ⟨s, -, hs⟩ := (hf.mem_readers (Program.lt_size_of_getElem? hn)).mp h
  cases s with
  | reg r =>
    obtain ⟨-, hst, -⟩ := lastStore_eq_some_iff.mp hs
    obtain ⟨x, hx, hr⟩ := storesAt_iff.mp hst
    rw [p.getElem?_instrs, hn] at hx
    cases hx
    simp [hd] at hr
  | const c => cases hs
  | acc => cases hs

theorem Exact.sound (h : l.Exact p) (hg : p.Grouped) (hp : p.Formed) : l.Sound p := by
  refine ⟨h.flow, fun i n hn hd => ?_, fun i s w hs hw hl => ?_, fun i j hij => ?_, fun i => .inr (h.unread i)⟩
  · rw [h.live i (Program.lt_size_of_getElem? hn), Bool.not_eq_false'] at hd
    obtain ⟨m, hm, hpure, -⟩ := isUseless_iff.mp hd
    rw [hn] at hm
    cases hm
    exact hpure
  · have hwp := producer_lt_size hw
    obtain ⟨pos, hpos⟩ := List.getElem?_of_mem hs
    have hr := (h.flow.mem_readers hwp).mpr ⟨s, hpos, hw⟩
    rw [h.live w hwp, Bool.not_eq_true']
    by_contra hu
    obtain ⟨-, -, -, hdead, -⟩ := isUseless_iff.mp (Bool.not_eq_false _ |>.mp hu)
    rw [hdead i pos hr] at hl
    cases hl
  · obtain ⟨n, hn⟩ : ∃ n, p[i]? = some n := ⟨_, Array.getElem?_eq_getElem (Program.lt_size_of_next? hij)⟩
    have ha : .acc ∈ n.instr.dests := by
      rw [hg.next?_eq hn] at hij
      by_contra hc
      rw [if_neg hc] at hij
      cases hij
    obtain ⟨hc, hd⟩ := (hp.fits i n hn).of_acc_mem_dests ha
    -- Nothing reads the node, so it is useless just when the node it feeds is dead.
    have hu : l.isUseless p i = true ↔ l.isLive j = false := by
      rw [isUseless_iff]
      constructor
      · rintro ⟨-, -, -, -, hj⟩
        exact hj j hij
      · intro hj
        refine ⟨n, hn, by simp [Instruction.isPure, hc], fun k pos hk => ?_, fun k hk => ?_⟩
        · exact absurd hk (no_readers_of_acc h.flow hn hd k pos)
        · rw [hij] at hk
          cases hk
          exact hj
    rw [h.live i (Program.lt_size_of_getElem? hn)]
    cases hj : l.isLive j with
    | false => rw [hu.mpr hj]; rfl
    | true =>
      rw [Bool.not_eq_true', ← Bool.not_eq_true, hu, hj]
      nofun

theorem mem_unreadAt {i pos : Nat} :
    pos ∈ l.unreadAt p i ↔ ∃ n r, p[i]? = some n ∧ n.instr.category = .call ∧ n.instr.dests[pos]? = some (.reg r) ∧
      ∀ use ∈ l.liveReaders i, readsRegister p r use.1 use.2 = false := by
  unfold unreadAt
  cases hn : p[i]? with
  | none => simp
  | some n =>
    by_cases hc : n.instr.category = .call
    · simp only [hc, if_true, unreadDests, List.mem_filterMap, Prod.exists, List.mem_zipIdx_iff_getElem?,
        Option.some.injEq, exists_and_left, exists_eq_left', true_and]
      constructor
      · rintro ⟨d, k, hd, h⟩
        cases d with
        | acc => cases h
        | reg r =>
          simp only [List.any_eq_true, Option.ite_none_left_eq_some, Option.some.injEq, not_exists, not_and,
            Bool.not_eq_true] at h
          obtain ⟨h, rfl⟩ := h
          exact ⟨r, hd, h⟩
      · rintro ⟨r, hd, h⟩
        exact ⟨.reg r, pos, hd, by simpa using h⟩
    · simp [hc]

/-- A result that a live node reads is not marked unread. -/
theorem Sound.isUnread_of_read (hl : l.Sound p) {i w k : Nat} {r : UInt16} {n : Node}
    (hi : l.isLive i = true) (hr : .reg r ∈ p.sourcesOf i) (hw : lastStore p.instrs (.reg r) i = some w)
    (hn : p[w]? = some n) (hd : n.instr.dests[k]? = some (.reg r)) : l.isUnread w k = false := by
  rw [← Bool.not_eq_true]
  intro hu
  have hu : k ∈ l.unread.getD w [] := by simpa [isUnread] using hu
  rcases hl.unread w with e | e
  · rw [e] at hu
    cases hu
  · rw [e] at hu
    obtain ⟨m, x, hm, -, hx, hno⟩ := mem_unreadAt.mp hu
    rw [hn] at hm
    cases hm
    rw [hd] at hx
    cases hx
    obtain ⟨pos, hpos⟩ := List.getElem?_of_mem hr
    have hread := (hl.flow.mem_readers (Program.lt_size_of_getElem? hn)).mpr ⟨.reg r, hpos, hw⟩
    have := hno (i, pos) (mem_liveReaders.mpr ⟨hread, hi⟩)
    obtain ⟨y, hy, -⟩ := Program.mem_sourcesOf.mp hr
    rw [Program.sourcesOf_eq hy] at hpos
    simp [readsRegister, hy, hpos] at this

end LaneScript.Liveness
