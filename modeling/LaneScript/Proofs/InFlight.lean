/-
  LaneScript.Proofs.InFlight — the values in flight, counted one by one.

  The running sums of an array with one up at the beginning of each stretch and one down
  behind its end count, at each position, the stretches that cover it (`peak_deltas`). So
  the most values in flight are the most that one node of the order finds in flight
  (`inFlight_eq`): a value, which is a node and one of its destinations, is in flight at
  `u` if it is stored no later and `u` is the node that stores it or some live reader is
  not before `u` (`Held`).
-/
import LaneScript.Proofs.Pressure
import LaneScript.Proofs.Tally

namespace LaneScript.Program

/-! ## Running sums -/

def covers (t : Nat) (s : Nat × Nat) : Bool := s.1 ≤ t && t ≤ s.2

/-- How many stretches begin before `t`, less those that end before it. -/
def balance (stretches : List (Nat × Nat)) (t : Nat) : Int :=
  (stretches.countP fun s => s.1 < t : Nat) - (stretches.countP fun s => s.2 + 1 < t : Nat)

theorem getElem?_foldl_deltas (stretches : List (Nat × Nat)) (d : Array Int) (t : Nat) :
    (stretches.foldl (fun d (s : Nat × Nat) => (d.modify s.1 (· + 1)).modify (s.2 + 1) (· - 1)) d)[t]? =
      d[t]?.map (· + (balance stretches (t + 1) - balance stretches t)) := by
  induction stretches generalizing d with
  | nil => simp [balance]
  | cons s stretches ih =>
    rw [List.foldl_cons, ih, Array.getElem?_modify, Array.getElem?_modify]
    have hstep : balance (s :: stretches) (t + 1) - balance (s :: stretches) t =
        balance stretches (t + 1) - balance stretches t + (if s.1 = t then 1 else 0) -
          (if s.2 + 1 = t then 1 else 0) := by
      simp only [balance, List.countP_cons, decide_eq_true_eq]
      split <;> split <;> split <;> split <;> split <;> split <;> omega
    rw [hstep]
    cases d[t]? with
    | none => split <;> split <;> rfl
    | some a => split <;> split <;> simp only [Option.map_some, Option.some.injEq] <;> omega

theorem getElem?_deltas {length t : Nat} (stretches : List (Nat × Nat)) (ht : t ≤ length) :
    (deltas length stretches)[t]? = some (balance stretches (t + 1) - balance stretches t) := by
  have hlt : t < length + 1 := by omega
  rw [deltas, getElem?_foldl_deltas, Array.getElem?_replicate, if_pos hlt, Option.map_some, Int.zero_add]

theorem size_deltas (length : Nat) (stretches : List (Nat × Nat)) : (deltas length stretches).size = length + 1 := by
  unfold deltas
  suffices ∀ d : Array Int, (stretches.foldl (fun d (s : Nat × Nat) =>
      (d.modify s.1 (· + 1)).modify (s.2 + 1) (· - 1)) d).size = d.size by
    rw [this, Array.size_replicate]
  intro d
  induction stretches generalizing d with
  | nil => rfl
  | cons s stretches ih => rw [List.foldl_cons, ih, Array.size_modify, Array.size_modify]

/-- A stretch that begins before `t + 1` covers `t` or ends before it. -/
theorem balance_eq {stretches : List (Nat × Nat)} (h : ∀ s ∈ stretches, s.1 ≤ s.2) (t : Nat) :
    balance stretches (t + 1) = (stretches.countP (covers t) : Nat) := by
  induction stretches with
  | nil => rfl
  | cons s stretches ih =>
    have hs := h s List.mem_cons_self
    have hrest := ih fun s' hs' => h s' (List.mem_cons_of_mem _ hs')
    simp only [balance, List.countP_cons, covers, decide_eq_true_eq, Bool.and_eq_true] at hrest ⊢
    split <;> split <;> split <;> omega

theorem balance_zero (stretches : List (Nat × Nat)) : balance stretches 0 = 0 := by simp [balance]

/-- Each entry of the array is a step of the running sum. -/
theorem balance_succ {length t : Nat} {stretches : List (Nat × Nat)} {d : Int}
    (ht : (deltas length stretches).toList[t]? = some d) : balance stretches (t + 1) = balance stretches t + d := by
  rw [Array.getElem?_toList] at ht
  have hlt := (Array.getElem?_eq_some_iff.mp ht).1
  rw [size_deltas] at hlt
  rw [getElem?_deltas stretches (by omega)] at ht
  cases ht
  omega

theorem foldl_peak (ds : List Int) (f : Nat → Int) (hf : ∀ t d, ds[t]? = some d → f (t + 1) = f t + d) (best : Int) :
    (ds.foldl (fun (current, best) d => (current + d, max best (current + d))) (f 0, best)).2 =
      ((List.range ds.length).map fun t => f (t + 1)).foldl max best := by
  induction ds generalizing f best with
  | nil => rfl
  | cons d ds ih =>
    have h0 : f 0 + d = f 1 := (hf 0 d rfl).symm
    rw [List.foldl_cons, List.length_cons, List.range_succ_eq_map, List.map_cons, List.foldl_cons, List.map_map]
    dsimp only
    rw [h0]
    exact ih (fun t => f (t + 1)) (fun t d ht => hf (t + 1) d ht) (max best (f 1))

theorem foldl_max_cast (ns : List Nat) (best : Nat) :
    (ns.map fun n : Nat => (n : Int)).foldl max (best : Int) = (max best (largest ns) : Nat) := by
  induction ns generalizing best with
  | nil => rw [largest, List.foldr_nil, Nat.max_zero]; rfl
  | cons n ns ih =>
    rw [List.map_cons, List.foldl_cons, show max (best : Int) (n : Int) = (max best n : Nat) by omega, ih]
    show ((max (max best n) (largest ns) : Nat) : Int) = (max best (max n (largest ns)) : Nat)
    rw [Nat.max_assoc]

/-- The peak of the running sums is the most stretches that cover one position. -/
theorem peak_deltas {length : Nat} {stretches : List (Nat × Nat)} (h : ∀ s ∈ stretches, s.1 ≤ s.2 ∧ s.2 < length) :
    (peak (deltas length stretches).toList).toNat =
      largest ((List.range length).map fun t => stretches.countP (covers t)) := by
  have hlast : stretches.countP (covers length) = 0 := by
    refine List.countP_eq_zero.mpr fun s hs => ?_
    have := (h s hs).2
    simp only [covers, Bool.and_eq_true, decide_eq_true_eq]
    omega
  have hpeak := foldl_peak (deltas length stretches).toList (balance stretches) (fun _ _ => balance_succ) 0
  rw [balance_zero, Array.length_toList, size_deltas] at hpeak
  rw [peak, hpeak]
  simp only [balance_eq fun s hs => (h s hs).1]
  have hcast := foldl_max_cast ((List.range (length + 1)).map fun t => stretches.countP (covers t)) 0
  rw [List.map_map] at hcast
  rw [show (fun t => ((stretches.countP (covers t) : Nat) : Int)) =
    (fun n : Nat => (n : Int)) ∘ fun t => stretches.countP (covers t) from rfl]
  refine (congrArg Int.toNat hcast).trans ?_
  rw [Int.toNat_natCast, Nat.zero_max, List.range_succ, List.map_append, List.map_singleton, hlast]
  refine Nat.le_antisymm (largest_le fun n hn => ?_) (largest_le fun n hn => le_largest (List.mem_append_left _ hn))
  rcases List.mem_append.mp hn with hn | hn
  · exact le_largest hn
  · rw [List.mem_singleton.mp hn]
    exact Nat.zero_le _

/-! ## Values -/

def value? (l : Liveness) (w : Nat) : Dest × Nat → Option (Nat × UInt16)
  | (.reg r, k) => if l.isUnread w k then none else some (k, r)
  | (.acc, _) => none

def values (p : Program) (l : Liveness) (w : Nat) : List (Nat × UInt16) :=
  match p[w]? with
  | none => []
  | some n => n.instr.dests.zipIdx.filterMap (value? l w)

def takers (p : Program) (l : Liveness) (w : Nat) (r : UInt16) : List Nat :=
  ((l.liveReaders w).filter fun use => Liveness.readsRegister p r use.1 use.2).map Prod.fst

def flight (p : Program) (l : Liveness) (place : Array Nat) (w : Nat) (r : UInt16) : Nat × Nat :=
  (place.getD w 0, ((p.takers l w r).map fun x => place.getD x 0).foldl max (place.getD w 0))

variable {q p : Program} {l : Liveness}

theorem value?_eq_some_iff {w j k : Nat} {d : Dest} {r : UInt16} :
    value? l w (d, j) = some (k, r) ↔ j = k ∧ d = .reg r ∧ l.isUnread w j = false := by
  cases d with
  | acc => simp [value?]
  | reg r' =>
    rw [value?, Option.ite_none_left_eq_some, Option.some.injEq, Prod.mk.injEq, Dest.reg.injEq, Bool.not_eq_true]
    exact ⟨fun ⟨hu, hk, hr⟩ => ⟨hk, hr, hu⟩, fun ⟨hk, hr, hu⟩ => ⟨hu, hk, hr⟩⟩

theorem mem_values {w k : Nat} {r : UInt16} : (k, r) ∈ p.values l w ↔
    ∃ n, p[w]? = some n ∧ n.instr.dests[k]? = some (.reg r) ∧ l.isUnread w k = false := by
  unfold values
  cases p[w]? with
  | none => simp
  | some n =>
    simp only [List.mem_filterMap, Prod.exists, List.mk_mem_zipIdx_iff_getElem?, value?_eq_some_iff, Option.some.injEq,
      exists_eq_left']
    constructor
    · rintro ⟨d, j, hd, rfl, rfl, hu⟩
      exact ⟨hd, hu⟩
    · rintro ⟨hd, hu⟩
      exact ⟨.reg r, k, hd, rfl, rfl, hu⟩

theorem mem_takers {w x : Nat} {r : UInt16} : x ∈ p.takers l w r ↔
    ∃ pos, (x, pos) ∈ l.liveReaders w ∧ Liveness.readsRegister p r x pos = true := by
  simp [takers, List.mem_filter]

theorem flights_eq (place : Array Nat) (w : Nat) :
    p.flights l place w = (p.values l w).map fun v => p.flight l place w v.2 := by
  unfold flights values
  cases p[w]? with
  | none => rfl
  | some n =>
    dsimp only
    rw [List.map_filterMap]
    refine List.filterMap_congr fun d _ => ?_
    obtain ⟨d, k⟩ := d
    cases d with
    | acc => rfl
    | reg r =>
      dsimp only [value?]
      split
      · rfl
      · simp [flight, takers, List.map_map, Function.comp_def]

theorem nodup_values (w : Nat) : ((p.values l w).map Prod.fst).Nodup := by
  unfold values
  cases p[w]? with
  | none => exact List.nodup_nil
  | some n =>
    have hpos : n.instr.dests.zipIdx.Pairwise fun a b => a.2 < b.2 := by
      refine List.pairwise_map.mp ?_
      rw [List.zipIdx_map_snd]
      exact List.pairwise_lt_range'
    refine List.pairwise_map.mpr (hpos.filterMap _ fun a b hab v hv v' hv' => ?_)
    rw [← (value?_eq_some_iff.mp hv).1, ← (value?_eq_some_iff.mp hv').1]
    exact Nat.ne_of_lt hab

/-! ## The values in flight -/

def held (p : Program) (l : Liveness) (order : List Nat) (t : Nat) : List (Nat × Nat) :=
  order.flatMap fun w => ((p.values l w).filter fun v => covers t (p.flight l (positions p.size order) w v.2)).map
    fun v => (w, v.1)

/-- Value `k` of node `w` is in flight when node `u` has its turn. -/
def Held (p : Program) (l : Liveness) (u w k : Nat) : Prop :=
  l.isLive w = true ∧ ∃ r, (k, r) ∈ p.values l w ∧ ¬ p.Before u w ∧ (w = u ∨ ∃ x ∈ p.takers l w r, ¬ p.Before x u)

theorem length_flatMap_congr {α β γ : Type} {xs : List α} {f : α → List β} {g : α → List γ}
    (h : ∀ x ∈ xs, (f x).length = (g x).length) : (xs.flatMap f).length = (xs.flatMap g).length := by
  induction xs with
  | nil => rfl
  | cons x xs ih =>
    rw [List.flatMap_cons, List.flatMap_cons, List.length_append, List.length_append, h x List.mem_cons_self,
      ih fun y hy => h y (List.mem_cons_of_mem _ hy)]

theorem le_foldl_max_iff {t start : Nat} {xs : List Nat} :
    t ≤ xs.foldl max start ↔ t ≤ start ∨ ∃ x ∈ xs, t ≤ x := by
  induction xs generalizing start with
  | nil => simp
  | cons x xs ih =>
    rw [List.foldl_cons, ih, List.exists_mem_cons_iff, ← or_assoc]
    exact or_congr_left (by omega)

theorem covers_flight {place : Array Nat} {t w : Nat} {r : UInt16} :
    covers t (p.flight l place w r) = true ↔
      place.getD w 0 ≤ t ∧ (t ≤ place.getD w 0 ∨ ∃ x ∈ p.takers l w r, t ≤ place.getD x 0) := by
  rw [covers, Bool.and_eq_true, decide_eq_true_eq, decide_eq_true_eq, flight, le_foldl_max_iff]
  simp only [List.mem_map, exists_exists_and_eq_and]

theorem countP_flights (order : List Nat) (t : Nat) :
    (order.flatMap (p.flights l (positions p.size order))).countP (covers t) = (p.held l order t).length := by
  rw [List.countP_eq_length_filter, List.filter_flatMap, held]
  refine length_flatMap_congr fun w _ => ?_
  rw [flights_eq, List.filter_map, List.length_map, List.length_map]
  rfl

theorem nodup_held {order : List Nat} (ho : order.Nodup) (t : Nat) : (p.held l order t).Nodup := by
  refine List.nodup_flatMap.mpr ⟨fun w _ => ?_, ho.imp fun {a b} hab x ha hb => ?_⟩
  · refine List.pairwise_map.mpr (List.Pairwise.filter _ ?_)
    exact (List.pairwise_map.mp (nodup_values w)).imp fun hne e => hne (Prod.mk.inj e).2
  · obtain ⟨v, -, rfl⟩ := List.mem_map.mp ha
    obtain ⟨v', -, e⟩ := List.mem_map.mp hb
    exact hab (Prod.mk.inj e).1.symm

section Order

variable (h : q.Handed l p)
include h

theorem order_getElem?_place {w : Nat} (hw : w < p.size) (hl : l.isLive w = true) :
    (p.emissionOrder l)[(positions p.size (p.emissionOrder l)).getD w 0]? = some w := by
  obtain ⟨x, hx⟩ := List.getElem?_of_mem ((mem_order_iff h).mpr ⟨hw, hl⟩)
  rw [getD_positions (nodup_order h) hx hw]
  exact hx

variable (hf : l.flow.Exact q)
include hf

theorem taker_lt_size {w x : Nat} {r : UInt16} (hw : w < p.size) (hx : x ∈ p.takers l w r) :
    x < p.size ∧ l.isLive x = true := by
  obtain ⟨pos, hread, -⟩ := mem_takers.mp hx
  obtain ⟨hread, hlive⟩ := Liveness.mem_liveReaders.mp hread
  rw [h.size] at hw ⊢
  exact ⟨hf.reader_lt_size hw hread, hlive⟩

theorem mem_held {t u w k : Nat} (hu : (p.emissionOrder l)[t]? = some u) :
    (w, k) ∈ p.held l (p.emissionOrder l) t ↔ p.Held l u w k := by
  have turn {x : Nat} (hx : x < p.size ∧ l.isLive x = true) := order_getElem?_place h hx.1 hx.2
  have hmem : (w, k) ∈ p.held l (p.emissionOrder l) t ↔ (w < p.size ∧ l.isLive w = true) ∧ ∃ r,
      (k, r) ∈ p.values l w ∧ covers t (p.flight l (positions p.size (p.emissionOrder l)) w r) = true := by
    rw [held, List.mem_flatMap]
    simp only [mem_order_iff h, List.mem_map, List.mem_filter, Prod.exists, Prod.mk.injEq]
    constructor
    · rintro ⟨w', hw, k', r, ⟨hv, hc⟩, rfl, rfl⟩
      exact ⟨hw, r, hv, hc⟩
    · rintro ⟨hw, r, hv, hc⟩
      exact ⟨w, hw, k, r, ⟨hv, hc⟩, rfl, rfl⟩
  -- Positions tell what comes first, so a stretch covers `t` just when the value is in flight at `u`.
  have hcovers {r : UInt16} (hw : w < p.size ∧ l.isLive w = true) :
      covers t (p.flight l (positions p.size (p.emissionOrder l)) w r) = true ↔
        ¬ p.Before u w ∧ (w = u ∨ ∃ x ∈ p.takers l w r, ¬ p.Before x u) := by
    have hle := order_lt_iff h hu (turn hw)
    rw [covers_flight, ← Nat.not_lt, hle]
    refine and_congr_right fun hnot => or_congr ?_ (exists_congr fun x => and_congr_right fun hx => ?_)
    · constructor
      · intro h1
        have e : t = (positions p.size (p.emissionOrder l)).getD w 0 := by
          rw [← hle] at hnot
          omega
        have hw' := turn hw
        rw [← e, hu] at hw'
        exact (Option.some.inj hw').symm
      · rintro rfl
        rw [order_inj h hu (turn hw)]
    · rw [← Nat.not_lt, order_lt_iff h (turn (taker_lt_size h hf hw.1 hx)) hu]
  rw [hmem, Held]
  constructor
  · rintro ⟨hw, r, hv, hc⟩
    exact ⟨hw.2, r, hv, (hcovers hw).mp hc⟩
  · rintro ⟨hl, r, hv, hc⟩
    obtain ⟨n, hn, -⟩ := mem_values.mp hv
    exact ⟨⟨lt_size_of_getElem? hn, hl⟩, r, hv, (hcovers ⟨lt_size_of_getElem? hn, hl⟩).mpr hc⟩

/-- Every stretch lies within the order. -/
theorem flights_within {s : Nat × Nat}
    (hs : s ∈ (p.emissionOrder l).flatMap (p.flights l (positions p.size (p.emissionOrder l)))) :
    s.1 ≤ s.2 ∧ s.2 < (p.emissionOrder l).length := by
  have place_lt {x : Nat} (hx : x < p.size ∧ l.isLive x = true) :=
    (List.getElem?_eq_some_iff.mp (order_getElem?_place h hx.1 hx.2)).1
  obtain ⟨w, hw, hs⟩ := List.mem_flatMap.mp hs
  have hw := (mem_order_iff h).mp hw
  rw [flights_eq] at hs
  obtain ⟨v, -, rfl⟩ := List.mem_map.mp hs
  refine ⟨le_foldl_max_iff.mpr (.inl (Nat.le_refl _)), ?_⟩
  by_contra hge
  rcases le_foldl_max_iff.mp (Nat.le_of_not_lt hge) with hle | ⟨y, hy, hle⟩
  · have := place_lt hw
    omega
  · obtain ⟨x, hx, rfl⟩ := List.mem_map.mp hy
    have := place_lt (taker_lt_size h hf hw.1 hx)
    omega

/-- The most values in flight are the most that one node of the order finds in flight. -/
theorem inFlight_eq : p.inFlight l (p.emissionOrder l) =
    largest ((List.range (p.emissionOrder l).length).map fun t => (p.held l (p.emissionOrder l) t).length) := by
  rw [inFlight, peak_deltas]
  · simp only [countP_flights]
  · intro s hs
    exact flights_within h hf hs

end Order

end LaneScript.Program
