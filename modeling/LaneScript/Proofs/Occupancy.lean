/-
  LaneScript.Proofs.Occupancy — registers in use, position by position.

  In an order of nodes, the node at `y` reads a register from the node at `x` if it reads
  the register and no node between the two stores to it (`takesFrom`). A value is in use
  at `t` if it is stored at `t`, or before and read at `t` or later; `occupied` lists the
  values in use at a position. This says nothing of how they are counted. Proved: the
  readers that the flow notes are those that read from a node in the order in which nodes
  are emitted, though nodes have moved since (`mem_takers_iff`), and so the most values in
  flight are the most that are in use at one position (`inFlight_occupied`). On the way
  there the running sum is never negative, and no entry outside the array is touched.
-/
import LaneScript.Proofs.InFlight

namespace LaneScript

namespace Program

/-! ## Values in use -/

/-- The node at position `y` of an order reads register `r` as the node at `x` left it. -/
def takesFrom (p : Program) (l : Liveness) (order : List Nat) (r : UInt16) (x y : Nat) : Bool :=
  x < y && order[y]?.any (fun node => (p.sourcesOf node).contains (.reg r)) &&
    !((order.take y).drop (x + 1)).any (l.stores p r)

/-- What the node at `x` keeps in register `r` is in use at `t`: it is stored there, or before and still read. -/
def occupies (p : Program) (l : Liveness) (order : List Nat) (t x : Nat) (r : UInt16) : Bool :=
  x ≤ t && (x == t || (List.range order.length).any fun y => t ≤ y && p.takesFrom l order r x y)

def occupied (p : Program) (l : Liveness) (order : List Nat) (t : Nat) : List (Nat × Nat) :=
  order.zipIdx.flatMap fun entry =>
    ((p.values l entry.1).filter fun v => p.occupies l order t entry.2 v.2).map fun v => (entry.2, v.1)

variable {q p : Program} {l : Liveness}

theorem flatMap_zipIdx {α β : Type} (xs : List α) (f : α → List β) :
    (xs.zipIdx.flatMap fun entry => f entry.1) = xs.flatMap f := by
  conv => rhs; rw [← List.zipIdx_map_fst 0 xs, List.flatMap_map]

theorem takesFrom_iff {order : List Nat} {r : UInt16} {x y : Nat} : p.takesFrom l order r x y = true ↔
    x < y ∧ (∃ node, order[y]? = some node ∧ .reg r ∈ p.sourcesOf node) ∧
      ∀ z node, x < z → z < y → order[z]? = some node → l.stores p r node = false := by
  have hany : ((order.take y).drop (x + 1)).any (l.stores p r) = false ↔
      ∀ z node, x < z → z < y → order[z]? = some node → l.stores p r node = false := by
    rw [List.any_eq_false]
    constructor
    · intro h z node hxz hzy hz
      have hmem : ((order.take y).drop (x + 1))[z - (x + 1)]? = some node := by
        rw [List.getElem?_drop, show x + 1 + (z - (x + 1)) = z by omega, List.getElem?_take, if_pos hzy, hz]
      simpa using h node (List.mem_of_getElem? hmem)
    · intro h node hnode
      obtain ⟨k, hk⟩ := List.getElem?_of_mem hnode
      rw [List.getElem?_drop, List.getElem?_take] at hk
      split at hk
      · rename_i hlt
        simp [h (x + 1 + k) node (by omega) hlt hk]
      · cases hk
  rw [takesFrom, Bool.and_eq_true, Bool.and_eq_true, decide_eq_true_eq, Bool.not_eq_true', hany, Option.any_eq_true,
    and_assoc]
  simp

theorem occupies_iff {order : List Nat} {t x : Nat} {r : UInt16} : p.occupies l order t x r = true ↔
    x ≤ t ∧ (x = t ∨ ∃ y, t ≤ y ∧ p.takesFrom l order r x y = true) := by
  have hlt {y : Nat} (h : p.takesFrom l order r x y = true) : y < order.length := by
    obtain ⟨-, ⟨node, hnode, -⟩, -⟩ := takesFrom_iff.mp h
    exact (List.getElem?_eq_some_iff.mp hnode).1
  simp only [occupies, Bool.and_eq_true, Bool.or_eq_true, decide_eq_true_eq, beq_iff_eq, List.any_eq_true, List.mem_range]
  refine and_congr_right fun _ => or_congr_right ?_
  constructor
  · intro hread
    obtain ⟨y, -, hy⟩ := hread
    exact ⟨y, hy⟩
  · intro hread
    obtain ⟨y, hty, hy⟩ := hread
    exact ⟨y, hlt hy, hty, hy⟩

/-! ## Readers of the flow and readers in the order -/

section Order

variable (h : q.Handed l p) (hl : l.Sound q)
include h hl

/-- Where a node of the order keeps a value in a register, it is read from there just by the nodes that read it from
    there in the program before anything was moved. -/
theorem takesFrom_iff_lastStore {x y w z k : Nat} {r : UInt16} (hx : (p.emissionOrder l)[x]? = some w)
    (hy : (p.emissionOrder l)[y]? = some z) (hv : (k, r) ∈ p.values l w) :
    p.takesFrom l (p.emissionOrder l) r x y = true ↔
      .reg r ∈ p.sourcesOf z ∧ lastStore q.instrs (.reg r) z = some w := by
  obtain ⟨hws, hwl⟩ := (mem_order_iff h).mp (List.mem_of_getElem? hx)
  obtain ⟨hzs, hzl⟩ := (mem_order_iff h).mp (List.mem_of_getElem? hy)
  rw [takesFrom_iff]
  constructor
  · intro hread
    obtain ⟨hlt, ⟨z', hz', hr⟩, hbetween⟩ := hread
    rw [hy] at hz'
    cases hz'
    refine ⟨hr, ?_⟩
    obtain ⟨w', hw'⟩ := hl.flow.written z r (h.mem_sourcesOf_of_reg hr)
    have hlive' := h.live_producer hzl hr hw' hl
    obtain ⟨-, n', -, hn', -, hmem, hunread⟩ := h.dests_producer hzl hr hw' hl
    obtain ⟨k', hk'⟩ := List.getElem?_of_mem hmem
    have hstores' : l.stores p r w' = true := Liveness.stores_iff.mpr ⟨hlive', n', k', hn', hk', hunread k' hk'⟩
    have hstores : l.stores p r w = true := by
      obtain ⟨n, hn, hd, hu⟩ := mem_values.mp hv
      exact Liveness.stores_iff.mpr ⟨hwl, n, k, hn, hd, hu⟩
    obtain ⟨x', hx'⟩ := List.getElem?_of_mem ((mem_order_iff h).mpr ⟨lt_size_of_getElem? hn', hlive'⟩)
    have hlt' := (order_lt_iff h hx' hy).mpr (h.before_of_read hzl hr hw')
    -- The two stores cannot both be the last before the read, unless they are one.
    rcases Nat.lt_trichotomy x x' with hxx | rfl | hxx
    · rw [hbetween x' w' hxx hlt' hx'] at hstores'
      cases hstores'
    · rw [hx] at hx'
      cases hx'
      exact hw'
    · have := h.no_store_between hzl hr hw' ((order_lt_iff h hx' hx).mp hxx) ((order_lt_iff h hx hy).mp hlt)
      rw [this] at hstores
      cases hstores
  · intro hread
    obtain ⟨hr, hw⟩ := hread
    refine ⟨(order_lt_iff h hx hy).mpr (h.before_of_read hzl hr hw), ⟨z, hy, hr⟩, ?_⟩
    intro u node hxu huy hu
    exact h.no_store_between hzl hr hw ((order_lt_iff h hx hu).mp hxu) ((order_lt_iff h hu hy).mp huy)

theorem mem_takers_iff {x w k : Nat} {r : UInt16} (hx : (p.emissionOrder l)[x]? = some w) (hv : (k, r) ∈ p.values l w)
    (z : Nat) : z ∈ p.takers l w r ↔
      ∃ y, (p.emissionOrder l)[y]? = some z ∧ p.takesFrom l (p.emissionOrder l) r x y = true := by
  have hws := ((mem_order_iff h).mp (List.mem_of_getElem? hx)).1
  rw [mem_takers]
  constructor
  · intro htaken
    obtain ⟨pos, hread, hreg⟩ := htaken
    obtain ⟨hread, hlive⟩ := Liveness.mem_liveReaders.mp hread
    obtain ⟨s, hs, hp⟩ := (hl.flow.mem_readers (by rw [← h.size]; exact hws)).mp hread
    have hreg := Liveness.readsRegister_iff.mp hreg
    have hkept := h.kept z pos _ hreg (by simp)
    rw [hs] at hkept
    cases hkept
    have hzs : z < p.size := by
      obtain ⟨n, hn, -⟩ := mem_sourcesOf.mp (List.mem_of_getElem? hreg)
      exact lt_size_of_getElem? hn
    obtain ⟨y, hy⟩ := List.getElem?_of_mem ((mem_order_iff h).mpr ⟨hzs, hlive⟩)
    exact ⟨y, hy, (takesFrom_iff_lastStore h hl hx hy hv).mpr ⟨List.mem_of_getElem? hreg, hp⟩⟩
  · intro hread
    obtain ⟨y, hy, hread⟩ := hread
    obtain ⟨hr, hw⟩ := (takesFrom_iff_lastStore h hl hx hy hv).mp hread
    obtain ⟨pos, hpos⟩ := List.getElem?_of_mem hr
    refine ⟨pos, Liveness.mem_liveReaders.mpr ⟨?_, ((mem_order_iff h).mp (List.mem_of_getElem? hy)).2⟩,
      Liveness.readsRegister_iff.mpr hpos⟩
    exact (hl.flow.mem_readers (by rw [← h.size]; exact hws)).mpr ⟨.reg r, h.kept z pos _ hpos (by simp), hw⟩

/-- The stretch of a value covers the positions at which it is in use. -/
theorem covers_flight_iff {t x w k : Nat} {r : UInt16} (hx : (p.emissionOrder l)[x]? = some w)
    (hv : (k, r) ∈ p.values l w) :
    covers t (p.flight l (positions p.size (p.emissionOrder l)) w r) = p.occupies l (p.emissionOrder l) t x r := by
  have place {y z : Nat} (hy : (p.emissionOrder l)[y]? = some z) :
      (positions p.size (p.emissionOrder l)).getD z 0 = y :=
    getD_positions (nodup_order h) hy ((mem_order_iff h).mp (List.mem_of_getElem? hy)).1
  rw [Bool.eq_iff_iff, covers_flight, occupies_iff, place hx]
  refine and_congr_right fun hle => or_congr (by omega) ?_
  constructor
  · intro htaken
    obtain ⟨z, hz, hzt⟩ := htaken
    obtain ⟨y, hy, hread⟩ := (mem_takers_iff h hl hx hv z).mp hz
    rw [place hy] at hzt
    exact ⟨y, hzt, hread⟩
  · intro hread
    obtain ⟨y, hty, hread⟩ := hread
    obtain ⟨-, ⟨z, hy, -⟩, -⟩ := takesFrom_iff.mp hread
    exact ⟨z, (mem_takers_iff h hl hx hv z).mpr ⟨y, hy, hread⟩, by rw [place hy]; exact hty⟩

theorem length_held_eq (t : Nat) :
    (p.held l (p.emissionOrder l) t).length = (p.occupied l (p.emissionOrder l) t).length := by
  rw [held, ← flatMap_zipIdx, occupied]
  refine length_flatMap_congr ?_
  intro entry hmem
  have hx := List.mk_mem_zipIdx_iff_getElem?.mp hmem
  rw [List.length_map, List.length_map]
  refine congrArg List.length (List.filter_congr ?_)
  intro v hv
  exact covers_flight_iff h hl hx hv

end Order

/-! ## The running sum -/

/-- One up where a value of an order begins to be in flight, one down behind its end. -/
def flightDeltas (p : Program) (l : Liveness) (order : List Nat) : Array Int :=
  deltas order.length (order.flatMap (p.flights l (positions p.size order)))

theorem foldl_take_deltas {length n : Nat} {stretches : List (Nat × Nat)} (hn : n ≤ length + 1) :
    ((deltas length stretches).toList.take n).foldl (· + ·) 0 = balance stretches n := by
  induction n with
  | zero => rw [balance_zero]; rfl
  | succ n ih =>
    have hlt : n < (deltas length stretches).toList.length := by
      rw [Array.length_toList, size_deltas]
      omega
    have hd := List.getElem?_eq_getElem hlt
    rw [List.take_add_one, hd, List.foldl_append, ih (by omega), balance_succ hd]
    rfl

/-- Stretches begin before they end, so as many at least have begun as have ended. -/
theorem running_nonneg {length : Nat} {stretches : List (Nat × Nat)} (h : ∀ s ∈ stretches, s.1 ≤ s.2) (n : Nat) :
    0 ≤ ((deltas length stretches).toList.take n).foldl (· + ·) 0 := by
  have within {n : Nat} (hn : n ≤ length + 1) : 0 ≤ ((deltas length stretches).toList.take n).foldl (· + ·) 0 := by
    rw [foldl_take_deltas hn]
    cases n with
    | zero => rw [balance_zero]
    | succ t =>
      rw [balance_eq h]
      exact Int.natCast_nonneg _
  by_cases hn : n ≤ length + 1
  · exact within hn
  · have hall : (deltas length stretches).toList.take n = (deltas length stretches).toList.take (length + 1) := by
      rw [List.take_of_length_le, List.take_of_length_le]
      · rw [Array.length_toList, size_deltas]
      · rw [Array.length_toList, size_deltas]
        omega
    rw [hall]
    exact within (Nat.le_refl _)

end Program

namespace Compile

open Program

/-- The most values in flight, in a program that was read and optimised, are the most that are in use at one position
    of its order; who reads a value from whom there is what it was in the program that was read. The running sum
    is never negative, and every stretch begins and ends within its array. -/
theorem inFlight_occupied {code : Bytes} {functions : UInt32} {settings : Settings} {o : Optimized}
    (h : read code functions settings = .ok o) : ∃ d, Stream.decode code functions.toNat = .ok d ∧
      o.program.inFlight o.live o.order =
        largest ((List.range o.order.length).map fun t => (o.program.occupied o.live o.order t).length) ∧
      (∀ (x y w z k : Nat) (r : UInt16), o.order[x]? = some w → o.order[y]? = some z → (k, r) ∈ o.program.values o.live w →
        (o.program.takesFrom o.live o.order r x y = true ↔
          .reg r ∈ o.program.sourcesOf z ∧ lastStore d.program.instrs (.reg r) z = some w)) ∧
      (∀ n, 0 ≤ ((o.program.flightDeltas o.live o.order).toList.take n).foldl (· + ·) 0) ∧
      ∀ s ∈ o.order.flatMap (o.program.flights o.live (positions o.program.size o.order)),
        s.1 ≤ s.2 ∧ s.2 + 1 < (o.program.flightDeltas o.live o.order).size := by
  obtain ⟨d, hd, hopt⟩ := read_ok h
  have hh := hopt.handed
  have hl := hopt.sound
  have within {s : Nat × Nat} (hs : s ∈ o.order.flatMap (o.program.flights o.live (positions o.program.size o.order))) :
      s.1 ≤ s.2 ∧ s.2 < o.order.length := flights_within hh hl.flow hs
  refine ⟨d, hd, ?_, ?_, ?_, ?_⟩
  · have hcount := inFlight_eq hh hl.flow
    simp only [length_held_eq hh hl] at hcount
    exact hcount
  · intro x y w z k r hx hy hv
    exact takesFrom_iff_lastStore hh hl hx hy hv
  · exact running_nonneg fun s hs => (within hs).1
  · intro s hs
    obtain ⟨hle, hlt⟩ := within hs
    rw [flightDeltas, size_deltas]
    exact ⟨hle, by omega⟩

/-- A call has two results; one is for nobody, the other is negated and, behind another node, written. -/
def lateStream : Bytes :=
  [0x02, 0, 0, 0xb0, 0, 0, 1, 2, 0, 0, 0, 0, 1, 0, 2, 0x10, 0, 0, 1, 0, 3, 0x02, 0, 4, 0x80, 0, 0, 0, 0, 4, 0, 3, 0, 0]

/-- The negation moves to the output, so the result that it reads is in use for longer; the other result never is. -/
theorem inFlight_occupied_late : ∃ d o, Stream.decode lateStream 1 = .ok d ∧ read lateStream 1 {} = .ok o ∧
    o.order = [0, 1, 3, 2, 4] ∧ o.program.inFlight o.live o.order = 2 ∧
      (List.range o.order.length).map (o.program.occupied o.live o.order) =
        [[(0, 0)], [(0, 0), (1, 0)], [(1, 0), (2, 0)], [(1, 0), (2, 0)], [(2, 0)]] ∧
      largest ((List.range o.order.length).map fun t => (o.program.occupied o.live o.order t).length) = 2 ∧
      o.program.takesFrom o.live o.order 1 1 3 = true ∧ lastStore d.program.instrs (.reg 1) 2 = some 1 := by
  obtain ⟨o, ho, hs⟩ := exists_ok_of_any (by decide +kernel : (read lateStream 1 {}).toOption.any (fun o =>
    o.order = [0, 1, 3, 2, 4] ∧ o.program.inFlight o.live o.order = 2 ∧
      (List.range o.order.length).map (o.program.occupied o.live o.order) =
        [[(0, 0)], [(0, 0), (1, 0)], [(1, 0), (2, 0)], [(1, 0), (2, 0)], [(2, 0)]] ∧
      (0, 1) ∈ o.program.values o.live 1 ∧ o.program.takesFrom o.live o.order 1 1 3 = true) = true)
  obtain ⟨horder, htwo, hoccupied, hvalue, htakes⟩ := of_decide_eq_true hs
  obtain ⟨d, hd, hcount, hreads, -, -⟩ := inFlight_occupied ho
  have hread := (hreads 1 3 1 2 0 1 (by rw [horder]; rfl) (by rw [horder]; rfl) hvalue).mp htakes
  exact ⟨d, o, hd, ho, horder, htwo, hoccupied, hcount.symm.trans htwo, htakes, hread.2⟩

end Compile

end LaneScript
