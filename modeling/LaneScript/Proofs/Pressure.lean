/-
  LaneScript.Proofs.Pressure — a compiled stream holds as many values at once as the
  program it was emitted from.

  The positions of an order undo it (`getD_positions`). What was emitted for a node is
  stored and last read at the positions where the node was, so the stretches over which
  values are in flight are the same, one by one (`flights_reread`).
-/
import LaneScript.Proofs.Irreducible
import LaneScript.Program.Pressure
import Mathlib.Data.List.Perm.Basic

namespace LaneScript

namespace Program

/-- A node of the order is found where it stands. -/
theorem getD_positions {size : Nat} {order : List Nat} (hd : order.Nodup) {x i : Nat} (hx : order[x]? = some i)
    (hi : i < size) : (positions size order).getD i 0 = x := by
  have hmem : (i, x) ∈ order.zipIdx := List.mk_mem_zipIdx_iff_getElem?.mpr hx
  have hset : (positions size order)[i]? = some x :=
    getElem?_setAll (by rw [List.zipIdx_map_fst]; exact hd) hmem (by simpa using hi)
  rw [Array.getD_eq_getD_getElem?, hset]
  rfl

end Program

namespace Compile

open Program

section Emitted

variable {settings : Settings} {d : Stream.Decoded} {o : Optimized} {c : Compiled} {e : Emission}
  (h : Optimum settings d o) (hw : Written settings o c e)

include h

theorem getD_positions_order {x i : Nat} (hx : o.order[x]? = some i) :
    (positions o.program.size o.order).getD i 0 = x :=
  getD_positions (nodup_order h.handed) hx ((mem_order_iff h.handed).mp (List.mem_of_getElem? hx)).1

omit h in
theorem getD_positions_range {n x : Nat} (hx : x < n) : (positions n (List.range n)).getD x 0 = x :=
  getD_positions List.nodup_range (by simp [hx]) hx

include hw

/-- The positions at which a register is read from a node. -/
theorem ends_reread {l : Liveness} (hr : Reread o e l) {x i : Nat} (hx : o.order[x]? = some i)
    (hi : o.program.next? i = none) {old new : UInt16} (hnum : c.renumbering.registers.get? old.toNat = some new) :
    (((l.liveReaders x).filter fun use => Liveness.readsRegister e.program new use.1 use.2).map fun use =>
      (positions e.program.size (List.range e.program.size)).getD use.1 0).Perm
        (((o.live.liveReaders i).filter fun use => Liveness.readsRegister o.program old use.1 use.2).map fun use =>
          (positions o.program.size o.order).getD use.1 0) := by
  have hperm := liveReaders_reread h hw hr.flow hr.live hx hi
  refine List.Perm.trans (.of_eq ?_) ((hperm.filter _).map _)
  rw [List.filter_map, List.map_map]
  have hfilter : (l.liveReaders x).filter (fun use => Liveness.readsRegister e.program new use.1 use.2) =
      (l.liveReaders x).filter ((fun use => Liveness.readsRegister o.program old use.1 use.2) ∘
        fun use => (o.nodeAt use.1, use.2)) :=
    List.filter_congr fun use hu =>
      readsRegister_reread h hw (order_of_lt hw (lt_of_mem_liveReaders hw hr.flow hx hu)) hnum
  rw [hfilter]
  refine List.map_congr_left fun use hu => ?_
  have hlt := lt_of_mem_liveReaders hw hr.flow hx (List.mem_filter.mp hu).1
  rw [getD_positions_range hlt]
  exact (getD_positions_order h (order_of_lt hw hlt)).symm

theorem flights_reread {l : Liveness} (hr : Reread o e l) {x i : Nat} (hx : o.order[x]? = some i) :
    e.program.flights l (positions e.program.size (List.range e.program.size)) x =
      o.program.flights o.live (positions o.program.size o.order) i := by
  have hh := h.handed
  obtain ⟨n, b, hn, hb, hren⟩ := exists_reread h hw hx
  simp only [flights, hn, hb, getD_positions_order h hx, getD_positions_range (lt_size_reread hw hx)]
  conv_rhs => rw [← List.map_id (List.filterMap _ _)]
  refine filterMap_zipIdx_map hren.dests.length_eq fun k a z ha hz => ?_
  obtain ⟨z', hz', hat⟩ := hren.dests.dest_at ha
  rw [hz] at hz'
  cases hz'
  rw [Nat.zero_add] at hat
  cases hat with
  | acc => rfl
  | unread hu => simp [hr.isUnread hx, hu]
  | @kept old new hu hnum =>
    -- A node that stores to a register feeds nothing, so it keeps its readers.
    have hst : o.live.stores o.program old i = true :=
      Liveness.stores_iff.mpr ⟨((mem_order_iff hh).mp (List.mem_of_getElem? hx)).2, n, k, hn, ha, hu⟩
    have hends := (ends_reread h hw hr hx (hh.next?_of_stores hst) hnum).foldl_eq (f := max) x
    simp only [hr.isUnread hx, hu, Bool.false_eq_true, if_false, Option.map_some, id, hends]

/-- The most values in flight are as many as before. -/
theorem inFlight_reread {l : Liveness} (hr : Reread o e l) :
    e.program.inFlight l (List.range e.program.size) = o.program.inFlight o.live o.order := by
  have horder := order_eq_map hw
  have hflights : (List.range e.program.size).flatMap
      (e.program.flights l (positions e.program.size (List.range e.program.size))) =
        o.order.flatMap (o.program.flights o.live (positions o.program.size o.order)) := by
    conv_rhs => rw [horder, List.flatMap_map]
    refine List.flatMap_congr fun x hx => ?_
    rw [← horder]
    exact flights_reread h hw hr (order_of_lt hw (List.mem_range.mp hx))
  rw [inFlight, inFlight, hflights, List.length_range, size_program hw]

end Emitted

end Compile

end LaneScript
