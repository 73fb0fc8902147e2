/-
  LaneScript.Proofs.Stretch — what folding costs in registers.

  A fold saves the register of one result and moves the node that computes it to the root
  of its reader, so the values that the node reads stay in flight longer. A chain that
  moves nodes over a root carries the values that they read over it (`carried`), and saves
  one: the result that the last of the moved nodes hands on. So what a chain carries
  raises the count by the number of these values less one, and folding raises the most
  values in flight by at most the sum of that over the chains that end at or behind a
  root, for the root where it is largest (`stretch`, `inFlight_le_stretch`). Where no chain
  carries two values over a root, folding raises nothing.

  The count is an exchange: at each turn of the folded program some turn of the source is
  found such that a value in flight at the first is in flight at the second or carried
  (`held_or_carried`), and each chain that carries such a value has one in flight there
  that is no more (`exists_saved`).
-/
import LaneScript.Proofs.Deletion
import LaneScript.Proofs.Extension
import LaneScript.Proofs.Faults
import LaneScript.Proofs.InFlight

namespace LaneScript

/-- Where all of `held` but what some `lots` hold is in `kept`, and each lot that is needed is paid for by an entry of
    `kept` that is not in `held`, there are at most so many more than in `kept` as the lots hold beyond one. -/
theorem length_le_of_exchange {α : Type} [DecidableEq α] (tag : α → Nat) (lot : Nat → List α) {lots : List Nat}
    (hlots : lots.Nodup) {held kept : List α} (hheld : held.Nodup)
    (cover : ∀ a ∈ held, a ∈ kept ∨ ∃ k ∈ lots, a ∈ lot k)
    (paid : ∀ k ∈ lots, (∃ a ∈ held, a ∉ kept ∧ a ∈ lot k) → ∃ b ∈ kept, b ∉ held ∧ tag b = k) :
    held.length ≤ kept.length + total (lots.map fun k => (lot k).length - 1) := by
  induction lots generalizing held kept with
  | nil =>
    refine (List.subperm_of_subset hheld fun a ha => ?_).length_le
    rcases cover a ha with hk | ⟨k, hk, -⟩
    · exact hk
    · cases hk
  | cons k lots ih =>
    obtain ⟨hnot, hlots⟩ := List.nodup_cons.mp hlots
    have htotal : total ((k :: lots).map fun k => (lot k).length - 1) =
        (lot k).length - 1 + total (lots.map fun k => (lot k).length - 1) := rfl
    by_cases hneed : ∃ a ∈ held, a ∉ kept ∧ a ∈ lot k
    · -- Set aside what the lot holds and the entry that pays for it.
      obtain ⟨b, hb, hbh, htag⟩ := paid k List.mem_cons_self hneed
      obtain ⟨a, -, -, ha⟩ := hneed
      have hrest := @ih hlots (held.filter fun a => a ∈ kept ∨ a ∉ lot k) (kept.erase b) (hheld.filter _)
        (fun a ha => by
          obtain ⟨ha, hor⟩ := List.mem_filter.mp ha
          have hne : a ≠ b := fun e => hbh (e ▸ ha)
          rcases cover a ha with hk | ⟨k', hk', hlot⟩
          · exact .inl ((List.mem_erase_of_ne hne).mpr hk)
          · rcases List.mem_cons.mp hk' with rfl | hk'
            · rcases of_decide_eq_true hor with hk | hno
              · exact .inl ((List.mem_erase_of_ne hne).mpr hk)
              · exact absurd hlot hno
            · exact .inr ⟨k', hk', hlot⟩)
        (fun k' hk' hneed => by
          obtain ⟨a, ha, hak, hlot⟩ := hneed
          have ha := (List.mem_filter.mp ha).1
          have hne : a ≠ b := fun e => hbh (e ▸ ha)
          obtain ⟨b', hb', hbh', htag'⟩ := paid k' (List.mem_cons_of_mem _ hk')
            ⟨a, ha, fun hk => hak ((List.mem_erase_of_ne hne).mpr hk), hlot⟩
          have hne' : b' ≠ b := by
            rintro rfl
            rw [htag] at htag'
            exact hnot (htag' ▸ hk')
          exact ⟨b', (List.mem_erase_of_ne hne').mpr hb', fun hm => hbh' (List.mem_filter.mp hm).1, htag'⟩)
      have hlot : (held.filter fun a => !decide (a ∈ kept ∨ a ∉ lot k)).length ≤ (lot k).length := by
        refine (List.subperm_of_subset (hheld.filter _) fun x hx => ?_).length_le
        have hx := (List.mem_filter.mp hx).2
        simp only [Bool.not_eq_true', decide_eq_false_iff_not, not_or, not_not] at hx
        exact hx.2
      have hsplit := List.length_eq_length_filter_add (l := held) fun a => decide (a ∈ kept ∨ a ∉ lot k)
      have herase := List.length_erase_of_mem hb
      have hk := List.length_pos_of_mem hb
      have hl := List.length_pos_of_mem ha
      omega
    · have hrest := ih hlots hheld
        (fun a ha => by
          rcases cover a ha with hk | ⟨k', hk', hlot⟩
          · exact .inl hk
          · rcases List.mem_cons.mp hk' with rfl | hk'
            · by_cases hk : a ∈ kept
              · exact .inl hk
              · exact absurd ⟨a, ha, hk, hlot⟩ hneed
            · exact .inr ⟨k', hk', hlot⟩)
        (fun k' hk' => paid k' (List.mem_cons_of_mem _ hk'))
      omega

namespace Program

/-- The values that the chain of `root` carries over node `past`: those that are read by nodes of the chain in `p` that
    ended before `past` in `q`. -/
def carried (q p : Program) (l : Liveness) (root past : Nat) : List (Nat × Nat) :=
  (List.range p.size).flatMap fun w => ((p.values l w).filter fun v =>
    (p.takers l w v.2).any fun x => p.root x == root && q.root x < past).map fun v => (w, v.1)

/-- By how much the chains that end at `past` or behind it raise the number of values in flight. -/
def stretchAt (q p : Program) (l : Liveness) (past : Nat) : Nat :=
  total (((p.liveRoots l).filter (past ≤ ·)).map fun root => (carried q p l root past).length - 1)

/-- By how much folding `q` to `p` raises the most values in flight, at most. -/
def stretch (q p : Program) (l : Liveness) : Nat := largest ((p.liveRoots l).map (stretchAt q p l))

variable {q p : Program} {l : Liveness}

theorem mem_carried {root past w k : Nat} : (w, k) ∈ carried q p l root past ↔ ∃ r x, (k, r) ∈ p.values l w ∧
    x ∈ p.takers l w r ∧ p.root x = root ∧ q.root x < past := by
  simp only [carried, List.mem_flatMap, List.mem_range, List.mem_map, List.mem_filter, List.any_eq_true,
    Bool.and_eq_true, beq_iff_eq, decide_eq_true_eq, Prod.exists, Prod.mk.injEq]
  constructor
  · rintro ⟨w', hw, k', r, ⟨hv, x, hx, hroot, hpast⟩, rfl, rfl⟩
    exact ⟨r, x, hv, hx, hroot, hpast⟩
  · rintro ⟨r, x, hv, hx, hroot, hpast⟩
    obtain ⟨n, hn, -⟩ := mem_values.mp hv
    exact ⟨w, lt_size_of_getElem? hn, k, r, ⟨hv, x, hx, hroot, hpast⟩, rfl, rfl⟩

/-! ## Values of the folded program and of the source -/

section Values

variable (h : q.Handed l p)
include h

/-- Only a node that feeds nothing keeps a value. -/
theorem Handed.next?_of_value {w k : Nat} {r : UInt16} (hw : l.isLive w = true) (hv : (k, r) ∈ p.values l w) :
    p.next? w = none := by
  obtain ⟨n, hn, hd, hu⟩ := mem_values.mp hv
  exact h.next?_of_stores (Liveness.stores_iff.mpr ⟨hw, n, k, hn, hd, hu⟩)

theorem Handed.value_source {w k : Nat} {r : UInt16} (hw : l.isLive w = true) (hv : (k, r) ∈ p.values l w) :
    (k, r) ∈ q.values l w := by
  obtain ⟨n, hn, hd, hu⟩ := mem_values.mp hv
  obtain ⟨m, hm⟩ := exists_node (p := q) (by rw [← h.size]; exact lt_size_of_getElem? hn)
  refine mem_values.mpr ⟨m, hm, ?_, hu⟩
  rw [← h.dests_eq hn hm (h.next?_of_value hw hv)]
  exact hd

theorem Handed.taker_source (hf : l.flow.Exact q) {w x : Nat} {r : UInt16} (hw : w < q.size) (hn : p.next? w = none)
    (hx : x ∈ p.takers l w r) : x ∈ q.takers l w r := by
  obtain ⟨pos, hread, hr⟩ := mem_takers.mp hx
  refine mem_takers.mpr ⟨pos, hread, ?_⟩
  rw [← h.readsRegister_eq hf hn hw hread r]
  exact hr

/-- What a folded node hands on was a value of the source, read by the node it feeds. -/
theorem Handed.saved_value (hl : l.Sound q) {y z : Nat} (hy : p.next? y = some z) (hq : q.next? y = none)
    (hq' : q.Handed l q) (hlive : l.isLive y = true) : ∃ r, (0, r) ∈ q.values l y ∧ z ∈ q.takers l y r := by
  have hprev := (h.linked.agree y z).mp hy
  obtain ⟨n, hn⟩ := exists_node (lt_size_of_next? hy)
  obtain ⟨m, hm⟩ := exists_node (p := q) (by rw [← h.size]; exact lt_size_of_getElem? hn)
  obtain ⟨n', hn'⟩ := exists_node (lt_size_of_prev? hprev)
  have hacc := (h.next_iff y n hn).mp ⟨z, hy⟩
  -- In the source it stores to one register.
  obtain ⟨r, hr⟩ : ∃ r, m.instr.dests = [.reg r] := by
    rcases h.dests y m n hm hn with e | ⟨-, hr⟩
    · rw [e] at hacc
      obtain ⟨j, hj⟩ := (hq'.next_iff y m hm).mpr hacc
      rw [hq] at hj
      cases hj
    · exact hr
  -- The reader takes through the accumulator what it read from that register.
  obtain ⟨pos, hpos⟩ := List.getElem?_of_mem ((h.prev_iff z n' hn').mp ⟨y, hprev⟩)
  obtain ⟨s, d, w, hs, hd, hw, hprev'⟩ := h.taken z pos (by rw [sourcesOf_eq hn']; exact hpos)
  rw [hprev] at hprev'
  cases hprev'
  have hstore : d = .reg r := by
    obtain ⟨x, hx, hmem⟩ := storesAt_iff.mp (lastStore_eq_some_iff.mp hw).2.1
    rw [getElem?_instrs, hm, Option.map_some] at hx
    cases hx
    rw [hr] at hmem
    exact List.mem_singleton.mp hmem
  subst hstore
  have hsource : s = .reg r := by
    cases s with
    | reg x => cases hd; rfl
    | const _ | acc => cases hd
  subst hsource
  have hzl : l.isLive z = true := by rw [← h.live y z hy]; exact hlive
  refine ⟨r, mem_values.mpr ⟨m, hm, by rw [hr]; rfl, ?_⟩, mem_takers.mpr ⟨pos, ?_, Liveness.readsRegister_iff.mpr hs⟩⟩
  · exact hl.isUnread_of_read hzl (List.mem_of_getElem? hs) hw hm (by rw [hr]; rfl)
  · exact Liveness.mem_liveReaders.mpr ⟨(hl.flow.mem_readers (lt_size_of_getElem? hm)).mpr ⟨.reg r, hs, hw⟩, hzl⟩

end Values

/-! ## The exchange at one turn -/

/-- The turn of the source to which that of `u` is compared: the first of the group that ends at the root of `u`, or the
    root itself if it is `u`. -/
structure Counterpart (q : Program) (u root v : Nat) : Prop where
  ends : q.root v = root
  last : u = root → v = root
  first : u ≠ root → ∀ z, q.root z = root → v ≤ z

theorem exists_counterpart (hq : q.Linked) (u : Nat) {root : Nat} (hroot : q.next? root = none) :
    ∃ v, Counterpart q u root v := by
  by_cases e : u = root
  · exact ⟨root, root_of_last hroot, fun _ => rfl, fun hne => absurd e hne⟩
  · obtain ⟨g, rest, hc⟩ : ∃ g rest, q.chain root = g :: rest := by
      cases hc : q.chain root with
      | nil => exact absurd (self_mem_chain hq root) (by rw [hc]; exact List.not_mem_nil)
      | cons g rest => exact ⟨g, rest, rfl⟩
    have hg : g ∈ q.chain root := by rw [hc]; exact List.mem_cons_self
    refine ⟨g, (mem_chain_iff hq hroot).mp hg, fun h => absurd h e, fun _ z hz => ?_⟩
    have hz := (mem_chain_iff hq hroot).mpr hz
    have hsorted := pairwise_chain hq root
    rw [hc] at hz hsorted
    rcases List.mem_cons.mp hz with rfl | hz
    · exact Nat.le_refl _
    · exact Nat.le_of_lt (List.rel_of_pairwise_cons hsorted hz)

section Exchange

variable (hq : q.Handed l q) (h : q.Handed l p) (he : Extends q p) (hl : l.Sound q) {u v : Nat}
  (hv : Counterpart q u (p.root u) v)
include hq h he hl hv

/-- What is in flight at a turn is in flight at its counterpart, or carried over the root. -/
theorem held_or_carried {w k : Nat} (hw : p.Held l u w k) : q.Held l v w k ∨
    ∃ root ∈ p.liveRoots l, (p.root u < root ∨ p.root u = root ∧ u ≠ root) ∧
      (w, k) ∈ carried q p l root (p.root u) := by
  obtain ⟨hlive, r, hval, hnot, hread⟩ := hw
  have hsize : w < q.size := by
    obtain ⟨n, hn, -⟩ := mem_values.mp hval
    rw [← h.size]
    exact lt_size_of_getElem? hn
  have hwn := h.next?_of_value hlive hval
  have hwp : p.root w = w := root_of_last hwn
  have hwq : q.root w = w := root_of_last (he.next?_eq_none hwn)
  have hsource := h.value_source hlive hval
  have hle := le_root h.linked u
  have hvr := hv.ends
  by_cases e : w = u
  · -- The value is just being stored, at a root.
    subst e
    rw [hwp] at hv
    rw [hv.last rfl]
    exact .inl ⟨hlive, r, hsource, fun hb => hb.ne rfl, .inl rfl⟩
  · obtain ⟨x, hx, hxu⟩ := hread.resolve_left e
    have hwlt : w < p.root u := by
      simp only [Before, hwp] at hnot
      omega
    obtain ⟨hxs, hxl⟩ := taker_lt_size h hl.flow (by rw [h.size]; exact hsize) hx
    by_cases hmoved : q.root x < p.root u
    · refine .inr ⟨p.root x, (mem_liveRoots h.linked).mpr ⟨root_lt_size h.linked hxs, ?_, next?_root h.linked x⟩, ?_,
        mem_carried.mpr ⟨r, x, hval, hx, rfl, hmoved⟩⟩
      · rw [h.live_root x]
        exact hxl
      · have hxq := le_root hq.linked x
        simp only [Before] at hxu
        omega
    · refine .inl ⟨hlive, r, hsource, ?_, .inr ⟨x, h.taker_source hl.flow hsize hwn hx, ?_⟩⟩
      · simp only [Before, hwq, hvr]
        omega
      · -- A reader in the group of the root is not before its first node.
        intro hb
        have hxr : q.root x = p.root u ∧ x < v := by
          simp only [Before, hvr] at hb
          omega
        by_cases hu : u = p.root u
        · have hlast := hv.last hu
          have hroot := he.root_root hq.linked h.linked x
          rw [hxr.1, root_of_last (next?_root h.linked u)] at hroot
          simp only [Before] at hxu
          omega
        · have := hv.first hu x hxr.1
          omega

/-- A chain that carries a value saves the one that its last moved node hands on. -/
theorem exists_saved {root x : Nat} (hroot : p.root u < root ∨ p.root u = root ∧ u ≠ root) (hx : p.root x = root)
    (hmoved : q.root x < p.root u) (hlive : l.isLive x = true) :
    ∃ y, p.root y = root ∧ q.Held l v y 0 ∧ ¬ p.Held l u y 0 := by
  -- Somewhere on the way to the root a node that ended before feeds one that did not.
  obtain ⟨y, z, hnext, hy, hyq, hzq⟩ : ∃ y z, p.next? y = some z ∧ p.root y = root ∧ q.root y < p.root u ∧
      p.root u ≤ q.root z := by
    clear hlive
    induction x using h.linked.induction with
    | last x e =>
      have := le_root hq.linked x
      rw [root_of_last e] at hx
      omega
    | step x j e ih =>
      by_cases hj : q.root j < p.root u
      · exact ih (by rw [← root_of_next h.linked e]; exact hx) hj
      · exact ⟨x, j, e, hx, hmoved, Nat.le_of_not_lt hj⟩
  have hyn : q.next? y = none := by
    refine Option.eq_none_iff_forall_ne_some.mpr fun z' hz' => ?_
    have e := he y z' hz'
    rw [hnext] at e
    cases e
    rw [root_of_next hq.linked hz'] at hyq
    omega
  have hylive : l.isLive y = true := by
    rw [← h.live_root y, hy, ← hx, h.live_root x]
    exact hlive
  obtain ⟨r, hval, htake⟩ := h.saved_value hl hnext hyn hq hylive
  have hvr := hv.ends
  refine ⟨y, hy, ⟨hylive, r, hval, ?_, .inr ⟨z, htake, fun hb => ?_⟩⟩, ?_⟩
  · simp only [Before, hvr]
    omega
  · have hzr : q.root z = p.root u ∧ z < v := by
      simp only [Before, hvr] at hb
      omega
    by_cases hu : u = p.root u
    · have hzp := he.root_root hq.linked h.linked z
      rw [hzr.1, root_of_last (next?_root h.linked u), ← root_of_next h.linked hnext, hy] at hzp
      omega
    · have := hv.first hu z hzr.1
      omega
  · rintro ⟨hl', r', hval', -⟩
    rw [h.next?_of_value hl' hval'] at hnext
    cases hnext

/-- At each turn no more is in flight than at its counterpart and what the chains carry beyond one value each. -/
theorem length_held_le {t t' : Nat} (hu : (p.emissionOrder l)[t]? = some u) (hv' : (q.emissionOrder l)[t']? = some v) :
    (p.held l (p.emissionOrder l) t).length ≤
      (q.held l (q.emissionOrder l) t').length + stretchAt q p l (p.root u) := by
  have hroots : (p.liveRoots l).Nodup := List.nodup_range.filter _
  have hexchange := length_le_of_exchange (fun a => p.root a.1) (fun root => carried q p l root (p.root u))
    (hroots.filter fun root => p.root u < root ∨ p.root u = root ∧ u ≠ root) (nodup_held (nodup_order h) t)
    (fun a ha => by
      rcases held_or_carried hq h he hl hv ((mem_held h hl.flow hu).mp ha) with hk | ⟨root, hroot, hor, hc⟩
      · exact .inl ((mem_held hq hl.flow hv').mpr hk)
      · exact .inr ⟨root, List.mem_filter.mpr ⟨hroot, decide_eq_true hor⟩, hc⟩)
    (fun root hroot hneed => by
      obtain ⟨a, -, -, ha⟩ := hneed
      obtain ⟨r, x, hval, hx, hxr, hmoved⟩ := mem_carried.mp ha
      obtain ⟨w, hw, -⟩ := mem_values.mp hval
      have hxl := (taker_lt_size h hl.flow (lt_size_of_getElem? hw) hx).2
      obtain ⟨y, hy, hheld, hnot⟩ :=
        exists_saved hq h he hl hv (of_decide_eq_true (List.mem_filter.mp hroot).2) hxr hmoved hxl
      exact ⟨(y, 0), (mem_held hq hl.flow hv').mpr hheld, fun hm => hnot ((mem_held h hl.flow hu).mp hm), hy⟩)
  refine Nat.le_trans hexchange (Nat.add_le_add_left (total_map_filter_le _ (fun root hr => ?_) _) _)
  have hr := of_decide_eq_true hr
  exact decide_eq_true (by omega)

end Exchange

/-- Folding raises the most values in flight by at most the stretch. -/
theorem inFlight_le_stretch (hq : q.Handed l q) (h : q.Handed l p) (he : Extends q p) (hl : l.Sound q) :
    p.inFlight l (p.emissionOrder l) ≤ q.inFlight l (q.emissionOrder l) + stretch q p l := by
  rw [inFlight_eq h hl.flow, inFlight_eq hq hl.flow]
  refine largest_le fun n hn => ?_
  obtain ⟨t, ht, rfl⟩ := List.mem_map.mp hn
  obtain ⟨u, hu⟩ : ∃ u, (p.emissionOrder l)[t]? = some u := ⟨_, List.getElem?_eq_getElem (List.mem_range.mp ht)⟩
  obtain ⟨hus, hul⟩ := (mem_order_iff h).mp (List.mem_of_getElem? hu)
  have hlast : p.next? (p.root u) = none := next?_root h.linked u
  have hroot : l.isLive (p.root u) = true := by
    rw [h.live_root u]
    exact hul
  obtain ⟨v, hv⟩ := exists_counterpart hq.linked u (he.next?_eq_none hlast)
  obtain ⟨t', ht'⟩ : ∃ t', (q.emissionOrder l)[t']? = some v := by
    refine List.getElem?_of_mem ((mem_order_iff hq).mpr ⟨?_, ?_⟩)
    · have hlt := root_lt_size h.linked hus
      have hle := le_root hq.linked v
      rw [hv.ends] at hle
      rw [← h.size]
      omega
    · rw [← hq.live_root v, hv.ends]
      exact hroot
  have hmost : (q.held l (q.emissionOrder l) t').length ≤
      largest ((List.range (q.emissionOrder l).length).map fun t => (q.held l (q.emissionOrder l) t).length) :=
    le_largest (List.mem_map.mpr ⟨t', List.mem_range.mpr (List.getElem?_eq_some_iff.mp ht').1, rfl⟩)
  have hstretch : stretchAt q p l (p.root u) ≤ stretch q p l :=
    le_largest (List.mem_map_of_mem ((mem_liveRoots h.linked).mpr ⟨root_lt_size h.linked hus, hroot, hlast⟩))
  have hturn := length_held_le hq h he hl hv hu ht'
  omega

/-- Where no chain carries two values over a root, nothing is stretched. -/
theorem stretch_eq_zero (h : ∀ root past, (carried q p l root past).length ≤ 1) : stretch q p l = 0 := by
  refine Nat.le_zero.mp (largest_le fun n hn => ?_)
  obtain ⟨past, -, rfl⟩ := List.mem_map.mp hn
  refine Nat.le_of_eq (total_eq_zero fun m hm => ?_)
  obtain ⟨root, -, rfl⟩ := List.mem_map.mp hm
  exact Nat.sub_eq_zero_of_le (h root past)

end Program

namespace Compile

open Program

/-- The word for too many registers in use has one cause. -/
theorem write_registerUsage_iff {settings : Settings} {d : Stream.Decoded} {o : Optimized} (bytesIn : Nat)
    (h : Optimum settings d o) (hin : Intact o.program o.live) :
    (∃ e, write bytesIn settings o = .error e ∧ e.fault = .fatal (.overflow ||| .registerUsage)) ↔
      settings.registerLimit.toNat < o.program.inFlight o.live o.order := by
  unfold write
  rw [h.handed.checkLinks h.sound.flow (short_chains hin)]
  dsimp only
  constructor
  · rintro ⟨e, he, hfault⟩
    split at he
    · assumption
    · split at he
      · rename_i space _
        cases he
        cases space <;> exact absurd hfault (by decide)
      · rename_i r hr
        split at he
        · rename_i x hx
          cases he
          rcases emission_error h hin hr hx with rfl | rfl <;> exact absurd hfault (by decide)
        · cases he
  · intro hlt
    exact ⟨_, if_pos hlt, rfl⟩

/-- Where a stream compiles without folding, folding raises the most values in flight by at most the stretch, and the
    compile fails for too many registers just when they exceed the limit; so it does not where no chain carries two
    values over a root. -/
theorem compile_stretch {code : Bytes} {functions : UInt32} (settings : Settings) {c : Compiled}
    (hc : compile code functions { settings with fold := false } = .ok c) :
    ∃ o, read code functions { settings with fold := true } = .ok o ∧
      ((∃ e, compile code functions { settings with fold := true } = .error e ∧
          e.fault = .fatal (.overflow ||| .registerUsage)) ↔
        settings.registerLimit.toNat < o.program.inFlight o.live o.order) ∧
      (∀ c', compile code functions { settings with fold := true } = .ok c' →
        c'.stats.inFlight = o.program.inFlight o.live o.order) ∧
      o.program.inFlight o.live o.order ≤ c.stats.inFlight + stretch c.program o.program o.live ∧
      ((∀ root past, (carried c.program o.program o.live root past).length ≤ 1) →
        o.program.inFlight o.live o.order ≤ c.stats.inFlight ∧
          ∀ e, compile code functions { settings with fold := true } = .error e →
            e.fault ≠ .fatal (.overflow ||| .registerUsage)) := by
  obtain ⟨o', ho', hwrite⟩ := compile_eq_ok_iff.mp hc
  obtain ⟨d, hd, hopt'⟩ := read_ok ho'
  obtain ⟨f, hf, rfl⟩ := exists_flow_of_read hd ho'
  obtain ⟨e', hw⟩ := write_ok hwrite
  have hitems := (Stream.decode_ok hd).2.1
  have hopt : Optimum { settings with fold := true } d (optimize { settings with fold := true } d f) :=
    optimum_optimize hitems hf
  have hread : read code functions { settings with fold := true } =
      .ok (optimize { settings with fold := true } d f) := by
    simp only [read, hd, hf]
  have hin := intact_optimize hd hf (reach_optimize { settings with fold := true } d f)
  have hcompile : compile code functions { settings with fold := true } =
      write code.length { settings with fold := true } (optimize { settings with fold := true } d f) := by
    simp only [compile, hread]
  have hiff := write_registerUsage_iff code.length hopt hin
  -- Both programs have the same marks, and the folded one extends the other.
  have hself := handed_self hopt.grouped hopt.formed hopt.sound
  have hfolds : FoldsTo (optimize { settings with fold := true } d f).live settings.groupLimit.toNat d.program
      (optimize { settings with fold := true } d f).program := foldsTo_run _ _ _ ⟨d.program, {}, []⟩
  have hext := (handed_of_foldsTo hopt.sound hself hfolds).2
  have hle := inFlight_le_stretch hself hopt.handed hext hopt.sound
  have hprogram : c.program = d.program := by
    rw [hw.program]
    exact hopt'.unfolded rfl
  have hpeak : c.stats.inFlight = d.program.inFlight (optimize { settings with fold := true } d f).live
      (d.program.emissionOrder (optimize { settings with fold := true } d f).live) := hw.inFlight
  rw [← hpeak, ← hprogram] at hle
  refine ⟨_, hread, by rw [hcompile]; exact hiff, fun c' hc' => ?_, hle, fun hone => ⟨?_, fun e he hfault => ?_⟩⟩
  · rw [hcompile] at hc'
    obtain ⟨x, hx⟩ := write_ok hc'
    exact hx.inFlight
  · rw [stretch_eq_zero hone] at hle
    exact hle
  · rw [stretch_eq_zero hone] at hle
    have hlimit := hw.limit
    rw [← hw.inFlight] at hlimit
    have hlt := hiff.mp ⟨e, by rw [← hcompile]; exact he, hfault⟩
    exact absurd (Nat.lt_of_lt_of_le hlt hle) (Nat.not_lt.mpr hlimit)

/-- Two indices are added, two more stored and one written before the sum is. -/
def sumStream : Bytes :=
  [0x02, 0, 0, 0x02, 0, 1, 0x30, 0, 0, 0, 0, 1, 0, 2, 0x02, 0, 3, 0x02, 0, 4,
   0x80, 0, 0, 0, 0, 3, 0, 4, 0, 0, 0x80, 0, 0, 0, 0, 3, 0, 2, 0, 1]

/-- The sum is folded into its output and carries both indices over the other, which costs one register. -/
theorem compile_stretch_sum : ∃ c o, compile sumStream 0 { fold := false } = .ok c ∧ read sumStream 0 {} = .ok o ∧
    c.stats.inFlight = 3 ∧ o.program.inFlight o.live o.order = 4 ∧ stretch c.program o.program o.live = 1 ∧
      o.program.inFlight o.live o.order ≤ c.stats.inFlight + stretch c.program o.program o.live := by
  obtain ⟨c, hc, hthree⟩ := exists_of_any_ok (by decide +kernel : (compile sumStream 0 { fold := false }).toOption.any
    (fun c => c.stats.inFlight = 3 ∧ (read sumStream 0 {}).toOption.any fun o =>
      o.program.inFlight o.live o.order = 4 ∧ stretch c.program o.program o.live = 1) = true)
  obtain ⟨hpeak, hread⟩ := of_decide_eq_true hthree
  obtain ⟨o, ho, hfour⟩ := exists_ok_of_any hread
  obtain ⟨hfour, hone⟩ := of_decide_eq_true hfour
  obtain ⟨o', ho', -, -, hle, -⟩ := compile_stretch {} hc
  rw [ho] at ho'
  cases ho'
  exact ⟨c, o, hc, ho, hpeak, hfour, hone, hle⟩

/-- Folding may put a program over a limit that it keeps without. -/
theorem folding_over_limit :
    (∃ c, compile sumStream 0 { fold := false, registerLimit := 3 } = .ok c ∧ c.stats.inFlight = 3) ∧
      compile sumStream 0 { fold := true, registerLimit := 3 } = .error (.registerLimit 4 3) ∧
        (Error.registerLimit 4 3).fault = .fatal (.overflow ||| .registerUsage) := by
  refine ⟨?_, ?_, rfl⟩
  · obtain ⟨c, hc, hthree⟩ := exists_of_any_ok (by decide +kernel :
      (compile sumStream 0 { fold := false, registerLimit := 3 }).toOption.any (fun c => c.stats.inFlight = 3) = true)
    exact ⟨c, hc, of_decide_eq_true hthree⟩
  · exact eq_error_of_map (by decide +kernel :
      (compile sumStream 0 { fold := true, registerLimit := 3 }).map (fun _ => ()) = .error (.registerLimit 4 3))

end Compile

end LaneScript
