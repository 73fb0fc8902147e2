/-
  LaneScript.Proofs.Mirror — programs that are folded alike.

  An excerpt of a program holds nodes of it in their order, with their registers renamed,
  and leaves out dead nodes only (`Excerpt`). It mirrors the program if its nodes are live,
  read and unread as they are in the program (`Mirrors`). Folding looks at registers only to
  tell whether they are the same and at nodes only for their order, and never folds a dead
  node. So a visit folds a node just when it folds the node's image (`Mirrors.verdict_iff`),
  a fold keeps the mirror (`Mirrors.link`), and whole runs of folding end in mirrored
  programs after the same folds (`Mirrors.fold`).
-/
import LaneScript.Proofs.Irreducible

namespace LaneScript

/-! ## Renaming registers -/

section Rename

variable {σ : UInt16 → UInt16}

def Source.rename (σ : UInt16 → UInt16) : Source → Source
  | .reg r => .reg (σ r)
  | .const c => .const c
  | .acc => .acc

def Dest.rename (σ : UInt16 → UInt16) : Dest → Dest
  | .reg r => .reg (σ r)
  | .acc => .acc

def Instruction.rename (σ : UInt16 → UInt16) (i : Instruction) : Instruction :=
  { i with sources := i.sources.map (Source.rename σ), dests := i.dests.map (Dest.rename σ) }

theorem Source.rename_eq_acc {s : Source} : s.rename σ = .acc ↔ s = .acc := by
  cases s <;> simp [rename]

theorem Dest.rename_eq_acc {d : Dest} : d.rename σ = .acc ↔ d = .acc := by
  cases d <;> simp [rename]

theorem Source.rename_eq_reg (hσ : Function.Injective σ) {s : Source} {r : UInt16} :
    s.rename σ = .reg (σ r) ↔ s = .reg r := by
  cases s <;> simp [rename, hσ.eq_iff]

theorem Dest.rename_eq_reg (hσ : Function.Injective σ) {d : Dest} {r : UInt16} :
    d.rename σ = .reg (σ r) ↔ d = .reg r := by
  cases d <;> simp [rename, hσ.eq_iff]

theorem Source.of_rename_eq_reg {s : Source} {r : UInt16} (h : s.rename σ = .reg r) :
    ∃ a, s = .reg a ∧ r = σ a := by
  cases s with
  | reg a => exact ⟨a, rfl, (Source.reg.inj h).symm⟩
  | const c => cases h
  | acc => cases h

theorem Dest.of_rename_eq_reg {d : Dest} {r : UInt16} (h : d.rename σ = .reg r) : ∃ a, d = .reg a ∧ r = σ a := by
  cases d with
  | reg a => exact ⟨a, rfl, (Dest.reg.inj h).symm⟩
  | acc => cases h

namespace Instruction

variable {i : Instruction}

theorem category_rename : (i.rename σ).category = i.category := rfl

theorem mem_acc_sources_rename : .acc ∈ (i.rename σ).sources ↔ .acc ∈ i.sources := by
  simp [rename, Source.rename_eq_acc]

theorem mem_acc_dests_rename : .acc ∈ (i.rename σ).dests ↔ .acc ∈ i.dests := by
  simp [rename, Dest.rename_eq_acc]

theorem source_rename_iff (hσ : Function.Injective σ) {k : Nat} {r : UInt16} :
    (i.rename σ).sources[k]? = some (.reg (σ r)) ↔ i.sources[k]? = some (.reg r) := by
  simp [rename, Source.rename_eq_reg hσ]

theorem dest_rename_iff (hσ : Function.Injective σ) {k : Nat} {r : UInt16} :
    (i.rename σ).dests[k]? = some (.reg (σ r)) ↔ i.dests[k]? = some (.reg r) := by
  simp [rename, Dest.rename_eq_reg hσ]

theorem mem_sources_rename (hσ : Function.Injective σ) {r : UInt16} :
    .reg (σ r) ∈ (i.rename σ).sources ↔ .reg r ∈ i.sources := by
  simp [rename, Source.rename_eq_reg hσ]

theorem mem_dests_rename (hσ : Function.Injective σ) {r : UInt16} :
    .reg (σ r) ∈ (i.rename σ).dests ↔ .reg r ∈ i.dests := by
  simp [rename, Dest.rename_eq_reg hσ]

end Instruction

end Rename

namespace Program

/-- `p'` is `p` with its registers renamed by `σ` and perhaps without some dead nodes; `ν` gives the place in `p` of
    each node of `p'`. -/
structure Excerpt (σ : UInt16 → UInt16) (ν : Nat → Nat) (p : Program) (l : Liveness) (p' : Program) : Prop where
  order : ∀ x y, x < y → y < p'.size → ν x < ν y
  covers : ∀ i < p.size, l.isLive i = true → ∃ x < p'.size, ν x = i
  instr : ∀ (x : Nat) (n' : Node), p'[x]? = some n' → ∃ n, p[ν x]? = some n ∧ n'.instr = n.instr.rename σ
  next : ∀ x < p'.size, p.next? (ν x) = (p'.next? x).map ν
  prev : ∀ x < p'.size, p.prev? (ν x) = (p'.prev? x).map ν

structure Mirrors (σ : UInt16 → UInt16) (ν : Nat → Nat) (p : Program) (l : Liveness) (p' : Program) (l' : Liveness) :
    Prop extends Excerpt σ ν p l p' where
  live : ∀ x < p'.size, l'.isLive x = l.isLive (ν x)
  readers : ∀ x < p'.size, l.liveReaders (ν x) = (l'.liveReaders x).map fun use => (ν use.1, use.2)
  unread : ∀ x < p'.size, l'.unread.getD x [] = l.unread.getD (ν x) []

variable {σ : UInt16 → UInt16} {ν : Nat → Nat} {q p q' p' : Program} {l l' : Liveness}

/-- What reads a node is a live node. -/
theorem Handed.reader (h : q.Handed l p) (hl : l.Sound q) {i : Nat} (hi : i < p.size) {use : Nat × Nat}
    (hu : use ∈ l.liveReaders i) : use.1 < p.size ∧ l.isLive use.1 = true := by
  rw [h.size] at hi ⊢
  obtain ⟨hr, hlive⟩ := Liveness.mem_liveReaders.mp hu
  exact ⟨hl.flow.reader_lt_size hi hr, hlive⟩

namespace Excerpt

variable (h : Excerpt σ ν p l p') {x y : Nat}

include h

theorem lt_iff (hx : x < p'.size) (hy : y < p'.size) : ν x < ν y ↔ x < y := by
  refine ⟨fun hlt => ?_, fun hlt => h.order x y hlt hy⟩
  rcases Nat.lt_trichotomy x y with hxy | rfl | hyx
  · exact hxy
  · omega
  · have := h.order y x hyx hx
    omega

theorem inj (hx : x < p'.size) (hy : y < p'.size) : ν x = ν y ↔ x = y := by
  have hxy := h.lt_iff hx hy
  have hyx := h.lt_iff hy hx
  omega

theorem node (hx : x < p'.size) :
    ∃ n n', p[ν x]? = some n ∧ p'[x]? = some n' ∧ n'.instr = n.instr.rename σ := by
  obtain ⟨n', hn'⟩ := exists_node hx
  obtain ⟨n, hn, he⟩ := h.instr x n' hn'
  exact ⟨n, n', hn, hn', he⟩

theorem instr_eq {n n' : Node} (hn : p[ν x]? = some n) (hn' : p'[x]? = some n') : n'.instr = n.instr.rename σ := by
  obtain ⟨m, hm, he⟩ := h.instr x n' hn'
  rw [hn] at hm
  cases hm
  exact he

theorem place_lt (hx : x < p'.size) : ν x < p.size := by
  obtain ⟨n, -, hn, -⟩ := h.node hx
  exact lt_size_of_getElem? hn

theorem sourcesOf (hx : x < p'.size) : p'.sourcesOf x = (p.sourcesOf (ν x)).map (Source.rename σ) := by
  obtain ⟨n, n', hn, hn', he⟩ := h.node hx
  rw [sourcesOf_eq hn, sourcesOf_eq hn', he]
  rfl

/-- The live nodes are the images of the live nodes. -/
theorem map_live (hlive : ∀ x < p'.size, l'.isLive x = l.isLive (ν x)) :
    (List.range p.size).filter l.isLive = ((List.range p'.size).filter l'.isLive).map ν := by
  refine List.Pairwise.eq_of_mem_iff (r := (· < ·)) (List.pairwise_lt_range.filter _) ?_ fun i => ?_
  · rw [List.pairwise_map]
    refine (List.pairwise_lt_range.filter _).imp_of_mem fun {x y} _ hy hxy => ?_
    exact h.order x y hxy (List.mem_range.mp (List.mem_filter.mp hy).1)
  · rw [List.mem_filter, List.mem_range, List.mem_map]
    constructor
    · rintro ⟨hi, hli⟩
      obtain ⟨x, hx, rfl⟩ := h.covers i hi hli
      exact ⟨x, List.mem_filter.mpr ⟨List.mem_range.mpr hx, by rw [hlive x hx]; exact hli⟩, rfl⟩
    · rintro ⟨x, hx, rfl⟩
      obtain ⟨hx, hlx⟩ := List.mem_filter.mp hx
      have hx := List.mem_range.mp hx
      exact ⟨h.place_lt hx, by rw [← hlive x hx]; exact hlx⟩

end Excerpt

namespace Mirrors

section Places

variable (h : Mirrors σ ν p l p' l') {x y : Nat}

include h

theorem isUnread (hx : x < p'.size) (pos : Nat) : l'.isUnread x pos = l.isUnread (ν x) pos := by
  rw [Liveness.isUnread, Liveness.isUnread, h.unread x hx]

theorem isFolded (hp : p.Linked) (hp' : p'.Linked) {n n' : Node} (hn : p[ν x]? = some n) (hn' : p'[x]? = some n') :
    n'.isFolded = n.isFolded := by
  have hnext := h.next x (lt_size_of_getElem? hn')
  rw [Bool.eq_iff_iff, hp.isFolded_iff hn, hp'.isFolded_iff hn', hnext]
  cases p'.next? x <;> simp

/-! ## Chains -/

theorem chain (hp : p.Linked) (hp' : p'.Linked) (hx : x < p'.size) : p.chain (ν x) = (p'.chain x).map ν := by
  induction x using Nat.strongRecOn with
  | ind x ih =>
    have hprev := h.prev x hx
    cases e : p'.prev? x with
    | none =>
      rw [e] at hprev
      rw [chain_of_first hprev, chain_of_first e]
      rfl
    | some j =>
      rw [e] at hprev
      have hj := hp'.prev_lt e
      rw [chain_of_prev hp hprev, chain_of_prev hp' e, ih j hj (Nat.lt_trans hj hx), List.map_append]
      rfl

theorem root (hp : p.Linked) (hp' : p'.Linked) (hx : x < p'.size) : p.root (ν x) = ν (p'.root x) := by
  induction x using hp'.induction with
  | last x e =>
    have hnext := h.next x hx
    rw [e] at hnext
    rw [root_of_last hnext, root_of_last e]
  | step x y e ih =>
    have hnext := h.next x hx
    rw [e] at hnext
    rw [root_of_next hp hnext, root_of_next hp' e, ih (hp'.next_lt_size e)]

/-- The part of a chain from a node on is as long. -/
theorem length_above (hp : p.Linked) (hp' : p'.Linked) (hy : y < p'.size) :
    ((p.chain (p.root (ν y))).dropWhile (· ≠ ν y)).length = ((p'.chain (p'.root y)).dropWhile (· ≠ y)).length := by
  have hroot := root_lt_size hp' hy
  rw [h.root hp hp' hy, h.chain hp hp' hroot, List.dropWhile_map, List.length_map]
  refine congrArg List.length (Compile.dropWhile_congr fun z hz => ?_)
  have hz := Nat.lt_of_le_of_lt (le_of_mem_chain hp' hz) hroot
  simp [h.inj hz hy]

end Places

/-! ## Stores -/

section Stores

variable (h : Mirrors σ ν p l p' l') (hσ : Function.Injective σ) {x y : Nat}

include h hσ

theorem stores_iff (hx : x < p'.size) {r : UInt16} : l'.stores p' (σ r) x = true ↔ l.stores p r (ν x) = true := by
  obtain ⟨n, n', hn, hn', he⟩ := h.node hx
  rw [Liveness.stores_iff, Liveness.stores_iff, h.live x hx]
  refine and_congr_right fun _ => ?_
  constructor
  · rintro ⟨m, pos, hm, hd, hu⟩
    rw [hn'] at hm
    cases hm
    rw [he, Instruction.dest_rename_iff hσ] at hd
    exact ⟨n, pos, hn, hd, by rw [← h.isUnread hx]; exact hu⟩
  · rintro ⟨m, pos, hm, hd, hu⟩
    rw [hn] at hm
    cases hm
    refine ⟨n', pos, hn', ?_, by rw [h.isUnread hx]; exact hu⟩
    rw [he, Instruction.dest_rename_iff hσ]
    exact hd

theorem losesSource_iff (hl : l.Sound q) (hh : q.Handed l p) (hl' : l'.Sound q') (hh' : q'.Handed l' p')
    (hx : x < p'.size) (hy : y < p'.size) : p'.losesSource l' y x = true ↔ p.losesSource l (ν y) (ν x) = true := by
  rw [Program.losesSource_iff, Program.losesSource_iff]
  have stored (r : UInt16) : l'.storedBetween p' (σ r) x y = true ↔ l.storedBetween p r (ν x) (ν y) = true := by
    rw [Liveness.storedBetween_iff hl.flow fun _ hv => hh.storesAt_of_stores hv,
      Liveness.storedBetween_iff hl'.flow fun _ hv => hh'.storesAt_of_stores hv]
    constructor
    · rintro ⟨u, hxu, huy, hst⟩
      have hu := Nat.lt_trans huy hy
      exact ⟨ν u, (h.lt_iff hx hu).mpr hxu, (h.lt_iff hu hy).mpr huy, (h.stores_iff hσ hu).mp hst⟩
    · -- A store is a live node, so it is not missing.
      rintro ⟨v, hxv, hvy, hst⟩
      obtain ⟨hlive, n, -, hn, -⟩ := Liveness.stores_iff.mp hst
      obtain ⟨u, hu, rfl⟩ := h.covers v (lt_size_of_getElem? hn) hlive
      exact ⟨u, (h.lt_iff hx hu).mp hxv, (h.lt_iff hu hy).mp hvy, (h.stores_iff hσ hu).mpr hst⟩
  rw [h.sourcesOf hx]
  constructor
  · rintro ⟨r', hr', hst⟩
    obtain ⟨s, hs, e⟩ := List.mem_map.mp hr'
    obtain ⟨r, rfl, rfl⟩ := Source.of_rename_eq_reg e
    exact ⟨r, hs, (stored r).mp hst⟩
  · rintro ⟨r, hr, hst⟩
    exact ⟨σ r, List.mem_map.mpr ⟨.reg r, hr, rfl⟩, (stored r).mpr hst⟩

/-! ## What is folded -/

theorem canFold_iff (hp : p.Linked) (hp' : p'.Linked) {n n' m m' : Node} (hn : p[ν x]? = some n)
    (hn' : p'[x]? = some n') (hm : p[ν y]? = some m) (hm' : p'[y]? = some m') {pos : Nat} {r : UInt16}
    (hread : ∀ use ∈ l'.liveReaders x, use.1 < p'.size) :
    p'.CanFold l' x y pos n' m' (σ r) ↔ p.CanFold l (ν x) (ν y) pos n m r := by
  have hx := lt_size_of_getElem? hn'
  have hy := lt_size_of_getElem? hm'
  have hen := h.instr_eq hn hn'
  have hem := h.instr_eq hm hm'
  have hfold := h.isFolded hp hp' hn hn'
  have hlive := h.live x hx
  have hfed : m'.fedBy = none ↔ m.fedBy = none := by
    have hprev := h.prev y hy
    rw [prev?_eq hm, prev?_eq hm'] at hprev
    rw [hprev]
    cases m'.fedBy <;> simp
  have hdests : n'.instr.dests = [.reg (σ r)] ↔ n.instr.dests = [.reg r] := by
    rw [hen]
    simp [Instruction.rename, List.map_eq_singleton_iff, Dest.rename_eq_reg hσ]
  have honly : l'.liveReaders x = [(y, pos)] ↔ l.liveReaders (ν x) = [(ν y, pos)] := by
    rw [h.readers x hx, List.map_eq_singleton_iff]
    constructor
    · intro e
      exact ⟨_, e, rfl⟩
    · rintro ⟨⟨z, k⟩, e, ez⟩
      obtain ⟨hzy, hk⟩ : ν z = ν y ∧ k = pos := Prod.mk.inj ez
      have hz : z < p'.size := hread (z, k) (by rw [e]; exact List.mem_cons_self)
      rw [e, (h.inj hz hy).mp hzy, hk]
  constructor
  · intro hc
    refine ⟨?_, hdests.mp hc.dests, honly.mp hc.only, hm, ?_, hfed.mp hc.unfed, ?_, ?_, ?_, ?_⟩
    · have := hc.compute
      rwa [hen] at this
    · have := hc.source
      rwa [hem, Instruction.source_rename_iff hσ] at this
    · have := hc.no_acc
      rwa [hem, Instruction.mem_acc_sources_rename] at this
    · have := hc.fits
      rwa [hem] at this
    · rw [← hfold]
      exact hc.unfolded
    · rw [← hlive]
      exact hc.live
  · intro hc
    refine ⟨?_, hdests.mpr hc.dests, honly.mpr hc.only, hm', ?_, hfed.mpr hc.unfed, ?_, ?_, ?_, ?_⟩
    · rw [hen]
      exact hc.compute
    · rw [hem, Instruction.source_rename_iff hσ]
      exact hc.source
    · rw [hem, Instruction.mem_acc_sources_rename]
      exact hc.no_acc
    · rw [hem]
      exact hc.fits
    · rw [hfold]
      exact hc.unfolded
    · rw [hlive]
      exact hc.live

/-- A node is folded just when its image is, into the image of its reader. -/
theorem verdict_iff (hl : l.Sound q) (hh : q.Handed l p) (hl' : l'.Sound q') (hh' : q'.Handed l' p')
    (hx : x < p'.size) {limit j pos : Nat} :
    p.verdict l limit (ν x) = .fold j pos ↔ ∃ y < p'.size, ν y = j ∧ p'.verdict l' limit x = .fold y pos := by
  have hp := hh.linked
  have hp' := hh'.linked
  have hread : ∀ use ∈ l'.liveReaders x, use.1 < p'.size := fun use hu => (hh'.reader hl' hx hu).1
  obtain ⟨n, n', hn, hn', hen⟩ := h.node hx
  have hlength := congrArg List.length (h.chain hp hp' hx)
  rw [List.length_map] at hlength
  have loses {y : Nat} (hy : y < p'.size) : (∀ k ∈ p.chain (ν x), p.losesSource l (p.root (ν y)) k = false) ↔
      ∀ k ∈ p'.chain x, p'.losesSource l' (p'.root y) k = false := by
    rw [h.chain hp hp' hx, h.root hp hp' hy, List.forall_mem_map]
    refine forall₂_congr fun k hk => ?_
    have hk := Nat.lt_of_le_of_lt (le_of_mem_chain hp' hk) hx
    rw [← Bool.not_eq_true, ← Bool.not_eq_true, h.losesSource_iff hσ hl hh hl' hh' hk (root_lt_size hp' hy)]
  constructor
  · intro hv
    obtain ⟨k, m, r, hk, hc, hlen, hb⟩ := verdict_eq_fold_iff.mp hv
    rw [hn] at hk
    cases hk
    have honly := hc.only
    rw [h.readers x hx, List.map_eq_singleton_iff] at honly
    obtain ⟨⟨y, k⟩, honly, e⟩ := honly
    obtain ⟨hj, hk⟩ : ν y = j ∧ k = pos := Prod.mk.inj e
    subst hj hk
    have hy : y < p'.size := hread (y, k) (by rw [honly]; exact List.mem_cons_self)
    obtain ⟨m', hm'⟩ := exists_node hy
    refine ⟨y, hy, rfl, verdict_eq_fold_iff.mpr ⟨n', m', σ r, hn', ?_, ?_, (loses hy).mp hb⟩⟩
    · exact (h.canFold_iff hσ hp hp' hn hn' hc.reader hm' hread).mpr hc
    · rw [h.length_above hp hp' hy] at hlen
      omega
  · rintro ⟨y, hy, rfl, hv⟩
    obtain ⟨k, m', r', hk, hc, hlen, hb⟩ := verdict_eq_fold_iff.mp hv
    rw [hn'] at hk
    cases hk
    obtain ⟨m, hm, hem⟩ := h.instr y m' hc.reader
    -- The register that is handed on is the image of one.
    obtain ⟨r, rfl⟩ : ∃ r, r' = σ r := by
      have hd := hc.dests
      rw [hen] at hd
      obtain ⟨d, -, e⟩ := List.map_eq_singleton_iff.mp hd
      obtain ⟨r, -, rfl⟩ := Dest.of_rename_eq_reg e
      exact ⟨r, rfl⟩
    refine verdict_eq_fold_iff.mpr ⟨n, m, r, hn, ?_, ?_, (loses hy).mpr hb⟩
    · exact (h.canFold_iff hσ hp hp' hn hn' hm hc.reader hread).mp hc
    · rw [h.length_above hp hp' hy]
      omega

end Stores

/-! ## Folding -/

theorem link (h : Mirrors σ ν p l p' l') {x y pos : Nat} {n n' m m' : Node} (hn : p[ν x]? = some n)
    (hn' : p'[x]? = some n') (hm : p[ν y]? = some m) (hm' : p'[y]? = some m') (hxy : x ≠ y) :
    Mirrors σ ν (p.link (ν x) (ν y) pos) l (p'.link x y pos) l' := by
  have hx := lt_size_of_getElem? hn'
  have hy := lt_size_of_getElem? hm'
  have hne : ν x ≠ ν y := fun e => hxy ((h.inj hx hy).mp e)
  have hen := h.instr_eq hn hn'
  have hem := h.instr_eq hm hm'
  refine ⟨⟨?_, ?_, ?_, ?_, ?_⟩, ?_, ?_, ?_⟩
  · rw [size_link]
    exact h.order
  · rw [size_link, size_link]
    exact h.covers
  · intro z k' hk'
    have hz := lt_size_of_getElem? hk'
    rw [size_link] at hz
    rw [getElem?_link hn hm hne]
    rcases link_cases hn' hm' hxy hk' with ⟨rfl, rfl⟩ | ⟨rfl, rfl⟩ | ⟨hzx, hzy, hk'⟩
    · rw [if_pos rfl]
      refine ⟨_, rfl, ?_⟩
      simp [handing, hen, Instruction.rename, List.map_set, Dest.rename]
    · rw [if_neg (Ne.symm hne), if_pos rfl]
      refine ⟨_, rfl, ?_⟩
      simp [taking, hem, Instruction.rename, List.map_set, Source.rename]
    · rw [if_neg fun e => hzx ((h.inj hz hx).mp e), if_neg fun e => hzy ((h.inj hz hy).mp e)]
      exact h.instr z k' hk'
  · intro z hz
    rw [size_link] at hz
    rw [next?_link hn hm hne, next?_link hn' hm' hxy]
    by_cases e : z = x
    · rw [if_pos e, if_pos (congrArg ν e)]
      rfl
    · rw [if_neg e, if_neg fun e' => e ((h.inj hz hx).mp e')]
      exact h.next z hz
  · intro z hz
    rw [size_link] at hz
    rw [prev?_link hn hm hne, prev?_link hn' hm' hxy]
    by_cases e : z = y
    · rw [if_pos e, if_pos (congrArg ν e)]
      rfl
    · rw [if_neg e, if_neg fun e' => e ((h.inj hz hy).mp e')]
      exact h.prev z hz
  · rw [size_link]
    exact h.live
  · rw [size_link]
    exact h.readers
  · rw [size_link]
    exact h.unread

end Mirrors

/-- A dead node is not folded. -/
theorem Folding.visit_dead {limit i : Nat} (hi : l.isLive i = false) (f : Folding) : f.visit l limit i = f := by
  have hunfit : f.program.verdict l limit i = .unfit := by
    unfold verdict
    cases hn : f.program[i]? with
    | none => rfl
    | some n =>
      cases ht : f.program.foldTarget? l i n with
      | none => simp only [ht]
      | some t =>
        obtain ⟨j, pos⟩ := t
        obtain ⟨m, r, hc⟩ := foldTarget?_eq_some_iff.mp ht
        rw [hc.live] at hi
        cases hi
  simp only [visit, hunfit]

theorem Folding.visitAll_live {limit : Nat} (nodes : List Nat) (f : Folding) :
    nodes.foldl (Folding.visit l limit) f = (nodes.filter l.isLive).foldl (Folding.visit l limit) f := by
  induction nodes generalizing f with
  | nil => rfl
  | cons i nodes ih =>
    rw [List.foldl_cons, ih]
    by_cases hi : l.isLive i = true
    · rw [List.filter_cons_of_pos hi, List.foldl_cons]
    · rw [List.filter_cons_of_neg hi, Folding.visit_dead (by simpa using hi)]

structure Folding.Mirrors (σ : UInt16 → UInt16) (ν : Nat → Nat) (l : Liveness) (f : Folding) (l' : Liveness)
    (f' : Folding) : Prop where
  program : Program.Mirrors σ ν f.program l f'.program l'
  folds : f.folds = f'.folds.map fun fold => (ν fold.1, ν fold.2)
  folded : f.stats.folded = f'.stats.folded

namespace Folding.Mirrors

section Steps

variable {f f' : Folding} (hσ : Function.Injective σ) (hl : l.Sound q) (hl' : l'.Sound q') (limit : Nat)

include hσ hl hl'

theorem visit (h : Mirrors σ ν l f l' f') (hh : q.Handed l f.program) (hh' : q'.Handed l' f'.program) {x : Nat}
    (hx : x < f'.program.size) : Mirrors σ ν l (f.visit l limit (ν x)) l' (f'.visit l' limit x) := by
  by_cases hfold : ∃ y pos, f'.program.verdict l' limit x = .fold y pos
  · obtain ⟨y, pos, hv'⟩ := hfold
    obtain ⟨n', m', r', hn', hc', -⟩ := verdict_eq_fold_iff.mp hv'
    have hy := lt_size_of_getElem? hc'.reader
    have hv := (h.program.verdict_iff hσ hl hh hl' hh' hx).mpr ⟨y, hy, rfl, hv'⟩
    obtain ⟨n, m, r, hn, hc, -⟩ := verdict_eq_fold_iff.mp hv
    have hxy : x ≠ y := Nat.ne_of_lt (lastStore_lt (hc'.producer hh' hl' hn').1)
    simp only [Folding.visit, hv, hv']
    exact ⟨h.program.link hn hn' hc.reader hc'.reader hxy, by rw [h.folds]; rfl, by rw [h.folded]⟩
  · have hnone' (j pos : Nat) : f'.program.verdict l' limit x ≠ .fold j pos := fun hv => hfold ⟨j, pos, hv⟩
    have hnone (j pos : Nat) : f.program.verdict l limit (ν x) ≠ .fold j pos := by
      intro hv
      obtain ⟨y, -, -, hv'⟩ := (h.program.verdict_iff hσ hl hh hl' hh' hx).mp hv
      exact hfold ⟨y, pos, hv'⟩
    obtain ⟨e1, e2, e3⟩ := visit_eq hnone
    obtain ⟨e1', e2', e3'⟩ := visit_eq hnone'
    refine ⟨?_, ?_, ?_⟩
    · rw [e1, e1']
      exact h.program
    · rw [e2, e2']
      exact h.folds
    · rw [e3, e3']
      exact h.folded

theorem visits (h : Mirrors σ ν l f l' f') (hh : q.Handed l f.program) (hh' : q'.Handed l' f'.program) {xs : List Nat}
    (hxs : ∀ x ∈ xs, x < f'.program.size) :
    Mirrors σ ν l ((xs.map ν).foldl (Folding.visit l limit) f) l' (xs.foldl (Folding.visit l' limit) f') := by
  induction xs generalizing f f' with
  | nil => exact h
  | cons x xs ih =>
    have hx := hxs x List.mem_cons_self
    have hstep := (visit_step hl' hh' limit x).1
    refine ih (h.visit hσ hl hl' limit hh hh' hx) (visit_step hl hh limit (ν x)).1 hstep fun y hy => ?_
    rw [hstep.size, ← hh'.size]
    exact hxs y (List.mem_cons_of_mem x hy)

theorem round (h : Mirrors σ ν l f l' f') (hh : q.Handed l f.program) (hh' : q'.Handed l' f'.program) :
    Mirrors σ ν l (f.round l limit) l' (f'.round l' limit) := by
  have hstart : Mirrors σ ν l { f with stats := { f.stats with rounds := f.stats.rounds + 1 } } l'
      { f' with stats := { f'.stats with rounds := f'.stats.rounds + 1 } } := ⟨h.program, h.folds, h.folded⟩
  have hnodes : (List.range f.program.size).reverse.filter l.isLive =
      ((List.range f'.program.size).reverse.filter l'.isLive).map ν := by
    rw [List.filter_reverse, List.filter_reverse, h.program.map_live h.program.live, List.map_reverse]
  unfold Folding.round
  rw [Folding.visitAll_live, Folding.visitAll_live (l := l')]
  show Mirrors σ ν l (((List.range f.program.size).reverse.filter l.isLive).foldl _ _) l' _
  rw [hnodes]
  refine hstart.visits hσ hl hl' limit hh hh' fun x hx => ?_
  exact List.mem_range.mp (List.mem_reverse.mp (List.mem_filter.mp hx).1)

/-- Two runs with rounds enough end alike. -/
theorem run (h : Mirrors σ ν l f l' f') (hh : q.Handed l f.program) (hh' : q'.Handed l' f'.program)
    {rounds rounds' : Nat} (hr : f.program.loose < rounds) (hr' : f'.program.loose < rounds') :
    Mirrors σ ν l (f.run l limit rounds) l' (f'.run l' limit rounds') := by
  -- Both runs stop after the same round: each round folds as often in one as in the other.
  induction rounds generalizing f f' rounds' with
  | zero => omega
  | succ rounds ih =>
    cases rounds' with
    | zero => omega
    | succ rounds' =>
      have hround := h.round hσ hl hl' limit hh hh'
      obtain ⟨hg, hs⟩ := round_step hl hh limit
      obtain ⟨hg', hs'⟩ := round_step hl' hh' limit
      rw [Folding.run, Folding.run]
      by_cases hstop : (f.round l limit).stats.folded = f.stats.folded
      · have hstop' : (f'.round l' limit).stats.folded = f'.stats.folded := by
          rw [← hround.folded, ← h.folded]
          exact hstop
        rw [if_pos hstop, if_pos hstop']
        exact hround
      · have hstop' : (f'.round l' limit).stats.folded ≠ f'.stats.folded := by
          rw [← hround.folded, ← h.folded]
          exact hstop
        rw [if_neg hstop, if_neg hstop']
        rcases hs with hs | ⟨-, hs⟩
        · exact absurd (round_settled hs).2.2 hstop
        · rcases hs' with hs' | ⟨-, hs'⟩
          · exact absurd (round_settled hs').2.2 hstop'
          · exact ih hround hg hg' (by omega) (by omega)

end Steps

end Folding.Mirrors

/-- Mirrored programs are mirrored after folding, and as many folds were made. -/
theorem Mirrors.fold (h : Mirrors σ ν p l p' l') (hσ : Function.Injective σ) (hl : l.Sound q) (hh : q.Handed l p)
    (hl' : l'.Sound q') (hh' : q'.Handed l' p') (limit : Nat) (stats : FoldStats) :
    Folding.Mirrors σ ν l (p.fold l limit stats) l' (p'.fold l' limit stats) := by
  have hstart : Folding.Mirrors σ ν l ⟨p, stats, []⟩ l' ⟨p', stats, []⟩ := ⟨h, rfl, rfl⟩
  refine hstart.run hσ hl hl' limit hh hh' ?_ ?_
  · exact Nat.lt_succ_of_le loose_le_size
  · exact Nat.lt_succ_of_le loose_le_size

end Program

end LaneScript
