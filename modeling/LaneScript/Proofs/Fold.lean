/-
  LaneScript.Proofs.Fold — what folding keeps.

  `Handed q l p` says that `p` is the program `q` in which some computations hand their
  result on through the accumulator instead of a register: opcodes and payloads are the
  same, an operand is the accumulator only where the value read is the one handed on,
  and no register that a live node still reads is stored to between that node and the
  root of its chain. A program that was read hands on what its groups say
  (`handed_self`), and one fold keeps all of it (`Handed.link`), so a run of folds does
  (`handed_fold`).

  Every fold uses up a node, so the rounds suffice and the last one folds nothing: the
  result is `Settled`. Folding a settled program changes nothing (`fold_settled`).
-/
import LaneScript.Program.Fold
import LaneScript.Proofs.Liveness

namespace LaneScript.Program

/-- `p` is `q` with some results handed on through the accumulator. -/
structure Handed (q : Program) (l : Liveness) (p : Program) : Prop where
  size : p.size = q.size
  linked : p.Linked
  formed : p.Formed
  same : ∀ (i : Nat) (m n : Node), q[i]? = some m → p[i]? = some n →
    n.instr.opcode = m.instr.opcode ∧ n.instr.payload = m.instr.payload ∧
      n.instr.sources.length = m.instr.sources.length
  dests : ∀ (i : Nat) (m n : Node), q[i]? = some m → p[i]? = some n →
    n.instr.dests = m.instr.dests ∨ n.instr.dests = [.acc] ∧ ∃ r, m.instr.dests = [.reg r]
  kept : ∀ (i k : Nat) (s : Source), (p.sourcesOf i)[k]? = some s → s ≠ .acc → (q.sourcesOf i)[k]? = some s
  /-- What is read through the accumulator is what would have been read. -/
  taken : ∀ (i k : Nat), (p.sourcesOf i)[k]? = some .acc →
    ∃ (s : Source) (d : Dest) (w : Nat), (q.sourcesOf i)[k]? = some s ∧ s.place? = some d ∧
      lastStore q.instrs d i = some w ∧ p.prev? i = some w
  next_iff : ∀ (i : Nat) (n : Node), p[i]? = some n → ((∃ j, p.next? i = some j) ↔ .acc ∈ n.instr.dests)
  prev_iff : ∀ (i : Nat) (n : Node), p[i]? = some n → ((∃ j, p.prev? i = some j) ↔ .acc ∈ n.instr.sources)
  live : ∀ i j, p.next? i = some j → l.isLive i = l.isLive j
  /-- A register is only read from a node that still stores to it. -/
  unfolded : ∀ i r w, l.isLive i = true → .reg r ∈ p.sourcesOf i → lastStore q.instrs (.reg r) i = some w →
    p.next? w = none
  /-- Moving a node to its root carries it over no store to a register that it reads. -/
  steady : ∀ i r u, l.isLive i = true → .reg r ∈ p.sourcesOf i → i < u → u < p.root i → l.stores p r u = false

variable {q p : Program} {l : Liveness}

namespace Handed

variable (h : q.Handed l p) {i : Nat} {n : Node} (hn : p[i]? = some n)
include h hn

theorem next?_eq_none_iff : p.next? i = none ↔ .acc ∉ n.instr.dests := by
  rw [← h.next_iff i n hn, ← Option.ne_none_iff_exists', Decidable.not_not]

theorem prev?_eq_none_iff : p.prev? i = none ↔ .acc ∉ n.instr.sources := by
  rw [← h.prev_iff i n hn, ← Option.ne_none_iff_exists', Decidable.not_not]

/-- What feeds a node is a computation with no other result. -/
theorem step_of_next? {j : Nat} (hj : p.next? i = some j) : n.instr.category = .compute ∧ n.instr.dests = [.acc] :=
  (h.formed.fits i n hn).of_acc_mem_dests ((h.next_iff i n hn).mp ⟨j, hj⟩)

theorem category_eq {m : Node} (hm : q[i]? = some m) : n.instr.category = m.instr.category :=
  congrArg Opcode.category (h.same i m n hm hn).1

/-- A node that feeds nothing has the destinations that it was read with. -/
theorem dests_eq {m : Node} (hm : q[i]? = some m) (hi : p.next? i = none) : n.instr.dests = m.instr.dests := by
  rcases h.dests i m n hm hn with e | ⟨e, -⟩
  · exact e
  · have hacc := (h.next?_eq_none_iff hn).mp hi
    rw [e] at hacc
    exact absurd (List.mem_singleton_self _) hacc

end Handed

/-! ## A program that was read -/

theorem Grouped.root_between (h : p.Grouped) {i u : Nat} (hiu : i ≤ u) (hu : u < p.root i) :
    p.next? u = some (u + 1) := by
  induction i using h.linked.induction with
  | last i e =>
    rw [root_of_last e] at hu
    omega
  | step i j e ih =>
    obtain rfl := h.next_eq_succ e
    rw [root_of_next h.linked e] at hu
    by_cases hi : i = u
    · rw [← hi]; exact e
    · exact ih (by omega) hu

theorem handed_self (hg : q.Grouped) (hf : q.Formed) (hl : l.Sound q) : q.Handed l q := by
  refine ⟨rfl, hg.linked, hf, fun i m n hm hn => ?_, fun i m n hm hn => ?_, fun i k s h _ => h, fun i k h => ?_,
    fun i n hn => ?_, fun i n hn => ?_, hl.links, fun i r w _ _ hw => ?_, fun i r u _ _ hiu hu => ?_⟩
  · rw [hm] at hn
    cases hn
    exact ⟨rfl, rfl, rfl⟩
  · rw [hm] at hn
    cases hn
    exact .inl rfl
  · obtain ⟨n, hn, hs⟩ := mem_sourcesOf.mp (List.mem_of_getElem? h)
    obtain ⟨j, m, rfl, hm, hd⟩ := hg.taken i n (by simpa using hn) hs
    rw [Array.getElem?_toList] at hm
    have hst : lastStore q.instrs .acc (j + 1) = some j := lastStore_succ (by rw [q.getElem?_instrs, hm]; rfl) hd
    exact ⟨.acc, .acc, j, h, rfl, hst, by rw [hg.prev?_eq hn, if_pos hs]; rfl⟩
  · rw [hg.next?_eq hn]
    split <;> simp_all
  · rw [hg.prev?_eq hn]
    split <;> simp_all
  · -- A node that stores to a register does not store to the accumulator as well.
    obtain ⟨-, hst, -⟩ := lastStore_eq_some_iff.mp hw
    obtain ⟨x, hx, hr⟩ := storesAt_iff.mp hst
    rw [q.getElem?_instrs, Option.map_eq_some_iff] at hx
    obtain ⟨n, hn, rfl⟩ := hx
    rw [hg.next?_eq hn, if_neg]
    intro ha
    rw [((hf.fits w n hn).of_acc_mem_dests ha).2] at hr
    simp at hr
  · -- Between a node and its root there are only steps of its group.
    have hn := hg.root_between (Nat.le_of_lt hiu) hu
    obtain ⟨n, hn'⟩ := exists_node (lt_size_of_next? hn)
    rw [hg.next?_eq hn'] at hn
    split at hn
    · rename_i ha
      rw [← Bool.not_eq_true, Liveness.stores_iff]
      rintro ⟨-, m, pos, hm, hd, -⟩
      rw [hn'] at hm
      cases hm
      rw [((hf.fits u n hn').of_acc_mem_dests ha).2] at hd
      have := List.mem_of_getElem? hd
      simp at this
    · cases hn

/-! ## What may be folded -/

/-- Node `i` with instruction `n` stores to `r` alone, and source `pos` of the live node `j` alone reads it. -/
structure CanFold (p : Program) (l : Liveness) (i j pos : Nat) (n m : Node) (r : UInt16) : Prop where
  compute : n.instr.category = .compute
  dests : n.instr.dests = [.reg r]
  only : l.liveReaders i = [(j, pos)]
  reader : p[j]? = some m
  source : m.instr.sources[pos]? = some (.reg r)
  unfed : m.fedBy = none
  no_acc : .acc ∉ m.instr.sources
  fits : m.instr.category = .compute ∨ m.instr.category = .output ∧ pos = 1
  unfolded : n.isFolded = false
  live : l.isLive i = true

theorem foldTarget?_eq_some_iff {i j pos : Nat} {n : Node} :
    p.foldTarget? l i n = some (j, pos) ↔ ∃ m r, p.CanFold l i j pos n m r := by
  constructor
  · intro h
    unfold foldTarget? at h
    split at h
    · rename_i r reader pos' hc hd ho
      split at h
      · cases h
      · rename_i m hm
        simp only [Option.ite_none_right_eq_some, Bool.and_eq_true, Bool.not_eq_true', beq_iff_eq,
          Option.isNone_iff_eq_none, Option.some.injEq, Prod.mk.injEq] at h
        obtain ⟨⟨⟨⟨hu, hl⟩, ⟨hs, hf⟩, ha⟩, hfit⟩, rfl, rfl⟩ := h
        refine ⟨m, r, hc, hd, ho, hm, hs, hf, ?_, ?_, hu, hl⟩
        · simpa [Instruction.readsAcc] using ha
        · split at hfit
          · exact .inl ‹_›
          · exact .inr ⟨‹_›, by simpa using hfit⟩
          · cases hfit
    · cases h
  · rintro ⟨m, r, h⟩
    have ha : m.instr.readsAcc = false := by simpa [Instruction.readsAcc] using h.no_acc
    unfold foldTarget?
    rw [h.compute, h.dests, h.only]
    simp only [h.reader, h.source, h.unfed, h.unfolded, h.live, ha]
    rcases h.fits with hc | ⟨hc, rfl⟩ <;> simp [hc]

/-! ## One fold -/

section Link

variable {i j pos : Nat} {n m : Node} {r : UInt16}

def handing (n : Node) (j : Nat) : Node :=
  { n with feeds := some (j : Int), instr := { n.instr with dests := n.instr.dests.set 0 .acc } }

def taking (m : Node) (i pos : Nat) : Node :=
  { m with fedBy := some i, instr := { m.instr with sources := m.instr.sources.set pos .acc } }

@[simp] theorem target?_handing : (handing n j).target? = some j := rfl

theorem getElem?_link (hn : p[i]? = some n) (hm : p[j]? = some m) (hij : i ≠ j) (k : Nat) :
    (p.link i j pos)[k]? = if k = i then some (handing n j) else if k = j then some (taking m i pos) else p[k]? := by
  simp only [link, Array.getElem?_modify]
  by_cases e : k = i
  · subst e
    simp [Ne.symm hij, hn, handing]
  · by_cases e' : k = j
    · subst e'
      simp [e, Ne.symm e, hm, taking]
    · simp [e, e', Ne.symm e, Ne.symm e']

theorem size_link : (p.link i j pos).size = p.size := by simp [link]

theorem next?_link (hn : p[i]? = some n) (hm : p[j]? = some m) (hij : i ≠ j) (k : Nat) :
    (p.link i j pos).next? k = if k = i then some j else p.next? k := by
  simp only [next?, getElem?_link hn hm hij]
  by_cases e : k = i
  · simp [e]
  · by_cases e' : k = j
    · subst e'
      simp only [e, if_false, if_true, hm]
      rfl
    · simp [e, e']

theorem prev?_link (hn : p[i]? = some n) (hm : p[j]? = some m) (hij : i ≠ j) (k : Nat) :
    (p.link i j pos).prev? k = if k = j then some i else p.prev? k := by
  simp only [prev?, getElem?_link hn hm hij]
  by_cases e : k = i
  · subst e
    simp only [if_true, hij, if_false, hn]
    rfl
  · by_cases e' : k = j
    · simp [e', Ne.symm hij, taking]
    · simp [e, e']

theorem linked_link (h : p.Linked) (hn : p[i]? = some n) (hm : p[j]? = some m) (hij : i < j)
    (hi : p.next? i = none) (hj : p.prev? j = none) : (p.link i j pos).Linked := by
  have hne : i ≠ j := by omega
  refine ⟨fun a b => ?_, fun a b => ?_, fun a x ha hf => ?_⟩
  · rw [next?_link hn hm hne, prev?_link hn hm hne]
    by_cases e : a = i
    · subst e
      by_cases e' : b = j
      · simp [e']
      · have hb : p.prev? b ≠ some a := fun hb => by rw [(h.agree a b).mpr hb] at hi; cases hi
        simp [e', Ne.symm e', hb]
    · by_cases e' : b = j
      · subst e'
        have ha : p.next? a ≠ some b := fun ha => by rw [(h.agree a b).mp ha] at hj; cases hj
        simp [e, Ne.symm e, ha]
      · simp only [e, e', if_false]
        exact h.agree a b
  · rw [next?_link hn hm hne]
    split
    · rename_i e
      intro e'
      cases e'
      omega
    · exact h.forward a b
  · rw [getElem?_link hn hm hne] at ha
    split at ha
    · cases ha
      exact ⟨j, target?_handing⟩
    · split at ha
      · cases ha
        exact h.named j m hm hf
      · exact h.named a x ha hf

theorem root_link (h : p.Linked) (hn : p[i]? = some n) (hm : p[j]? = some m) (hij : i < j)
    (hi : p.next? i = none) (hj : p.prev? j = none) (k : Nat) :
    (p.link i j pos).root k = if p.root k = i then p.root j else p.root k := by
  have hl : (p.link i j pos).Linked := linked_link h hn hm hij hi hj
  have hne : i ≠ j := by omega
  induction k using hl.induction with
  | last k e =>
    rw [root_of_last e]
    rw [next?_link hn hm hne] at e
    split at e
    · cases e
    · rw [root_of_last e, if_neg ‹_›]
  | step k b e ih =>
    rw [root_of_next hl e, ih]
    rw [next?_link hn hm hne] at e
    split at e
    · rename_i hk
      cases e
      have hle := le_root h j
      rw [if_neg (by omega), hk, root_of_last hi, if_pos rfl]
    · rw [root_of_next h e]

theorem sourcesOf_link (hn : p[i]? = some n) (hm : p[j]? = some m) (hij : i ≠ j) (k : Nat) :
    (p.link i j pos).sourcesOf k = if k = j then m.instr.sources.set pos .acc else p.sourcesOf k := by
  simp only [sourcesOf, getElem?_link hn hm hij]
  by_cases e : k = i
  · subst e
    simp [hij, hn, handing]
  · by_cases e' : k = j
    · simp [e', Ne.symm hij, taking]
    · simp [e, e']

/-- The nodes after a fold are the two that were linked and all others. -/
theorem link_cases (hn : p[i]? = some n) (hm : p[j]? = some m) (hij : i ≠ j) {k : Nat} {x : Node}
    (hx : (p.link i j pos)[k]? = some x) :
    k = i ∧ x = handing n j ∨ k = j ∧ x = taking m i pos ∨ k ≠ i ∧ k ≠ j ∧ p[k]? = some x := by
  rw [getElem?_link hn hm hij] at hx
  by_cases e : k = i
  · rw [if_pos e] at hx
    cases hx
    exact .inl ⟨e, rfl⟩
  · rw [if_neg e] at hx
    by_cases e' : k = j
    · rw [if_pos e'] at hx
      cases hx
      exact .inr (.inl ⟨e', rfl⟩)
    · rw [if_neg e'] at hx
      exact .inr (.inr ⟨e, e', hx⟩)

variable (hc : p.CanFold l i j pos n m r)
include hc

theorem CanFold.formed_handing (hf : n.instr.Fits true) : (handing n j).instr.Fits true := by
  obtain ⟨⟨opcode, payload, sources, dests⟩, offset, feeds, fedBy⟩ := n
  have hcat := hc.compute
  have hs := hf.shaped
  simp only [handing, show dests = [.reg r] from hc.dests, List.set_cons_zero]
  cases opcode <;> simp only [Instruction.category, Opcode.category, reduceCtorEq] at hcat
  exact ⟨⟨hs.1, hs.2.1, rfl⟩, fun _ => ⟨rfl, .inl rfl⟩⟩

theorem CanFold.formed_taking (hf : m.instr.Fits true) : (taking m i pos).instr.Fits true := by
  obtain ⟨⟨opcode, payload, sources, dests⟩, offset, feeds, fedBy⟩ := m
  have hs := hf.shaped
  rcases hc.fits with hcat | ⟨hcat, rfl⟩
  · refine ⟨?_, fun _ => ⟨rfl, .inl hcat⟩⟩
    cases opcode <;> simp only [Instruction.category, Opcode.category, reduceCtorEq] at hcat
    exact ⟨hs.1, by simpa [taking] using hs.2.1, hs.2.2⟩
  · refine ⟨?_, fun _ => ⟨rfl, .inr hcat⟩⟩
    cases opcode <;> simp only [Instruction.category, Opcode.category, reduceCtorEq] at hcat
    obtain ⟨hp, ⟨a, s, rfl⟩, hd⟩ := hs
    exact ⟨hp, ⟨a, .acc, rfl⟩, hd⟩

theorem CanFold.formed_link (hp : p.Formed) (hn : p[i]? = some n) (hij : i ≠ j) : (p.link i j pos).Formed := by
  refine ⟨fun k x hx => ?_, fun k x hx => ?_, fun k x hx => ?_⟩
  · rcases link_cases hn hc.reader hij hx with ⟨rfl, rfl⟩ | ⟨rfl, rfl⟩ | ⟨-, -, hx⟩
    · exact hc.formed_handing (hp.fits _ _ hn)
    · exact hc.formed_taking (hp.fits _ _ hc.reader)
    · exact hp.fits k x hx
  · rcases link_cases hn hc.reader hij hx with ⟨rfl, rfl⟩ | ⟨rfl, rfl⟩ | ⟨-, -, hx⟩
    · exact hp.running _ n hn
    · exact hp.running _ m hc.reader
    · exact hp.running k x hx
  · rcases link_cases hn hc.reader hij hx with ⟨rfl, rfl⟩ | ⟨rfl, rfl⟩ | ⟨-, -, hx⟩
    · exact hp.single _ n hn
    · have hlt := (List.getElem?_eq_some_iff.mp hc.source).1
      simp [taking, List.count_set hlt, List.count_eq_zero_of_not_mem hc.no_acc]
    · exact hp.single k x hx

omit hc in
theorem mem_of_mem_sourcesOf_link (hn : p[i]? = some n) (hm : p[j]? = some m) (hij : i ≠ j) {k x : Nat} {s : Source}
    (hs : s ≠ .acc) (h : ((p.link i j pos).sourcesOf k)[x]? = some s) :
    (p.sourcesOf k)[x]? = some s ∧ (k, x) ≠ (j, pos) := by
  rw [sourcesOf_link hn hm hij] at h
  by_cases e : k = j
  · subst e
    rw [if_pos rfl, List.getElem?_set] at h
    by_cases e' : pos = x
    · rw [if_pos e'] at h
      split at h
      · cases h; exact absurd rfl hs
      · cases h
    · rw [if_neg e'] at h
      exact ⟨by rw [sourcesOf_eq hm]; exact h, fun e => e' (Prod.mk.inj e).2.symm⟩
  · rw [if_neg e] at h
    exact ⟨h, fun e' => e (Prod.mk.inj e').1⟩

omit hc in
theorem dests_link (hn : p[i]? = some n) (hm : p[j]? = some m) (hij : i ≠ j) {k : Nat} {x : Node}
    (hx : (p.link i j pos)[k]? = some x) (hk : k ≠ i) : ∃ y, p[k]? = some y ∧ x.instr.dests = y.instr.dests := by
  rcases link_cases hn hm hij hx with ⟨rfl, -⟩ | ⟨rfl, rfl⟩ | ⟨-, -, hx⟩
  · exact absurd rfl hk
  · exact ⟨m, hm, rfl⟩
  · exact ⟨x, hx, rfl⟩

/-- The value that the fold hands on is the one that its reader reads. -/
theorem CanFold.producer (h : q.Handed l p) (hl : l.Sound q) (hn : p[i]? = some n) :
    lastStore q.instrs (.reg r) j = some i ∧ l.isLive j = true := by
  have hmem : (j, pos) ∈ l.liveReaders i := by rw [hc.only]; exact List.mem_singleton_self _
  obtain ⟨hr, hj⟩ := Liveness.mem_liveReaders.mp hmem
  have hi : i < q.size := by rw [← h.size]; exact lt_size_of_getElem? hn
  obtain ⟨s, hs, hp⟩ := (hl.flow.mem_readers hi).mp hr
  have hq := h.kept j pos (.reg r) (by rw [sourcesOf_eq hc.reader]; exact hc.source) nofun
  rw [hs] at hq
  cases hq
  exact ⟨hp, hj⟩

theorem CanFold.next?_eq_none (hn : p[i]? = some n) : p.next? i = none := by
  have hu := hc.unfolded
  simp only [Node.isFolded, Option.isSome_eq_false_iff, Option.isNone_iff_eq_none] at hu
  rw [next?_eq hn, Node.target?, hu]
  rfl

/-- A fold takes stores away and adds none. -/
theorem CanFold.stores_link (hn : p[i]? = some n) (hij : i ≠ j) {x : UInt16} {u : Nat}
    (h : l.stores (p.link i j pos) x u = true) : l.stores p x u = true := by
  obtain ⟨hu, y, k, hy, hd, hk⟩ := Liveness.stores_iff.mp h
  have hui : u ≠ i := by
    rintro rfl
    rw [getElem?_link hn hc.reader hij, if_pos rfl] at hy
    cases hy
    have hd := List.mem_of_getElem? hd
    simp [handing, hc.dests] at hd
  obtain ⟨z, hz, e⟩ := dests_link hn hc.reader hij hy hui
  rw [e] at hd
  exact Liveness.stores_iff.mpr ⟨hu, z, k, hz, hd, hk⟩

end Link

theorem Handed.storesAt_of_stores (h : q.Handed l p) {r : UInt16} {u : Nat} (hu : l.stores p r u = true) :
    storesAt q.instrs (.reg r) u = true := by
  obtain ⟨-, n, k, hn, hd, -⟩ := Liveness.stores_iff.mp hu
  obtain ⟨m, hm⟩ := exists_node (by rw [← h.size]; exact lt_size_of_getElem? hn : u < q.size)
  refine storesAt_iff.mpr ⟨m.instr, by rw [q.getElem?_instrs, hm]; rfl, ?_⟩
  rcases h.dests u m n hm hn with e | ⟨e, -⟩
  · rw [← e]
    exact List.mem_of_getElem? hd
  · rw [e] at hd
    have := List.mem_of_getElem? hd
    simp at this

theorem losesSource_iff {root k : Nat} : p.losesSource l root k = true ↔
    ∃ r, .reg r ∈ p.sourcesOf k ∧ l.storedBetween p r k root = true := by
  unfold losesSource sourcesOf
  cases p[k]? with
  | none => simp
  | some n =>
    simp only [List.any_eq_true, Prod.exists, mem_reads, Option.map_some, Option.getD_some]
    constructor
    · rintro ⟨a, r, hr, h⟩
      exact ⟨r, List.mem_of_getElem? hr, h⟩
    · rintro ⟨r, hr, h⟩
      obtain ⟨a, ha⟩ := List.getElem?_of_mem hr
      exact ⟨a, r, ha, h⟩

/-- One fold keeps the invariant. -/
theorem Handed.link {i j pos : Nat} {n m : Node} {r : UInt16} (h : q.Handed l p) (hl : l.Sound q)
    (hn : p[i]? = some n) (hc : p.CanFold l i j pos n m r) (hb : ∀ k ∈ p.chain i, p.losesSource l (p.root j) k = false) :
    q.Handed l (p.link i j pos) := by
  obtain ⟨hprod, hjl⟩ := hc.producer h hl hn
  have hlt : i < j := lastStore_lt hprod
  have hij : i ≠ j := by omega
  have hm := hc.reader
  have hi := hc.next?_eq_none hn
  have hj : p.prev? j = none := by rw [prev?_eq hm, hc.unfed]
  have hlink : (p.link i j pos).Linked := linked_link h.linked hn hm hlt hi hj
  -- A source that is still a register or a constant was one before.
  have kept {k x : Nat} {s : Source} (e : ((p.link i j pos).sourcesOf k)[x]? = some s) (hs : s ≠ .acc) :=
    mem_of_mem_sourcesOf_link hn hm hij hs e
  refine ⟨size_link.trans h.size, hlink, hc.formed_link h.formed hn hij, fun k y x hy hx => ?_, fun k y x hy hx => ?_,
    fun k x s e hs => h.kept k x s (kept e hs).1 hs, fun k x e => ?_, fun k x hx => ?_, fun k x hx => ?_,
    fun a b e => ?_, fun k a w hk ha hw => ?_, fun k a u hk ha hku hu => ?_⟩
  · rcases link_cases hn hm hij hx with ⟨rfl, rfl⟩ | ⟨rfl, rfl⟩ | ⟨-, -, hx⟩
    · exact h.same _ y n hy hn
    · obtain ⟨h1, h2, h3⟩ := h.same _ y m hy hm
      exact ⟨h1, h2, by simpa [taking] using h3⟩
    · exact h.same k y x hy hx
  · rcases link_cases hn hm hij hx with ⟨rfl, rfl⟩ | ⟨rfl, rfl⟩ | ⟨-, -, hx⟩
    · refine .inr ⟨by simp [handing, hc.dests], r, ?_⟩
      rcases h.dests _ y n hy hn with e | ⟨e, -⟩
      · rw [← e, hc.dests]
      · rw [hc.dests] at e
        cases e
    · exact h.dests _ y m hy hm
    · exact h.dests k y x hy hx
  · rw [sourcesOf_link hn hm hij] at e
    rw [prev?_link hn hm hij]
    by_cases ek : k = j
    · subst ek
      rw [if_pos rfl, List.getElem?_set] at e
      rw [if_pos rfl]
      by_cases ex : pos = x
      · subst ex
        refine ⟨.reg r, .reg r, i, ?_, rfl, hprod, rfl⟩
        exact h.kept _ _ _ (by rw [sourcesOf_eq hm]; exact hc.source) nofun
      · rw [if_neg ex] at e
        exact absurd (List.mem_of_getElem? e) hc.no_acc
    · rw [if_neg ek] at e ⊢
      exact h.taken k x e
  · rw [next?_link hn hm hij]
    rcases link_cases hn hm hij hx with ⟨rfl, rfl⟩ | ⟨rfl, rfl⟩ | ⟨hk, -, hx⟩
    · simp [handing, hc.dests]
    · rw [if_neg (Ne.symm hij)]
      exact h.next_iff _ m hm
    · rw [if_neg hk]
      exact h.next_iff k x hx
  · rw [prev?_link hn hm hij]
    rcases link_cases hn hm hij hx with ⟨rfl, rfl⟩ | ⟨rfl, rfl⟩ | ⟨-, hk, hx⟩
    · rw [if_neg hij]
      exact h.prev_iff _ n hn
    · have hmem : .acc ∈ (taking m i pos).instr.sources :=
        List.mem_iff_getElem?.mpr ⟨pos, List.getElem?_set_self (List.getElem?_eq_some_iff.mp hc.source).1⟩
      simp [hmem]
    · rw [if_neg hk]
      exact h.prev_iff k x hx
  · rw [next?_link hn hm hij] at e
    split at e
    · rename_i ea
      cases e
      rw [ea, hc.live, hjl]
    · exact h.live a b e
  · obtain ⟨x, hx⟩ := List.getElem?_of_mem ha
    obtain ⟨hxp, hne⟩ := kept hx nofun
    rw [next?_link hn hm hij]
    by_cases e : w = i
    · -- The only live reader of the folded node no longer reads its register.
      subst e
      have hw' : w < q.size := by rw [← h.size]; exact lt_size_of_getElem? hn
      have hr := (hl.flow.mem_readers hw').mpr ⟨.reg a, h.kept k x _ hxp nofun, hw⟩
      have hlr := Liveness.mem_liveReaders.mpr ⟨hr, hk⟩
      rw [hc.only] at hlr
      exact absurd (List.mem_singleton.mp hlr) hne
    · rw [if_neg e]
      exact h.unfolded k a w hk (List.mem_of_getElem? hxp) hw
  · obtain ⟨x, hx⟩ := List.getElem?_of_mem ha
    have ha := List.mem_of_getElem? (kept hx nofun).1
    rw [← Bool.not_eq_true]
    intro hst
    have hst := hc.stores_link hn hij hst
    rw [root_link h.linked hn hm hlt hi hj] at hu
    by_cases e : p.root k = i
    · -- The node moves along with the folded one, over nothing that the check did not see.
      rw [if_pos e] at hu
      have hfalse := hb k ((mem_chain_iff h.linked hi).mpr e)
      have hs : l.storedBetween p a k (p.root j) = true :=
        (Liveness.storedBetween_iff hl.flow fun _ hv => h.storesAt_of_stores hv).mpr ⟨u, hku, hu, hst⟩
      rw [losesSource_iff.mpr ⟨a, ha, hs⟩] at hfalse
      cases hfalse
    · rw [if_neg e] at hu
      rw [h.steady k a u hk ha hku hu] at hst
      cases hst

/-! ## Visits and rounds -/

theorem verdict_eq_fold_iff {limit i j pos : Nat} :
    p.verdict l limit i = .fold j pos ↔ ∃ n m r, p[i]? = some n ∧ p.CanFold l i j pos n m r ∧
      (p.chain i).length + ((p.chain (p.root j)).dropWhile (· ≠ j)).length ≤ limit ∧
        ∀ k ∈ p.chain i, p.losesSource l (p.root j) k = false := by
  unfold verdict
  cases hn : p[i]? with
  | none => simp
  | some n =>
    cases ht : p.foldTarget? l i n with
    | none =>
      simp only [ht, reduceCtorEq, false_iff, Option.some.injEq]
      rintro ⟨n, m, r, rfl, hc, -⟩
      rw [foldTarget?_eq_some_iff.mpr ⟨m, r, hc⟩] at ht
      cases ht
    | some t =>
      obtain ⟨j', pos'⟩ := t
      simp only [ht]
      constructor
      · intro h
        split at h
        · cases h
        · split at h
          · cases h
          · rename_i hlen hany
            cases h
            obtain ⟨m, r, hc⟩ := foldTarget?_eq_some_iff.mp ht
            refine ⟨n, m, r, rfl, hc, by omega, ?_⟩
            simpa using hany
      · rintro ⟨n', m, r, e, hc, hlen, hany⟩
        cases e
        rw [foldTarget?_eq_some_iff.mpr ⟨m, r, hc⟩] at ht
        cases ht
        rw [if_neg (by omega), if_neg (by simpa using hany)]

/-- How many nodes have not been folded. -/
def loose (p : Program) : Nat := (p.toList.map Node.isFolded).count false

theorem loose_le_size : p.loose ≤ p.size := by
  refine Nat.le_trans List.count_le_length ?_
  simp

theorem map_isFolded_link {i j pos : Nat} {n m : Node} (hn : p[i]? = some n) (hm : p[j]? = some m) (hij : i ≠ j) :
    (p.link i j pos).toList.map Node.isFolded = (p.toList.map Node.isFolded).set i true := by
  refine List.ext_getElem? fun k => ?_
  rw [List.getElem?_map, Array.getElem?_toList, getElem?_link hn hm hij, List.getElem?_set, List.getElem?_map,
    Array.getElem?_toList]
  by_cases e : k = i
  · subst e
    simp [lt_size_of_getElem? hn, handing, Node.isFolded]
  · by_cases e' : k = j
    · subst e'
      simp [e, Ne.symm e, hm, taking, Node.isFolded]
    · simp [e, e', Ne.symm e]

theorem loose_link {i j pos : Nat} {n m : Node} {r : UInt16} (hn : p[i]? = some n) (hc : p.CanFold l i j pos n m r)
    (hij : i ≠ j) : (p.link i j pos).loose < p.loose := by
  have hi : (p.toList.map Node.isFolded)[i]? = some false := by simp [hn, hc.unfolded]
  obtain ⟨hlt, e⟩ := List.getElem?_eq_some_iff.mp hi
  have hpos := List.count_pos_iff.mpr (List.mem_of_getElem? hi)
  rw [loose, loose, map_isFolded_link hn hc.reader hij, List.count_set hlt, e]
  show List.count false _ - 1 + 0 < _
  omega

def Settled (l : Liveness) (limit : Nat) (p : Program) : Prop :=
  ∀ i j pos, p.verdict l limit i ≠ .fold j pos

theorem visit_eq {limit : Nat} {f : Folding} {i : Nat} (h : ∀ j pos, f.program.verdict l limit i ≠ .fold j pos) :
    (f.visit l limit i).program = f.program ∧ (f.visit l limit i).folds = f.folds ∧
      (f.visit l limit i).stats.folded = f.stats.folded := by
  unfold Folding.visit
  split
  · rename_i j pos hv
    exact absurd hv (h j pos)
  · exact ⟨rfl, rfl, rfl⟩
  · exact ⟨rfl, rfl, rfl⟩
  · exact ⟨rfl, rfl, rfl⟩

theorem visitAll_eq {limit : Nat} {f : Folding} {nodes : List Nat}
    (h : ∀ i ∈ nodes, ∀ j pos, f.program.verdict l limit i ≠ .fold j pos) :
    (nodes.foldl (Folding.visit l limit) f).program = f.program ∧
      (nodes.foldl (Folding.visit l limit) f).folds = f.folds ∧
        (nodes.foldl (Folding.visit l limit) f).stats.folded = f.stats.folded := by
  induction nodes generalizing f with
  | nil => exact ⟨rfl, rfl, rfl⟩
  | cons i nodes ih =>
    obtain ⟨h1, h2, h3⟩ := visit_eq (h i List.mem_cons_self)
    obtain ⟨e1, e2, e3⟩ := ih (f := f.visit l limit i) (by rw [h1]; exact fun k hk => h k (List.mem_cons_of_mem _ hk))
    exact ⟨e1.trans h1, e2.trans h2, e3.trans h3⟩

/-- Each visit keeps the invariant, and either nothing is folded or fewer nodes are loose. -/
theorem visit_step {f : Folding} (hl : l.Sound q) (h : q.Handed l f.program) (limit i : Nat) :
    q.Handed l (f.visit l limit i).program ∧
      ((∀ j pos, f.program.verdict l limit i ≠ .fold j pos) ∨
        f.stats.folded < (f.visit l limit i).stats.folded ∧ (f.visit l limit i).program.loose < f.program.loose) := by
  cases hv : f.program.verdict l limit i with
  | fold j pos =>
    obtain ⟨n, m, r, hn, hc, -, hb⟩ := verdict_eq_fold_iff.mp hv
    have hij : i ≠ j := Nat.ne_of_lt (lastStore_lt (hc.producer h hl hn).1)
    simp only [Folding.visit, hv]
    exact ⟨h.link hl hn hc hb, .inr ⟨Nat.lt_succ_self _, loose_link hn hc hij⟩⟩
  | unfit =>
    simp only [Folding.visit, hv]
    exact ⟨h, .inl nofun⟩
  | blockedByStore =>
    simp only [Folding.visit, hv]
    exact ⟨h, .inl nofun⟩
  | blockedByLength =>
    simp only [Folding.visit, hv]
    exact ⟨h, .inl nofun⟩

theorem visitAll_step {f : Folding} (hl : l.Sound q) (h : q.Handed l f.program) (limit : Nat) (nodes : List Nat) :
    let g := nodes.foldl (Folding.visit l limit) f
    q.Handed l g.program ∧ ((∀ i ∈ nodes, ∀ j pos, f.program.verdict l limit i ≠ .fold j pos) ∨
      f.stats.folded < g.stats.folded ∧ g.program.loose < f.program.loose) := by
  induction nodes generalizing f with
  | nil => exact ⟨h, .inl nofun⟩
  | cons i nodes ih =>
    obtain ⟨h1, h2⟩ := visit_step hl h limit i
    obtain ⟨h3, h4⟩ := ih h1
    refine ⟨h3, ?_⟩
    rw [List.foldl_cons]
    rcases h2 with h2 | ⟨h2, h2'⟩
    · obtain ⟨e1, -, e3⟩ := visit_eq h2
      rw [e1, e3] at h4
      refine h4.imp_left fun h4 k hk => ?_
      rcases List.mem_cons.mp hk with rfl | hk
      · exact h2
      · exact h4 k hk
    · rcases h4 with h4 | ⟨h4, h4'⟩
      · obtain ⟨e1, -, e3⟩ := visitAll_eq h4
        rw [e1, e3]
        exact .inr ⟨h2, h2'⟩
      · exact .inr ⟨Nat.lt_trans h2 h4, Nat.lt_trans h4' h2'⟩

theorem round_step {f : Folding} (hl : l.Sound q) (h : q.Handed l f.program) (limit : Nat) :
    q.Handed l (f.round l limit).program ∧ (f.program.Settled l limit ∨
      f.stats.folded < (f.round l limit).stats.folded ∧ (f.round l limit).program.loose < f.program.loose) := by
  obtain ⟨h1, h2⟩ := visitAll_step (f := { f with stats := { f.stats with rounds := f.stats.rounds + 1 } }) hl h limit
    (List.range f.program.size).reverse
  refine ⟨h1, h2.imp_left fun h2 i j pos hv => ?_⟩
  obtain ⟨n, m, r, hn, -⟩ := verdict_eq_fold_iff.mp hv
  exact h2 i (by simpa using lt_size_of_getElem? hn) j pos hv

theorem round_settled {f : Folding} {limit : Nat} (h : f.program.Settled l limit) :
    (f.round l limit).program = f.program ∧ (f.round l limit).folds = f.folds ∧
      (f.round l limit).stats.folded = f.stats.folded :=
  visitAll_eq (f := { f with stats := { f.stats with rounds := f.stats.rounds + 1 } }) fun i _ => h i

/-- Folding keeps the invariant and stops only when nothing can be folded. -/
theorem run_handed {limit rounds : Nat} {f : Folding} (hl : l.Sound q) (h : q.Handed l f.program)
    (hr : f.program.loose < rounds) :
    q.Handed l (f.run l limit rounds).program ∧ (f.run l limit rounds).program.Settled l limit := by
  induction rounds generalizing f with
  | zero => omega
  | succ rounds ih =>
    obtain ⟨h1, h2⟩ := round_step hl h limit
    rw [Folding.run]
    rcases h2 with hs | ⟨h2, h3⟩
    · obtain ⟨e1, -, e3⟩ := round_settled hs
      rw [if_pos e3, e1]
      exact ⟨h, hs⟩
    · rw [if_neg (by omega)]
      exact ih h1 (by omega)

theorem handed_fold (hl : l.Sound q) (h : q.Handed l p) (limit : Nat) (stats : FoldStats) :
    q.Handed l (p.fold l limit stats).program ∧ (p.fold l limit stats).program.Settled l limit :=
  run_handed hl h (Nat.lt_succ_of_le loose_le_size)

/-- Where nothing can be folded, folding changes nothing. -/
theorem fold_settled {limit : Nat} (h : p.Settled l limit) (stats : FoldStats) :
    (p.fold l limit stats).program = p ∧ (p.fold l limit stats).folds = [] := by
  obtain ⟨e1, e2, e3⟩ := round_settled (f := ⟨p, stats, []⟩) h
  rw [fold, Folding.run, if_pos e3]
  exact ⟨e1, e2⟩

end LaneScript.Program
