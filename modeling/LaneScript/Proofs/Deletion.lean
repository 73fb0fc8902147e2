/-
  LaneScript.Proofs.Deletion — marking dead is deleting.

  Dead nodes stay in a program, and every stage behind pruning steps over them. Deleting
  them from the stream instead (`livePart`) leaves just the live instructions: the steps
  of a group are dead together, so no group is cut. The stream that is left makes the same
  calls, reads only what was stored, and is an excerpt of the whole. It compiles to the
  same image, with nothing left to drop (`compile_live_part`).
-/
import LaneScript.Image.Pack
import LaneScript.Proofs.Excerpt

namespace LaneScript

/-! ## The live part of a stream -/

namespace Stream

/-- The items of which a node is kept, if the first item begins at `node`. -/
def keepFrom (keep : Nat → Bool) : (node : Nat) → List Item → List Item
  | _, [] => []
  | node, item :: items =>
    let rest := keepFrom keep (node + item.instructions.length) items
    if (List.range' node item.instructions.length).any keep then item :: rest else rest

def Decoded.livePart (d : Decoded) (l : Liveness) : Script := ⟨keepFrom l.isLive 0 d.items, d.doneAt.isSome⟩

theorem sublist_keepFrom (keep : Nat → Bool) (node : Nat) (items : List Item) :
    (keepFrom keep node items).Sublist items := by
  induction items generalizing node with
  | nil => exact List.Sublist.slnil
  | cons item items ih =>
    rw [keepFrom]
    split
    · exact (ih _).cons_cons item
    · exact (ih _).cons item

/-- Where the nodes of an item are kept together, the kept items hold the kept instructions. -/
theorem instructions_keepFrom {keep : Nat → Bool} (front : List Item) {items : List Item}
    (h : ∀ (before after : List Item) (item : Item) (k : Nat), front ++ items = before ++ item :: after →
      k < item.instructions.length → keep ((before.flatMap Item.instructions).length + k) =
        keep (before.flatMap Item.instructions).length) :
    (keepFrom keep (front.flatMap Item.instructions).length items).flatMap Item.instructions =
      (((items.flatMap Item.instructions).zipIdx (front.flatMap Item.instructions).length).filter
        fun x => keep x.2).map Prod.fst := by
  induction items generalizing front with
  | nil => rfl
  | cons item items ih =>
    have hrest := ih (front ++ [item]) (by simpa using h)
    have hitem := h front items item
    simp only [List.flatMap_append, List.flatMap_singleton, List.length_append] at hrest
    generalize (front.flatMap Item.instructions).length = node at hrest hitem ⊢
    rw [List.flatMap_cons, List.zipIdx_append, List.filter_append, List.map_append, ← hrest, keepFrom]
    have htogether {x : Instruction × Nat} (hx : x ∈ item.instructions.zipIdx node) : keep x.2 = keep node := by
      obtain ⟨hle, hlt, -⟩ := List.mem_zipIdx hx
      have hk := hitem (x.2 - node) rfl (by omega)
      rwa [Nat.add_sub_cancel' hle] at hk
    by_cases hany : (List.range' node item.instructions.length).any keep = true
    · obtain ⟨j, hj, hkeep⟩ := List.any_eq_true.mp hany
      obtain ⟨hle, hlt⟩ := List.mem_range'_1.mp hj
      have hk := hitem (j - node) rfl (by omega)
      rw [Nat.add_sub_cancel' hle, hkeep] at hk
      rw [if_pos hany, List.flatMap_cons, List.filter_eq_self.mpr fun x hx => (htogether hx).trans hk.symm,
        List.zipIdx_map_fst]
    · have hnone : ∀ x ∈ item.instructions.zipIdx node, ¬ keep x.2 = true := by
        intro x hx hkeep
        obtain ⟨hle, hlt, -⟩ := List.mem_zipIdx hx
        exact hany (List.any_eq_true.mpr ⟨x.2, List.mem_range'_1.mpr ⟨hle, hlt⟩, hkeep⟩)
      rw [if_neg hany, List.filter_eq_nil_iff.mpr hnone]
      rfl

end Stream

/-! ## The program that is left -/

theorem Source.rename_id (s : Source) : s.rename id = s := by
  cases s <;> rfl

theorem Dest.rename_id (d : Dest) : d.rename id = d := by
  cases d <;> rfl

theorem Instruction.rename_id (i : Instruction) : i.rename id = i := by
  rw [rename, funext Source.rename_id, funext Dest.rename_id, List.map_id', List.map_id']

namespace Program

def liveInstrs (p : Program) (l : Liveness) : List (Instruction × Nat) := p.instrs.zipIdx.filter fun x => l.isLive x.2

/-- The node that holds the `x`-th live instruction. -/
def livePlace (p : Program) (l : Liveness) (x : Nat) : Nat := ((p.liveInstrs l).map Prod.snd).getD x 0

variable {p p' : Program} {l : Liveness}

theorem mem_liveInstrs {x : Instruction × Nat} :
    x ∈ p.liveInstrs l ↔ p.instrs[x.2]? = some x.1 ∧ l.isLive x.2 = true := by
  rw [liveInstrs, List.mem_filter, List.mem_zipIdx_iff_getElem?]

theorem pairwise_liveInstrs : ((p.liveInstrs l).map Prod.snd).Pairwise (· < ·) := by
  rw [List.pairwise_map]
  refine List.Pairwise.filter _ ?_
  rw [← List.pairwise_map (f := Prod.snd), List.zipIdx_map_snd]
  exact List.pairwise_lt_range'

theorem livePlace_eq {x : Nat} {a : Instruction × Nat} (h : (p.liveInstrs l)[x]? = some a) : p.livePlace l x = a.2 := by
  simp [livePlace, List.getD_eq_getElem?_getD, h]

section Excerpt

variable (hp' : p'.instrs = (p.liveInstrs l).map Prod.fst)

include hp'

theorem size_live : p'.size = (p.liveInstrs l).length := by
  rw [← length_instrs, hp', List.length_map]

/-- What is left and what is dead are all there was. -/
theorem size_live_add_dead : p'.size + ((List.range p.size).filter fun i => !l.isLive i).length = p.size := by
  have hlength : (p.liveInstrs l).length = ((List.range p.size).filter l.isLive).length := by
    rw [List.range_eq_range', ← length_instrs, ← List.zipIdx_map_snd, List.filter_map, List.length_map]
    rfl
  have hsplit := List.length_eq_length_filter_add (l := List.range p.size) l.isLive
  rw [List.length_range] at hsplit
  rw [size_live hp', hlength]
  exact hsplit.symm

/-- Every node that is left comes from a live node. -/
theorem exists_live {x : Nat} {n' : Node} (hn' : p'[x]? = some n') :
    l.isLive (p.livePlace l x) = true ∧ ∃ n, p[p.livePlace l x]? = some n ∧ n'.instr = n.instr := by
  have hx := getElem?_instrs (p := p') x
  rw [hn', hp', List.getElem?_map] at hx
  obtain ⟨⟨a, k⟩, ha, e⟩ := Option.map_eq_some_iff.mp hx
  obtain ⟨hk, hlive⟩ := mem_liveInstrs.mp (List.mem_of_getElem? ha)
  rw [getElem?_instrs] at hk
  obtain ⟨n, hn, rfl⟩ := Option.map_eq_some_iff.mp hk
  rw [livePlace_eq ha]
  exact ⟨hlive, n, hn, e.symm⟩

theorem livePlace_lt {x y : Nat} (hxy : x < y) (hy : y < p'.size) : p.livePlace l x < p.livePlace l y := by
  rw [size_live hp'] at hy
  have hlt := List.pairwise_iff_getElem.mp (pairwise_liveInstrs (p := p) (l := l)) x y
    (by simpa using Nat.lt_trans hxy hy) (by simpa using hy) hxy
  rw [livePlace_eq (List.getElem?_eq_getElem (Nat.lt_trans hxy hy)), livePlace_eq (List.getElem?_eq_getElem hy)]
  simpa using hlt

theorem exists_livePlace {i : Nat} (hi : i < p.size) (hlive : l.isLive i = true) :
    ∃ x < p'.size, p.livePlace l x = i := by
  obtain ⟨n, hn⟩ := exists_node hi
  have hmem : (n.instr, i) ∈ p.liveInstrs l := mem_liveInstrs.mpr ⟨by rw [getElem?_instrs, hn]; rfl, hlive⟩
  obtain ⟨x, hx⟩ := List.getElem?_of_mem hmem
  refine ⟨x, ?_, livePlace_eq hx⟩
  rw [size_live hp']
  exact (List.getElem?_eq_some_iff.mp hx).1

/-- Nodes that are linked are live together, so that what follows a node still follows it. -/
theorem excerpt_live (hg : p.Grouped) (hg' : p'.Grouped)
    (hlinks : ∀ i j, p.next? i = some j → l.isLive i = l.isLive j) : Excerpt id (p.livePlace l) p l p' := by
  have hnext (x : Nat) (hx : x < p'.size) : p.next? (p.livePlace l x) = (p'.next? x).map (p.livePlace l) := by
    obtain ⟨n', hn'⟩ := exists_node hx
    obtain ⟨hlive, n, hn, e⟩ := exists_live hp' hn'
    have hstep := hg.next?_eq hn
    rw [hg'.next?_eq hn', e]
    by_cases ha : .acc ∈ n.instr.dests
    · rw [if_pos ha] at hstep
      rw [if_pos ha, hstep]
      rw [hlinks _ _ hstep] at hlive
      -- The node behind it is live, so it is at the next place.
      obtain ⟨y, hy, hplace⟩ := exists_livePlace hp' (hg.linked.next_lt_size hstep) hlive
      have hxy : y = x + 1 := by
        rcases Nat.lt_trichotomy y (x + 1) with hlt | rfl | hgt
        · rcases Nat.eq_or_lt_of_le (Nat.le_of_lt_succ hlt) with rfl | hlt
          · omega
          · have := livePlace_lt hp' hlt hx
            omega
        · rfl
        · have h1 := livePlace_lt hp' (show x < x + 1 by omega) (Nat.lt_trans hgt hy)
          have h2 := livePlace_lt hp' hgt hy
          omega
      rw [← hxy, Option.map_some, hplace]
    · rw [if_neg ha] at hstep ⊢
      rw [hstep]
      rfl
  refine ⟨fun x y hxy hy => livePlace_lt hp' hxy hy, fun i hi hlive => exists_livePlace hp' hi hlive, ?_, hnext, ?_⟩
  · intro x n' hn'
    obtain ⟨-, n, hn, e⟩ := exists_live hp' hn'
    exact ⟨n, hn, by rw [e, Instruction.rename_id]⟩
  · intro x hx
    cases hprev : p'.prev? x with
    | none =>
      obtain ⟨n', hn'⟩ := exists_node hx
      obtain ⟨-, n, hn, e⟩ := exists_live hp' hn'
      rw [hg'.prev?_eq hn', e] at hprev
      rw [hg.prev?_eq hn]
      split at hprev
      · cases hprev
      · rename_i ha
        rw [if_neg ha]
        rfl
    | some y =>
      have hback := (hg'.linked.agree y x).mpr hprev
      have hy := hnext y (lt_size_of_next? hback)
      rw [hback] at hy
      exact (hg.linked.agree _ _).mp hy

end Excerpt

end Program

/-! ## Compiling the live part -/

theorem Stream.Decoded.instrs_program (d : Decoded) : d.program.instrs = d.items.flatMap Item.instructions :=
  Program.map_instr_ofItems d.items

namespace Compile

open Program

section LivePart

variable {code : Bytes} {functions : Nat} {d : Stream.Decoded} {l : Liveness}

theorem wellFormed_livePart (hw : ∀ item ∈ d.items, item.WellFormed) :
    ∀ item ∈ (d.livePart l).items, item.WellFormed :=
  fun item hi => hw item ((Stream.sublist_keepFrom _ 0 d.items).subset hi)

/-- The live part holds just the live instructions. -/
theorem instructions_livePart (hl : l.Sound d.program) :
    (d.livePart l).items.flatMap Stream.Item.instructions = (d.program.liveInstrs l).map Prod.fst := by
  rw [liveInstrs, d.instrs_program]
  refine Stream.instructions_keepFrom [] fun before after item k e hk => ?_
  -- A step hands on to the next one, so both are dead or neither is.
  induction k with
  | zero => rfl
  | succ k ih =>
    have hnode := @getElem?_ofItems before after item k _ (List.getElem?_eq_getElem (Nat.lt_of_succ_lt hk))
    have hnext : d.program.next? ((before.flatMap Stream.Item.instructions).length + k) =
        some ((before.flatMap Stream.Item.instructions).length + (k + 1)) := by
      rw [Stream.Decoded.program, show d.items = before ++ item :: after from e, next?_eq hnode]
      simp only [Node.target?, nodeAt, if_pos hk]
      rfl
    rw [← hl.links _ _ hnext]
    exact ih (Nat.lt_of_succ_lt hk)

/-- A dead node makes no call. -/
theorem calls_livePart (hw : ∀ item ∈ d.items, item.WellFormed) (hl : l.Sound d.program) :
    ((d.livePart l).items.flatMap Stream.Item.instructions).filterMap Instruction.call? =
      (d.items.flatMap Stream.Item.instructions).filterMap Instruction.call? := by
  have hformed : d.program.Formed := formed_ofItems hw
  have hdead : ∀ x ∈ d.program.instrs.zipIdx,
      (if l.isLive x.2 = true then x.1.call? else none) = x.1.call? := by
    intro x hx
    rw [List.mem_zipIdx_iff_getElem?, getElem?_instrs] at hx
    obtain ⟨n, hn, e⟩ := Option.map_eq_some_iff.mp hx
    split
    · rfl
    · rename_i hlive
      have hquiet : d.program.noticed x.2 = false := by
        simp [noticed, hn, hl.pure x.2 n hn (by simpa using hlive)]
      have hnone := call?_of_not_noticed hformed hquiet
      rw [hn, Option.bind_some, e] at hnone
      exact hnone.symm
  rw [instructions_livePart hl, liveInstrs, List.filterMap_map, List.filterMap_filter, ← d.instrs_program]
  refine (List.filterMap_congr hdead).trans ?_
  rw [← show Instruction.call? ∘ Prod.fst = fun x : Instruction × Nat => x.1.call? from rfl, ← List.filterMap_map,
    List.zipIdx_map_fst]

/-- The live part is read back for the same host. -/
theorem decode_livePart (hd : Stream.decode code functions = .ok d) (hl : l.Sound d.program) :
    Stream.decode (d.livePart l).encode functions =
      .ok ⟨(d.livePart l).items, d.calls, (d.livePart l).doneFrom 0⟩ := by
  obtain ⟨hn, hw, hc⟩ := Stream.decode_ok hd
  have hw' := wellFormed_livePart (l := l) hw
  have hcalls : Stream.CallTable.visitAll (Array.replicate functions none) (d.livePart l).items = .ok d.calls := by
    rw [Stream.visitAll_eq_recordAll _ hw', calls_livePart hw hl, ← Stream.visitAll_eq_recordAll _ hw, hc]
  rw [Stream.decode_of_agree hw' (Bytes.agree_refl (Stream.Script.length_loose _)), if_neg (Nat.not_lt.mpr hn), hcalls]
  rfl

theorem excerpt_livePart (hw : ∀ item ∈ d.items, item.WellFormed) (hl : l.Sound d.program) :
    Excerpt id (d.program.livePlace l) d.program l (ofItems (d.livePart l).items) :=
  excerpt_live ((map_instr_ofItems _).trans (instructions_livePart hl)) (grouped_ofItems hw)
    (grouped_ofItems (wellFormed_livePart hw)) hl.links

/-- What the live part reads was stored by it. -/
theorem exists_flow_livePart (hw : ∀ item ∈ d.items, item.WellFormed) (hl : l.Sound d.program) :
    ∃ f, Flow.ofProgram (ofItems (d.livePart l).items) = .ok f := by
  have h := excerpt_livePart hw hl
  refine Flow.ofProgram_isOk fun x r hr => ?_
  obtain ⟨n', hn', -⟩ := mem_sourcesOf.mp hr
  have hx := lt_size_of_getElem? hn'
  obtain ⟨hlive, -⟩ := exists_live ((map_instr_ofItems _).trans (instructions_livePart hl)) hn'
  rw [h.sourcesOf hx, funext Source.rename_id, List.map_id'] at hr
  obtain ⟨w, -, -, hw⟩ := h.exists_producer Function.injective_id hl hx hlive hr
  exact ⟨w, hw⟩

end LivePart

theorem exists_flow_of_read {code : Bytes} {functions : UInt32} {settings : Settings} {d : Stream.Decoded}
    {o : Optimized} (hd : Stream.decode code functions.toNat = .ok d) (ho : read code functions settings = .ok o) :
    ∃ f, Flow.ofProgram d.program = .ok f ∧ optimize settings d f = o := by
  simp only [read, hd] at ho
  split at ho
  · cases ho
  · rename_i f hf
    cases ho
    exact ⟨f, hf, rfl⟩

/-- Deleting the dead nodes from a stream instead of marking them gives the same image: whole items go, what is left are
    the live instructions in their order, and it compiles with nothing to drop. -/
theorem compile_live_part {code : Bytes} {functions : UInt32} {settings : Settings} {d : Stream.Decoded} {o : Optimized}
    {c : Compiled} (hd : Stream.decode code functions.toNat = .ok d) (ho : read code functions settings = .ok o)
    (hc : compile code functions settings = .ok c) :
    (d.livePart o.live).items.Sublist d.items ∧
      (d.livePart o.live).items.flatMap Stream.Item.instructions =
        ((d.items.flatMap Stream.Item.instructions).zipIdx.filter fun x => o.live.isLive x.2).map Prod.fst ∧
      ∃ c', compile (d.livePart o.live).encode functions settings = .ok c' ∧ c'.image = c.image ∧
        c'.image.pack = c.image.pack ∧ c'.flags = .clear ∧ c'.stats.removed = 0 ∧
        c'.stats.decoded + c.stats.removed = c.stats.decoded ∧ c'.stats.folded = c.stats.folded ∧
        c'.stats.groups = c.stats.groups ∧ c'.stats.emitted = c.stats.emitted ∧
        c'.stats.inFlight = c.stats.inFlight := by
  have hw := (Stream.decode_ok hd).2.1
  obtain ⟨f, hf, rfl⟩ := exists_flow_of_read hd ho
  have hopt : Optimum settings d (optimize settings d f) := optimum_optimize hw hf
  have hlive := instructions_livePart hopt.sound
  refine ⟨Stream.sublist_keepFrom _ 0 d.items, by rw [hlive, liveInstrs, d.instrs_program], ?_⟩
  obtain ⟨f', hf'⟩ := exists_flow_livePart hw hopt.sound
  have hd' := decode_livePart hd hopt.sound
  have hw' := (Stream.decode_ok hd').2.1
  have hexcerpt := excerpt_livePart hw hopt.sound
  obtain ⟨c', hc', himage, hflags, hstats⟩ :=
    (compile_excerpt hd hf hd' hf' rfl hexcerpt Function.injective_id).2 c hc
  have hremoved : (optimize settings ⟨(d.livePart (optimize settings d f).live).items, d.calls,
      (d.livePart (optimize settings d f).live).doneFrom 0⟩ f').removed = [] := by
    rw [removed_optimize hw' hf', List.filter_eq_nil_iff]
    intro x hx
    have hx := List.mem_range.mp hx
    obtain ⟨n', hn'⟩ := exists_node hx
    rw [isLive_optimize hw hf hw' hf' hexcerpt Function.injective_id hx,
      (exists_live ((map_instr_ofItems _).trans hlive) hn').1]
    simp
  rw [hremoved] at hflags hstats
  obtain ⟨hdecoded, hcount, -⟩ : c.stats.decoded = _ ∧ c.stats.removed = _ ∧ _ := by
    simp only [compile, ho] at hc
    exact stats_of_write hc
  have hsizes := size_live_add_dead ((map_instr_ofItems _).trans hlive)
  rw [← removed_optimize hw hf, ← hcount, ← hopt.handed.size, ← hdecoded] at hsizes
  refine ⟨c', hc', himage, by rw [himage], hflags, ?_⟩
  rw [hstats]
  exact ⟨rfl, hsizes, rfl, rfl, rfl, rfl⟩

theorem compile_live_part_product : ∃ d o c c', Stream.decode productStream 0 = .ok d ∧
    read productStream 0 {} = .ok o ∧ compile productStream 0 {} = .ok c ∧ c.stats.removed = 1 ∧
      (d.livePart o.live).items.length + 1 = d.items.length ∧
        compile (d.livePart o.live).encode 0 {} = .ok c' ∧ c'.image = c.image ∧ c'.flags = .clear ∧
          c'.stats.removed = 0 := by
  obtain ⟨c, hc, hremoved⟩ := exists_of_any_ok (by decide +kernel :
    (compile productStream 0 {}).toOption.any (fun c => c.stats.removed == 1) = true)
  obtain ⟨d, hd, hread⟩ := exists_ok_of_any (by decide +kernel : (Stream.decode productStream 0).toOption.any (fun d =>
    (read productStream 0 {}).toOption.any fun o => (d.livePart o.live).items.length + 1 == d.items.length) = true)
  obtain ⟨o, ho, hlength⟩ := exists_ok_of_any hread
  obtain ⟨-, -, c', hc', himage, -, hflags, hnone, -⟩ := compile_live_part hd ho hc
  exact ⟨d, o, c, c', hd, ho, hc, by simpa using hremoved, by simpa using hlength, hc', himage, hflags, hnone⟩

end Compile

end LaneScript
