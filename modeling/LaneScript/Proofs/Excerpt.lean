/-
  LaneScript.Proofs.Excerpt — an excerpt of a program compiles like the program.

  An excerpt leaves out dead nodes only, and a live node reads from live nodes. So the
  last store that a live node reads from is the same in both (`lastStore_iff`), a node is
  read by the same live nodes (`liveReaders_eq`) and, going backwards through the program,
  is useless in both or in neither (`isLive_eq`). What is dropped mirrors what is dropped,
  and the stages behind it give the same image (`compile_excerpt`).
-/
import LaneScript.Proofs.MirrorWrite

namespace LaneScript

/-! ## What pruning removes -/

namespace Liveness

variable {l : Liveness} {p : Program}

/-- The nodes below `k` that a sweep marks are those that are dead behind it; it leaves the others as they are. -/
theorem removed_sweep {k : Nat} (removed : List Nat) (hk : k ≤ l.dead.size) (hlive : ∀ i < k, l.isLive i = true) :
    let swept := (List.range k).reverse.foldl (visit p) (l, removed)
    swept.2 = (List.range k).filter (fun i => !swept.1.isLive i) ++ removed ∧
      ∀ i, k ≤ i → swept.1.isLive i = l.isLive i := by
  induction k generalizing l removed with
  | zero => exact ⟨rfl, fun i _ => rfl⟩
  | succ k ih =>
    rw [List.range_succ, List.reverse_append, List.reverse_singleton, List.singleton_append, List.foldl_cons]
    have hbelow : ∀ i < k, l.isLive i = true := fun i hi => hlive i (by omega)
    cases hu : l.isUseless p k with
    | true =>
      have hkill (i : Nat) : (l.kill k).isLive i = (decide (i ≠ k) && l.isLive i) := isLive_kill hk
      simp only [visit, hu, if_true]
      obtain ⟨hr, hi⟩ := ih (l := l.kill k) (k :: removed) (by simp [kill]; omega) fun i hi => by
        rw [hkill, hbelow i hi, decide_eq_true (by omega)]
        rfl
      refine ⟨?_, fun i hki => ?_⟩
      · rw [List.filter_append, List.filter_singleton, hi k (Nat.le_refl k), hkill, hr]
        simp
      · rw [hi i (by omega), hkill, decide_eq_true (by omega), Bool.true_and]
    | false =>
      simp only [visit, hu, Bool.false_eq_true, if_false]
      obtain ⟨hr, hi⟩ := ih removed (by omega) hbelow
      refine ⟨?_, fun i hki => hi i (by omega)⟩
      rw [List.filter_append, List.filter_singleton, hi k (Nat.le_refl k), hlive k (by omega), hr]
      simp

/-- Pruning reports the nodes that it leaves dead. -/
theorem removed_prune {f : Flow} (hf : f.Exact p) (hp : p.Linked) : ((ofFlow f p).prune p).2.removed =
    (List.range p.size).filter fun i => !((ofFlow f p).prune p).1.isLive i := by
  have hsize : p.size ≤ (ofFlow f p).dead.size := by simp [ofFlow]
  obtain ⟨hr, -⟩ := removed_sweep (p := p) [] hsize fun i _ => isLive_ofFlow f p i
  rw [List.append_nil] at hr
  refine hr.trans (List.filter_congr fun i _ => ?_)
  rw [prune_fst, isLive, isLive, (redirect_run (sweep_swept hf hp).unread (Nat.le_refl _)).2.1]
  rfl

/-- What reads a node, by the nodes that read. -/
theorem liveReaders_eq (hf : l.flow.Exact p) {w : Nat} (hw : w < p.size) :
    l.liveReaders w = ((List.range p.size).filter l.isLive).flatMap (p.usesAt w) := by
  rw [liveReaders, Array.toList_filter, hf.readers w hw]
  induction List.range p.size with
  | nil => rfl
  | cons i is ih =>
    rw [List.flatMap_cons, List.filter_append, ih]
    cases hi : l.isLive i with
    | true =>
      rw [List.filter_cons_of_pos hi, List.flatMap_cons, List.filter_eq_self.mpr]
      rintro ⟨j, pos⟩ hu
      rw [(Program.mem_usesAt.mp hu).1]
      exact hi
    | false =>
      rw [List.filter_cons_of_neg (by simp [hi]), List.filter_eq_nil_iff.mpr, List.nil_append]
      rintro ⟨j, pos⟩ hu
      rw [(Program.mem_usesAt.mp hu).1]
      simp [hi]

end Liveness

/-! ## Reads and stores -/

namespace Program.Excerpt

variable {σ : UInt16 → UInt16} {ν : Nat → Nat} {p p' : Program} {l l' : Liveness} (h : Excerpt σ ν p l p')
  (hσ : Function.Injective σ) {x y : Nat}

include h hσ

theorem storesAt_eq (hx : x < p'.size) (r : UInt16) :
    storesAt p'.instrs (.reg (σ r)) x = storesAt p.instrs (.reg r) (ν x) := by
  obtain ⟨n, n', hn, hn', he⟩ := h.node hx
  rw [Bool.eq_iff_iff, storesAt_iff, storesAt_iff]
  simp [getElem?_instrs, hn, hn', he, Instruction.mem_dests_rename hσ]

/-- A store that is kept is the last one before a node if it is so in the whole program. -/
theorem lastStore_of (hx : x < p'.size) (hy : y < p'.size) {r : UInt16}
    (hw : lastStore p.instrs (.reg r) (ν y) = some (ν x)) : lastStore p'.instrs (.reg (σ r)) y = some x := by
  obtain ⟨hlt, hs, hbetween⟩ := lastStore_eq_some_iff.mp hw
  refine lastStore_eq_some_iff.mpr ⟨(h.lt_iff hx hy).mp hlt, ?_, fun u hxu huy => ?_⟩
  · rw [h.storesAt_eq hσ hx]
    exact hs
  · have hu := Nat.lt_trans huy hy
    rw [h.storesAt_eq hσ hu]
    exact hbetween (ν u) ((h.lt_iff hx hu).mpr hxu) ((h.lt_iff hu hy).mpr huy)

section Sound

variable (hl : l.Sound p)

include hl

/-- What a live node reads was stored by a node that is kept. -/
theorem exists_producer (hy : y < p'.size) (hlive : l.isLive (ν y) = true) {r : UInt16}
    (hr : .reg r ∈ p.sourcesOf (ν y)) : ∃ x < p'.size, lastStore p.instrs (.reg r) (ν y) = some (ν x) ∧
      lastStore p'.instrs (.reg (σ r)) y = some x := by
  obtain ⟨w, hw⟩ := hl.flow.written (ν y) r hr
  have hwl : l.isLive w = true := hl.reads (ν y) (.reg r) w hr hw hlive
  obtain ⟨x, hx, rfl⟩ := h.covers w (Nat.lt_trans (lastStore_lt hw) (h.place_lt hy)) hwl
  exact ⟨x, hx, hw, h.lastStore_of hσ hx hy hw⟩

theorem producerOf_iff (hx : x < p'.size) (hy : y < p'.size) (hlive : l.isLive (ν y) = true) {s : Source}
    (hs : s ∈ p.sourcesOf (ν y)) :
    p'.producerOf y (s.rename σ) = some x ↔ p.producerOf (ν y) s = some (ν x) := by
  cases s with
  | const c => exact ⟨nofun, nofun⟩
  | acc => exact ⟨nofun, nofun⟩
  | reg r =>
    obtain ⟨w, hw, hlast, hlast'⟩ := h.exists_producer hσ hl hy hlive hs
    simp only [Source.rename, producerOf, hlast, hlast', Option.some.injEq]
    exact (h.inj hw hx).symm

/-- A live node reads another just where its image reads the image. -/
theorem usesAt_eq (hx : x < p'.size) (hy : y < p'.size) (hlive : l.isLive (ν y) = true) :
    p.usesAt (ν x) (ν y) = (p'.usesAt x y).map fun use => (ν use.1, use.2) := by
  have hsources := h.sourcesOf hy
  refine filterMap_zipIdx_map (by rw [hsources, List.length_map]) fun k s' s hs' hs => ?_
  rw [hsources, List.getElem?_map, hs] at hs'
  cases hs'
  have hiff := h.producerOf_iff hσ hl hx hy hlive (List.mem_of_getElem? hs)
  dsimp only
  by_cases e : p.producerOf (ν y) s = some (ν x)
  · rw [if_pos e, if_pos (hiff.mpr e)]
    rfl
  · rw [if_neg e, if_neg fun e' => e (hiff.mp e')]
    rfl

theorem liveReaders_eq (hf' : l'.flow.Exact p') (hlive : ∀ x < p'.size, l'.isLive x = l.isLive (ν x))
    (hx : x < p'.size) : l.liveReaders (ν x) = (l'.liveReaders x).map fun use => (ν use.1, use.2) := by
  rw [Liveness.liveReaders_eq hl.flow (h.place_lt hx), Liveness.liveReaders_eq hf' hx, h.map_live hlive,
    List.flatMap_map, List.map_flatMap]
  refine List.flatMap_congr fun y hy => ?_
  obtain ⟨hy, hly⟩ := List.mem_filter.mp hy
  have hy := List.mem_range.mp hy
  exact h.usesAt_eq hσ hl hx hy (by rw [← hlive y hy]; exact hly)

/-! ## What is dropped -/

theorem mem_readers_iff (hf' : l'.flow.Exact p') (hx : x < p'.size) (hy : y < p'.size) (hlive : l.isLive (ν y) = true)
    {pos : Nat} : (y, pos) ∈ l'.flow.readers.getD x #[] ↔ (ν y, pos) ∈ l.flow.readers.getD (ν x) #[] := by
  rw [hf'.mem_readers hx, hl.flow.mem_readers (h.place_lt hx), h.sourcesOf hy]
  constructor
  · intro hr
    obtain ⟨s', hs', hw⟩ := hr
    rw [List.getElem?_map] at hs'
    obtain ⟨s, hs, rfl⟩ := Option.map_eq_some_iff.mp hs'
    exact ⟨s, hs, (h.producerOf_iff hσ hl hx hy hlive (List.mem_of_getElem? hs)).mp hw⟩
  · intro hr
    obtain ⟨s, hs, hw⟩ := hr
    refine ⟨s.rename σ, by rw [List.getElem?_map, hs]; rfl, ?_⟩
    exact (h.producerOf_iff hσ hl hx hy hlive (List.mem_of_getElem? hs)).mpr hw

/-- Whether a node is useless depends on the live nodes behind it, and none of those is missing. -/
theorem isUseless_iff (hf' : l'.flow.Exact p') (hp' : p'.Linked) (hx : x < p'.size)
    (hlive : ∀ y < p'.size, x < y → l'.isLive y = l.isLive (ν y)) :
    l'.isUseless p' x = true ↔ l.isUseless p (ν x) = true := by
  obtain ⟨n, n', hn, hn', he⟩ := h.node hx
  have hpure : n'.instr.isPure = n.instr.isPure := by rw [he]; rfl
  rw [Liveness.isUseless_iff, Liveness.isUseless_iff]
  constructor
  · intro hu
    obtain ⟨m, hm, hp, hr, hnext⟩ := hu
    rw [hn'] at hm
    cases hm
    refine ⟨n, hn, by rw [← hpure]; exact hp, fun j pos hj => ?_, fun j hj => ?_⟩
    · by_contra hlj
      have hlj : l.isLive j = true := by simpa using hlj
      obtain ⟨y, hy, rfl⟩ := h.covers j (hl.flow.reader_lt_size (h.place_lt hx) hj) hlj
      have hj' := (h.mem_readers_iff hσ hl hf' hx hy hlj).mpr hj
      have hdead := hr y pos hj'
      rw [hlive y hy (Liveness.lt_of_mem_readers hf' hx hj'), hlj] at hdead
      cases hdead
    · rw [h.next x hx] at hj
      obtain ⟨y, hy, rfl⟩ := Option.map_eq_some_iff.mp hj
      rw [← hlive y (hp'.next_lt_size hy) (hp'.forward x y hy)]
      exact hnext y hy
  · intro hu
    obtain ⟨m, hm, hp, hr, hnext⟩ := hu
    rw [hn] at hm
    cases hm
    refine ⟨n', hn', by rw [hpure]; exact hp, fun y pos hy => ?_, fun y hy => ?_⟩
    · have hsize := hf'.reader_lt_size hx hy
      rw [hlive y hsize (Liveness.lt_of_mem_readers hf' hx hy)]
      by_contra hly
      have hly : l.isLive (ν y) = true := by simpa using hly
      rw [hr (ν y) pos ((h.mem_readers_iff hσ hl hf' hx hsize hly).mp hy)] at hly
      cases hly
    · rw [hlive y (hp'.next_lt_size hy) (hp'.forward x y hy)]
      exact hnext (ν y) (by rw [h.next x hx, hy]; rfl)

/-- Going backwards, the same nodes turn out dead. -/
theorem isLive_eq (hexact : l.Exact p) (hexact' : l'.Exact p') (hp' : p'.Linked) (hx : x < p'.size) :
    l'.isLive x = l.isLive (ν x) := by
  induction hk : p'.size - x using Nat.strongRecOn generalizing x with
  | ind k ih =>
    have huseless := h.isUseless_iff hσ hl hexact'.flow hp' hx fun y hy hxy => ih (p'.size - y) (by omega) hy rfl
    rw [hexact'.live x hx, hexact.live (ν x) (h.place_lt hx), Bool.eq_iff_iff.mpr huseless]

/-- The same results of calls go unread. -/
theorem unreadAt_eq (hf' : l'.flow.Exact p') (hlive : ∀ x < p'.size, l'.isLive x = l.isLive (ν x)) (hx : x < p'.size) :
    l'.unreadAt p' x = l.unreadAt p (ν x) := by
  obtain ⟨n, n', hn, hn', he⟩ := h.node hx
  have hany (r : UInt16) : ((l.liveReaders (ν x)).any fun use => Liveness.readsRegister p r use.1 use.2) =
      (l'.liveReaders x).any fun use => Liveness.readsRegister p' (σ r) use.1 use.2 := by
    rw [h.liveReaders_eq hσ hl hf' hlive hx, List.any_map]
    refine Bool.eq_iff_iff.mpr ?_
    rw [List.any_eq_true, List.any_eq_true]
    refine exists_congr fun use => and_congr_right fun hu => ?_
    have hsize := hf'.reader_lt_size hx (Liveness.mem_liveReaders.mp hu).1
    rw [Function.comp, Liveness.readsRegister_iff, Liveness.readsRegister_iff, h.sourcesOf hsize]
    simp [Source.rename_eq_reg hσ]
  simp only [Liveness.unreadAt, hn, hn', he, Instruction.category_rename]
  split
  · simp only [Liveness.unreadDests, hany]
    refine (filterMap_zipIdx_map (g := id) (List.length_map _) fun k e e' hk hk' => ?_).trans (List.map_id _)
    have hk' : (n.instr.dests.map (Dest.rename σ))[k]? = some e' := hk'
    rw [List.getElem?_map, hk] at hk'
    cases hk'
    cases e with
    | reg r => simp [Dest.rename]
    | acc => rfl
  · rfl

theorem mirrors (hl' : l'.Sound p') (hp' : p'.Linked)
    (hdrop : l.Exact p ∧ l'.Exact p' ∨ l = .ofFlow l.flow p ∧ l' = .ofFlow l'.flow p') : Mirrors σ ν p l p' l' := by
  have hlive : ∀ x < p'.size, l'.isLive x = l.isLive (ν x) := by
    intro x hx
    rcases hdrop with ⟨he, he'⟩ | ⟨he, he'⟩
    · exact h.isLive_eq hσ hl he he' hp' hx
    · rw [he, he', Liveness.isLive_ofFlow, Liveness.isLive_ofFlow]
  refine ⟨h, hlive, fun x hx => h.liveReaders_eq hσ hl hl'.flow hlive hx, fun x hx => ?_⟩
  rcases hdrop with ⟨he, he'⟩ | ⟨he, he'⟩
  · rw [he.unread, he'.unread, h.unreadAt_eq hσ hl hl'.flow hlive hx]
  · rw [he, he', Liveness.unread_ofFlow, Liveness.unread_ofFlow]

end Sound

end Program.Excerpt

/-! ## Compiling an excerpt -/

namespace Compile

open Program

variable {σ : UInt16 → UInt16} {ν : Nat → Nat} {code code' : Bytes} {functions : UInt32} {settings : Settings}
  {d d' : Stream.Decoded} {f f' : Flow}

theorem optimize_eq (settings : Settings) (d : Stream.Decoded) (f : Flow) : optimize settings d f =
    let dropped := drop settings d.program (Liveness.ofFlow f d.program)
    let folding := d.program.fold dropped.1 settings.groupLimit.toNat {}
    if settings.fold then ⟨folding.program, dropped.1, d.calls, dropped.2, folding.folds.reverse⟩
    else ⟨d.program, dropped.1, d.calls, dropped.2, []⟩ := rfl

/-- The nodes that are reported dropped are those that are dead. -/
theorem removed_optimize (hw : ∀ item ∈ d.items, item.WellFormed) (hf : Flow.ofProgram d.program = .ok f) :
    (optimize settings d f).removed =
      (List.range d.program.size).filter fun i => !(optimize settings d f).live.isLive i := by
  have hdrop : (drop settings d.program (Liveness.ofFlow f d.program)).2 = (List.range d.program.size).filter
      fun i => !(drop settings d.program (Liveness.ofFlow f d.program)).1.isLive i := by
    unfold drop
    by_cases hp : settings.prune = true
    · simp only [hp, if_true]
      exact Liveness.removed_prune (Flow.exact_ofProgram hf) (grouped_ofItems hw).linked
    · simp [hp, Liveness.isLive_ofFlow]
  rw [optimize_eq]
  by_cases hfold : settings.fold = true
  · simp only [hfold, if_true]
    exact hdrop
  · simp only [hfold]
    exact hdrop

theorem mirrors_optimize (hw : ∀ item ∈ d.items, item.WellFormed) (hf : Flow.ofProgram d.program = .ok f)
    (hw' : ∀ item ∈ d'.items, item.WellFormed) (hf' : Flow.ofProgram d'.program = .ok f')
    (h : Excerpt σ ν d.program (optimize settings d f).live d'.program) (hσ : Function.Injective σ) :
    Mirrors σ ν (optimize settings d f).program (optimize settings d f).live (optimize settings d' f').program
        (optimize settings d' f').live ∧
      (optimize settings d' f').folds.length = (optimize settings d f).folds.length := by
  have ho : Optimum settings d (optimize settings d f) := optimum_optimize hw hf
  have ho' : Optimum settings d' (optimize settings d' f') := optimum_optimize hw' hf'
  have hg : d.program.Grouped := grouped_ofItems hw
  have hg' : d'.program.Grouped := grouped_ofItems hw'
  have hdropped : Mirrors σ ν d.program (optimize settings d f).live d'.program (optimize settings d' f').live := by
    refine h.mirrors hσ ho.sound ho'.sound hg'.linked ?_
    cases hp : settings.prune with
    | true => exact .inl ⟨ho.pruned hp, ho'.pruned hp⟩
    | false => exact .inr ⟨ho.unpruned hp, ho'.unpruned hp⟩
  have hs := ho.sound
  have hs' := ho'.sound
  by_cases hfold : settings.fold = true
  · simp only [optimize_eq, hfold, if_true] at hdropped hs hs' ⊢
    have hself := handed_self hg (formed_ofItems hw) hs
    have hself' := handed_self hg' (formed_ofItems hw') hs'
    have hm := hdropped.fold hσ hs hself hs' hself' settings.groupLimit.toNat {}
    refine ⟨hm.program, ?_⟩
    rw [hm.folds, List.length_reverse, List.length_reverse, List.length_map]
  · simp only [optimize_eq, hfold] at hdropped ⊢
    exact ⟨hdropped, rfl⟩

/-- The nodes that are kept are live or dead as they were. -/
theorem isLive_optimize (hw : ∀ item ∈ d.items, item.WellFormed) (hf : Flow.ofProgram d.program = .ok f)
    (hw' : ∀ item ∈ d'.items, item.WellFormed) (hf' : Flow.ofProgram d'.program = .ok f')
    (h : Excerpt σ ν d.program (optimize settings d f).live d'.program) (hσ : Function.Injective σ) {x : Nat}
    (hx : x < d'.program.size) :
    (optimize settings d' f').live.isLive x = (optimize settings d f).live.isLive (ν x) := by
  have ho' : Optimum settings d' (optimize settings d' f') := optimum_optimize hw' hf'
  rw [← ho'.handed.size] at hx
  exact (mirrors_optimize hw hf hw' hf' h hσ).1.live x hx

/-- The counts that a compile takes over from the stages before it. -/
theorem stats_of_write {bytesIn : Nat} {settings : Settings} {o : Optimized} {c : Compiled}
    (h : write bytesIn settings o = .ok c) :
    c.stats.decoded = o.program.size ∧ c.stats.removed = o.removed.length ∧ c.stats.bytesIn = bytesIn := by
  unfold write at h
  split at h
  · cases h
  · simp only at h
    split at h
    · cases h
    · split at h
      · cases h
      · split at h
        · cases h
        · cases h
          exact ⟨rfl, rfl, rfl⟩

/-- Without nodes that are dead in it, and with its registers renamed, a stream compiles to the same image, or fails
    for the same reason. -/
theorem compile_excerpt (hd : Stream.decode code functions.toNat = .ok d) (hf : Flow.ofProgram d.program = .ok f)
    (hd' : Stream.decode code' functions.toNat = .ok d') (hf' : Flow.ofProgram d'.program = .ok f')
    (hcalls : d'.calls = d.calls) (h : Excerpt σ ν d.program (optimize settings d f).live d'.program)
    (hσ : Function.Injective σ) :
    (∀ e, compile code functions settings = .error e → compile code' functions settings = .error e) ∧
      ∀ c, compile code functions settings = .ok c → ∃ c', compile code' functions settings = .ok c' ∧
        c'.image = c.image ∧
        c'.flags = (if (optimize settings d' f').removed.isEmpty then .clear else .redundantInstruction) ∧
        c'.stats = { c.stats with
          decoded := d'.program.size
          removed := (optimize settings d' f').removed.length
          bytesIn := code'.length } := by
  have hw := (Stream.decode_ok hd).2.1
  have hw' := (Stream.decode_ok hd').2.1
  obtain ⟨hm, hfolds⟩ := mirrors_optimize hw hf hw' hf' h hσ
  have ho' : Optimum settings d' (optimize settings d' f') := optimum_optimize hw' hf'
  have hwrite := write_mirror hm hσ (optimum_optimize hw hf) ho' (intact_optimize hd hf (reach_optimize settings d f))
    (intact_optimize hd' hf' (reach_optimize settings d' f')) ?_ hfolds code.length code'.length
  · rw [← ho'.handed.size]
    simp only [compile, read, hd, hd', hf, hf']
    exact hwrite
  · simp only [optimize_eq]
    split <;> exact hcalls

end Compile

end LaneScript
