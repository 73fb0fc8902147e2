/-
  LaneScript.Proofs.MirrorWrite — mirrored programs are written alike.

  The emission order of a program is the image of that of its mirror, so as many values
  are in flight, the same constants, inputs and outputs are met in the same order, and the
  tables of registers are the same up to the renaming. Every operand then gets the same
  number, and writing either fails with the same error or gives the same image
  (`write_mirror`).
-/
import LaneScript.Proofs.Faults
import LaneScript.Proofs.Mirror

namespace LaneScript

namespace Program.Mirrors

variable {σ : UInt16 → UInt16} {ν : Nat → Nat} {q p q' p' : Program} {l l' : Liveness}

section Order

variable (h : Mirrors σ ν p l p' l') (hp : p.Linked) (hp' : p'.Linked)

include h hp hp'

theorem liveRoots : p.liveRoots l = (p'.liveRoots l').map ν := by
  have split (p : Program) (l : Liveness) : p.liveRoots l =
      ((List.range p.size).filter l.isLive).filter fun i => !(p[i]?.any Node.isFolded) := by
    rw [Program.liveRoots, List.filter_filter]
    exact List.filter_congr fun i _ => Bool.and_comm _ _
  rw [split, split, h.map_live h.live, List.filter_map]
  congr 1
  refine List.filter_congr fun x hx => ?_
  have hx := List.mem_range.mp (List.mem_filter.mp hx).1
  obtain ⟨n, n', hn, hn', -⟩ := h.node hx
  simp [hn, hn', h.isFolded hp hp' hn hn']

theorem chains : p.chains l = (p'.chains l').map (List.map ν) := by
  rw [Program.chains, Program.chains, h.liveRoots hp hp', List.map_map, List.map_map]
  refine List.map_congr_left fun x hx => ?_
  exact h.chain hp hp' ((mem_liveRoots hp').mp hx).1

theorem emissionOrder : p.emissionOrder l = (p'.emissionOrder l').map ν := by
  rw [Program.emissionOrder, Program.emissionOrder, h.chains hp hp', List.map_flatten]

end Order

/-! ## Values in flight -/

section Flights

variable (h : Mirrors σ ν p l p' l') (hσ : Function.Injective σ) (hl' : l'.Sound q') (hh : q.Handed l p)
  (hh' : q'.Handed l' p') {x : Nat}

include h hh hh'

theorem position (hx : x ∈ p'.emissionOrder l') : (positions p.size (p.emissionOrder l)).getD (ν x) 0 =
    (positions p'.size (p'.emissionOrder l')).getD x 0 := by
  have hlt := ((mem_order_iff hh').mp hx).1
  obtain ⟨k, hk⟩ := List.getElem?_of_mem hx
  have hk' : (p.emissionOrder l)[k]? = some (ν x) := by
    rw [h.emissionOrder hh.linked hh'.linked, List.getElem?_map, hk]
    rfl
  rw [getD_positions (nodup_order hh') hk hlt, getD_positions (nodup_order hh) hk' (h.place_lt hlt)]

include hσ hl'

theorem flights (hx : x ∈ p'.emissionOrder l') :
    p.flights l (positions p.size (p.emissionOrder l)) (ν x) =
      p'.flights l' (positions p'.size (p'.emissionOrder l')) x := by
  have hlt := ((mem_order_iff hh').mp hx).1
  obtain ⟨n, n', hn, hn', he⟩ := h.node hlt
  have hends (r : UInt16) :
      ((l.liveReaders (ν x)).filter fun use => Liveness.readsRegister p r use.1 use.2).map
        (fun use => (positions p.size (p.emissionOrder l)).getD use.1 0) =
      ((l'.liveReaders x).filter fun use => Liveness.readsRegister p' (σ r) use.1 use.2).map
        fun use => (positions p'.size (p'.emissionOrder l')).getD use.1 0 := by
    rw [h.readers x hlt, List.filter_map, List.map_map]
    have hfilter : (l'.liveReaders x).filter ((fun use => Liveness.readsRegister p r use.1 use.2) ∘
        fun use => (ν use.1, use.2)) = (l'.liveReaders x).filter fun use =>
          Liveness.readsRegister p' (σ r) use.1 use.2 := by
      refine List.filter_congr fun use hu => ?_
      have hy := (hh'.reader hl' hlt hu).1
      rw [Bool.eq_iff_iff, Function.comp, Liveness.readsRegister_iff, Liveness.readsRegister_iff, h.sourcesOf hy]
      simp [Source.rename_eq_reg hσ]
    rw [hfilter]
    refine List.map_congr_left fun use hu => ?_
    exact h.position hh hh' ((mem_order_iff hh').mpr (hh'.reader hl' hlt (List.mem_filter.mp hu).1))
  simp only [Program.flights, hn, hn']
  refine ((filterMap_zipIdx_map (g := id) ?_ fun k a b ha hb => ?_).trans (List.map_id _)).symm
  · rw [he]
    exact List.length_map _
  · have hb' : b = a.rename σ := by
      rw [he] at hb
      have hb : (n.instr.dests.map (Dest.rename σ))[k]? = some b := hb
      rw [List.getElem?_map, ha] at hb
      exact (Option.some.inj hb).symm
    rw [hb']
    cases a with
    | acc => rfl
    | reg r =>
      simp only [Dest.rename, Option.map_id_fun, id, h.isUnread hlt, hends r, h.position hh hh' hx]

theorem inFlight : p.inFlight l (p.emissionOrder l) = p'.inFlight l' (p'.emissionOrder l') := by
  have hflights : (p.emissionOrder l).flatMap (p.flights l (positions p.size (p.emissionOrder l))) =
      (p'.emissionOrder l').flatMap (p'.flights l' (positions p'.size (p'.emissionOrder l'))) := by
    have hmap := congrArg (fun order => order.flatMap (p.flights l (positions p.size (p.emissionOrder l))))
      (h.emissionOrder hh.linked hh'.linked)
    refine hmap.trans ?_
    rw [List.flatMap_map]
    exact List.flatMap_congr fun x hx => h.flights hσ hl' hh hh' hx
  have hlength : (p.emissionOrder l).length = (p'.emissionOrder l').length := by
    rw [h.emissionOrder hh.linked hh'.linked, List.length_map]
  unfold Program.inFlight
  dsimp only
  rw [hflights, hlength]

end Flights

end Program.Mirrors

/-! ## Mentions -/

def renameKey (σ : UInt16 → UInt16) (k : Nat) : Nat := (σ (UInt16.ofNat k)).toNat

theorem renameKey_toNat (σ : UInt16 → UInt16) (r : UInt16) : renameKey σ r.toNat = (σ r).toNat := by
  rw [renameKey, UInt16.ofNat_toNat]

theorem renameKey_inj {σ : UInt16 → UInt16} (hσ : Function.Injective σ) {a b : Nat} (ha : a < 65536) (hb : b < 65536)
    (e : renameKey σ a = renameKey σ b) : a = b := by
  have e := congrArg UInt16.toNat (hσ (UInt16.toNat_inj.mp e))
  rwa [UInt16.toNat_ofNat_of_lt' ha, UInt16.toNat_ofNat_of_lt' hb] at e

namespace Renumbering

variable {σ : UInt16 → UInt16}

theorem registersIn_rename {l l' : Liveness} {i x : Nat} (hu : ∀ pos, l'.isUnread x pos = l.isUnread i pos)
    (a : Instruction) : registersIn l' x (a.rename σ) = (registersIn l i a).map (renameKey σ) := by
  rw [registersIn, registersIn, List.map_append]
  refine congrArg₂ (· ++ ·) ?_ ?_
  · rw [Instruction.rename, List.filterMap_map, List.map_filterMap]
    refine List.filterMap_congr fun s _ => ?_
    cases s with
    | reg r => exact congrArg some (renameKey_toNat σ r).symm
    | const c => rfl
    | acc => rfl
  · refine filterMap_zipIdx_map (List.length_map _) fun k d e hd he => ?_
    have he : (a.dests.map (Dest.rename σ))[k]? = some e := he
    rw [List.getElem?_map, hd] at he
    cases he
    simp only [hu]
    split
    · rfl
    · cases d with
      | reg r => exact congrArg some (renameKey_toNat σ r).symm
      | acc => rfl

theorem lt_of_mem_registersAt {p : Program} {l : Liveness} {i k : Nat} (h : k ∈ registersAt p l i) : k < 65536 := by
  unfold registersAt at h
  cases hn : p[i]? with
  | none => simp [hn] at h
  | some n =>
    rw [hn] at h
    rcases List.mem_append.mp h with h | h
    · obtain ⟨s, -, hs⟩ := List.mem_filterMap.mp h
      obtain ⟨r, -, rfl⟩ := Option.map_eq_some_iff.mp hs
      exact r.toNat_lt
    · obtain ⟨⟨d, pos⟩, -, hd⟩ := List.mem_filterMap.mp h
      obtain ⟨-, hd⟩ := Option.ite_none_left_eq_some.mp hd
      obtain ⟨r, -, rfl⟩ := Option.map_eq_some_iff.mp hd
      exact r.toNat_lt

theorem constantsIn_rename (a : Instruction) : constantsIn (a.rename σ) = constantsIn a := by
  rw [constantsIn, constantsIn, Instruction.rename, List.filterMap_map]
  refine List.filterMap_congr fun s _ => ?_
  cases s <;> rfl

end Renumbering

/-- Renamed keys get the numbers that the keys get. -/
theorem Numbering.get?_rename {σ : UInt16 → UInt16} (hσ : Function.Injective σ) {ks : List Nat}
    (hks : ∀ k ∈ ks, k < 65536) :
    (({} : Numbering).addAll (ks.map (renameKey σ))).size = (({} : Numbering).addAll ks).size ∧
      ∀ r : UInt16, (({} : Numbering).addAll (ks.map (renameKey σ))).get? (σ r).toNat =
        (({} : Numbering).addAll ks).get? r.toNat := by
  have hv := valid_addAll valid_empty ks
  have hv' := valid_addAll valid_empty (ks.map (renameKey σ))
  have hkeys : (({} : Numbering).addAll (ks.map (renameKey σ))).keys.toList =
      (({} : Numbering).addAll ks).keys.toList.map (renameKey σ) := by
    refine keys_addAll_map valid_empty valid_empty rfl fun a ha b hb e => ?_
    exact renameKey_inj hσ (hks a ha) (hks b hb) e
  constructor
  · rw [size, size, ← Array.length_toList, hkeys, List.length_map, Array.length_toList]
  · intro r
    refine Option.ext fun x => ?_
    rw [hv'.number, hv.number, hkeys, List.getElem?_map, ← renameKey_toNat]
    constructor
    · intro hx
      obtain ⟨k, hk, e⟩ := Option.map_eq_some_iff.mp hx
      have hlt : k < 65536 := by
        rcases mem_keys_addAll valid_empty (List.mem_of_getElem? hk) with hm | hm
        · cases hm
        · exact hks k hm
      rw [hk, renameKey_inj hσ hlt r.toNat_lt e]
    · intro hx
      rw [hx]
      rfl

namespace Renumbering

/-- Tables are finished alike if they differ in registers and slots of nodes only. -/
theorem finish_congr {s t : Scan} (hc : t.constants = s.constants) (hi : t.inputs = s.inputs)
    (ho : t.outputs = s.outputs) (hs : t.slots = s.slots) :
    t.finish = s.finish.map fun r => { r with registers := t.registers, slotOf := t.slotOf } := by
  unfold Scan.finish
  rw [hc, hi, ho, hs]
  dsimp only
  split
  · rfl
  · split
    · rfl
    · split
      · rfl
      · split
        · rfl
        · rfl

end Renumbering

namespace Program.Mirrors

open Renumbering

variable {σ : UInt16 → UInt16} {ν : Nat → Nat} {q p q' p' : Program} {l l' : Liveness}

section Tables

variable (h : Mirrors σ ν p l p' l') {x : Nat} (hx : x < p'.size)

include h hx

theorem registersAt : registersAt p' l' x = (registersAt p l (ν x)).map (renameKey σ) := by
  obtain ⟨n, n', hn, hn', he⟩ := h.node hx
  unfold Renumbering.registersAt
  rw [hn, hn', Option.map_some, Option.map_some, he]
  exact registersIn_rename (h.isUnread hx) n.instr

theorem constantsAt : constantsAt p' x = constantsAt p (ν x) := by
  obtain ⟨n, n', hn, hn', he⟩ := h.node hx
  unfold Renumbering.constantsAt
  rw [hn, hn', Option.map_some, Option.map_some, he, constantsIn_rename]

theorem inputAt : inputAt p' x = inputAt p (ν x) := by
  obtain ⟨n, n', hn, hn', he⟩ := h.node hx
  unfold Renumbering.inputAt
  rw [hn, hn', Option.bind_some, Option.bind_some, he]
  rfl

theorem slotAt : slotAt p' x = slotAt p (ν x) := by
  obtain ⟨n, n', hn, hn', he⟩ := h.node hx
  unfold Renumbering.slotAt
  rw [hn, hn', Option.bind_some, Option.bind_some, he]
  rfl

end Tables

section Numbers

structure Alike (σ : UInt16 → UInt16) (ν : Nat → Nat) (p' : Program) (nodes : List Nat) (r r' : Renumbering) : Prop where
  size : r'.registers.size = r.registers.size
  registers : ∀ old, r'.registers.get? (σ old).toNat = r.registers.get? old.toNat
  slotOf : ∀ x ∈ nodes, ∀ s, Renumbering.slotAt p' x = some s → r'.slotOf.getD x none = r.slotOf.getD (ν x) none
  rest : r' = { r with registers := r'.registers, slotOf := r'.slotOf }

variable (h : Mirrors σ ν p l p' l') (hh : q.Handed l p) (hh' : q'.Handed l' p')

include h hh hh'

theorem slots_take (k : Nat) : ((p.emissionOrder l).take k).filterMap (Renumbering.slotAt p) =
    ((p'.emissionOrder l').take k).filterMap (Renumbering.slotAt p') := by
  rw [h.emissionOrder hh.linked hh'.linked, ← List.map_take, List.filterMap_map]
  refine List.filterMap_congr fun x hx => ?_
  exact (h.slotAt ((mem_order_iff hh').mp (List.mem_of_mem_take hx)).1).symm

theorem inputs : (p.emissionOrder l).filterMap (Renumbering.inputAt p) =
    (p'.emissionOrder l').filterMap (Renumbering.inputAt p') := by
  rw [h.emissionOrder hh.linked hh'.linked, List.filterMap_map]
  exact List.filterMap_congr fun x hx => (h.inputAt ((mem_order_iff hh').mp hx).1).symm

theorem constants : (p.emissionOrder l).flatMap (Renumbering.constantsAt p) =
    (p'.emissionOrder l').flatMap (Renumbering.constantsAt p') := by
  rw [h.emissionOrder hh.linked hh'.linked, List.flatMap_map]
  exact List.flatMap_congr fun x hx => (h.constantsAt ((mem_order_iff hh').mp hx).1).symm

theorem registers : (p'.emissionOrder l').flatMap (Renumbering.registersAt p' l') =
    ((p.emissionOrder l).flatMap (Renumbering.registersAt p l)).map (renameKey σ) := by
  rw [h.emissionOrder hh.linked hh'.linked, List.flatMap_map, List.map_flatMap]
  exact List.flatMap_congr fun x hx => h.registersAt ((mem_order_iff hh').mp hx).1

/-- Numbering fails alike, or gives tables that are alike. -/
theorem ofOrder (hσ : Function.Injective σ) :
    (∀ e, ofOrder p l (p.emissionOrder l) = .error e → ofOrder p' l' (p'.emissionOrder l') = .error e) ∧
    ∀ r, ofOrder p l (p.emissionOrder l) = .ok r →
      ∃ r', ofOrder p' l' (p'.emissionOrder l') = .ok r' ∧ Alike σ ν p' (p'.emissionOrder l') r r' := by
  have hv := visited_all p l (p.emissionOrder l) { slotOf := Array.replicate p.size none }
  have hv' := visited_all p' l' (p'.emissionOrder l') { slotOf := Array.replicate p'.size none }
  have hslots := h.slots_take hh hh' (p.emissionOrder l).length
  have hlength : (p'.emissionOrder l').length = (p.emissionOrder l).length := by
    rw [h.emissionOrder hh.linked hh'.linked, List.length_map]
  rw [List.take_length, ← hlength, List.take_length] at hslots
  have hn {r : Renumbering} (hr : Renumbering.ofOrder p l (p.emissionOrder l) = .ok r) :
      r.registers = ({} : Numbering).addAll ((p.emissionOrder l).flatMap (Renumbering.registersAt p l)) ∧
        r.slotOf = ((p.emissionOrder l).foldl (Scan.visit p l) { slotOf := Array.replicate p.size none }).slotOf :=
    ⟨(numbered_ofOrder hr).registers, (numbered_ofOrder hr).slotOf⟩
  have hslot {x k : Nat} {s : OutputSlot} (hx : (p'.emissionOrder l')[k]? = some x)
      (hs : Renumbering.slotAt p' x = some s) :
      ((p'.emissionOrder l').foldl (Scan.visit p' l') { slotOf := Array.replicate p'.size none }).slotOf.getD x none =
        ((p.emissionOrder l).foldl (Scan.visit p l) { slotOf := Array.replicate p.size none }).slotOf.getD (ν x) none := by
    have hlt := ((mem_order_iff hh').mp (List.mem_of_getElem? hx)).1
    have hx' : (p.emissionOrder l)[k]? = some (ν x) := by
      rw [h.emissionOrder hh.linked hh'.linked, List.getElem?_map, hx]
      rfl
    rw [scan_slotOf (nodup_order hh') hx hs, scan_slotOf (nodup_order hh) hx' (by rw [← h.slotAt hlt]; exact hs),
      h.slots_take hh hh']
  unfold Renumbering.ofOrder at hn ⊢
  generalize (p.emissionOrder l).foldl (Scan.visit p l) { slotOf := Array.replicate p.size none } = scan at *
  generalize (p'.emissionOrder l').foldl (Scan.visit p' l') { slotOf := Array.replicate p'.size none } = scan' at *
  have hfinish : scan'.finish = scan.finish.map fun r =>
      { r with registers := scan'.registers, slotOf := scan'.slotOf } := by
    refine finish_congr ?_ ?_ ?_ (Array.ext' ?_)
    · rw [hv'.constants, hv.constants, h.constants hh hh']
    · rw [hv'.inputs, hv.inputs, h.inputs hh hh']
    · rw [hv'.outputs, hv.outputs, hslots]
    · rw [hv'.slots, hv.slots, hslots]
  refine ⟨fun e he => ?_, fun r hr => ?_⟩
  · rw [hfinish, he]
    rfl
  · obtain ⟨hregs, hslotOf⟩ := hn hr
    have hkeys : ∀ k ∈ (p.emissionOrder l).flatMap (Renumbering.registersAt p l), k < 65536 := by
      intro k hk
      obtain ⟨i, -, hk⟩ := List.mem_flatMap.mp hk
      exact lt_of_mem_registersAt hk
    have hget := Numbering.get?_rename hσ hkeys
    rw [← h.registers hh hh', ← hregs] at hget
    rw [hr] at hfinish
    refine ⟨_, hfinish, ?_, ?_, ?_, rfl⟩
    · rw [hv'.registers]
      exact hget.1
    · rw [hv'.registers]
      exact hget.2
    · intro x hx s hs
      obtain ⟨k, hk⟩ := List.getElem?_of_mem hx
      rw [hslotOf]
      exact hslot hk hs

end Numbers

end Program.Mirrors

/-! ## Writing -/

theorem mapM_map_congr {ε α β γ : Type} {f : β → Except ε γ} {g : α → β} {k : α → Except ε γ} {xs : List α}
    (h : ∀ x ∈ xs, f (g x) = k x) : (xs.map g).mapM f = xs.mapM k := by
  induction xs with
  | nil => rfl
  | cons x xs ih =>
    rw [List.map_cons, List.mapM_cons, List.mapM_cons, h x List.mem_cons_self,
      ih fun y hy => h y (List.mem_cons_of_mem x hy)]

namespace Emission

open Program.Mirrors (Alike)

variable {σ : UInt16 → UInt16} {ν : Nat → Nat} {p' : Program} {nodes : List Nat} {r r' : Renumbering} {l l' : Liveness}

section Operands

variable (ha : Alike σ ν p' nodes r r')

include ha

theorem source_alike (s : Source) : source r' (s.rename σ) = source r s := by
  cases s with
  | reg old => simp only [Source.rename, source, numbered, ha.registers]
  | const old => rw [ha.rest]; rfl
  | acc => rfl

theorem dests_alike {x i : Nat} (hu : ∀ pos, l'.isUnread x pos = l.isUnread i pos) (ds : List Dest) (pos spare : Nat) :
    dests r' l' x pos spare (ds.map (Dest.rename σ)) = dests r l i pos spare ds := by
  induction ds generalizing pos spare with
  | nil => rfl
  | cons d ds ih =>
    cases d with
    | acc => simp only [List.map_cons, Dest.rename, dests, ih]
    | reg old => simp only [List.map_cons, Dest.rename, dests, hu, ih, ha.size, numbered, ha.registers]

theorem payload_alike {x : Nat} (hx : x ∈ nodes) {n' : Node} (hn' : p'[x]? = some n') {a : Instruction}
    (he : n'.instr = a.rename σ) : payload r' x n'.instr = payload r (ν x) a := by
  have hinput (d f : UInt16) (advance : Bool) : r'.inputSlot? d f advance = r.inputSlot? d f advance := by
    rw [ha.rest]
    rfl
  have houtput (e : Element) (ho : a.opcode = .output e) : r'.slotOf.getD x none = r.slotOf.getD (ν x) none := by
    refine ha.slotOf x hx ⟨a.address.1, e.byte, a.address.2⟩ ?_
    simp only [Renumbering.slotAt, hn', he, Option.bind_some, Renumbering.slotIn?, Instruction.rename, ho]
    rfl
  rw [he]
  obtain ⟨opcode, pay, ss, ds⟩ := a
  cases pay with
  | field d f =>
    cases opcode with
    | input e advance => simp only [payload, Instruction.rename, hinput]
    | output e => simp only [payload, Instruction.rename, houtput e rfl]
    | _ => rfl
  | _ => rfl

theorem instruction_alike {x : Nat} (hx : x ∈ nodes) {n' : Node} (hn' : p'[x]? = some n') {a : Instruction}
    (he : n'.instr = a.rename σ) (hu : ∀ pos, l'.isUnread x pos = l.isUnread (ν x) pos) :
    instruction r' l' x n'.instr = instruction r l (ν x) a := by
  have hsources : (a.sources.map (Source.rename σ)).mapM (source r') = a.sources.mapM (source r) :=
    mapM_map_congr fun s _ => source_alike ha s
  have hpayload := payload_alike ha hx hn' he
  unfold instruction
  rw [hpayload, he]
  simp only [Instruction.rename, hsources, dests_alike ha hu]

end Operands

section Chains

open Program

variable {p : Program} (h : Mirrors σ ν p l p' l') (ha : Alike σ ν p' nodes r r')

include h ha

theorem steps_alike {chain : List Nat} (hc : ∀ x ∈ chain, x ∈ nodes ∧ x < p'.size) :
    steps r' l' p' chain = steps r l p (chain.map ν) := by
  induction chain with
  | nil => rfl
  | cons x chain ih =>
    obtain ⟨hx, hlt⟩ := hc x List.mem_cons_self
    obtain ⟨n, n', hn, hn', he⟩ := h.node hlt
    have hi := instruction_alike ha hx hn' he (h.isUnread hlt)
    simp only [List.map_cons, steps, hn, hn', hi, ih fun y hy => hc y (List.mem_cons_of_mem x hy)]

theorem item_alike {chain : List Nat} (hc : ∀ x ∈ chain, x ∈ nodes ∧ x < p'.size) :
    item r' l' p' chain = item r l p (chain.map ν) := by
  rw [item_eq, item_eq, List.length_map, steps_alike h ha hc]

/-- Chains are written alike, but for the places of the nodes. -/
theorem ofChains_alike {chains : List (List Nat)} (hc : ∀ c ∈ chains, ∀ x ∈ c, x ∈ nodes ∧ x < p'.size) :
    ofChains p' l' r' chains = (ofChains p l r (chains.map (List.map ν))).map fun e =>
      { e with placed := placements p'.size chains e.items } := by
  have hitems : (chains.map (List.map ν)).mapM (item r l p) = chains.mapM (item r' l' p') :=
    mapM_map_congr fun c hcm => (item_alike h ha (hc c hcm)).symm
  unfold ofChains
  rw [hitems, ha.size]
  split
  · rfl
  · cases chains.mapM (item r' l' p') with
    | error e => rfl
    | ok items =>
      dsimp only [bind, Except.bind]
      generalize (if items.isEmpty then [] else Stream.encode items ++ [Opcode.done.byte]) = code
      split
      · rfl
      · rfl

end Chains

end Emission

namespace Compile

open Program Renumbering Emission

variable {σ : UInt16 → UInt16} {ν : Nat → Nat} {settings : Settings} {d d' : Stream.Decoded} {o o' : Optimized}

/-- What is said of the calls and the traits of a program is the same. -/
theorem headerOf_alike (h : Mirrors σ ν o.program o.live o'.program o'.live) (ho : Optimum settings d o)
    (ho' : Optimum settings d' o') (hcalls : o'.calls = o.calls) {r r' : Renumbering}
    (ha : Mirrors.Alike σ ν o'.program o'.order r r') : headerOf o' o'.order r' = headerOf o o.order r := by
  have horder : o.order = o'.order.map ν := h.emissionOrder ho.handed.linked ho'.handed.linked
  have hlt {x : Nat} (hx : x ∈ o'.order) : x < o'.program.size := ((mem_order_iff ho'.handed).mp hx).1
  have hcallsOf : callsOf o'.program o'.live o'.order = callsOf o.program o.live o.order := by
    rw [horder, callsOf, callsOf, List.filterMap_map]
    refine List.filterMap_congr fun x hx => ?_
    obtain ⟨n, n', hn, hn', he⟩ := h.node (hlt hx)
    simp only [Function.comp, hn, hn', he, Instruction.rename, h.unread x (hlt hx)]
  have htraitsOf : (o'.order.filterMap (o'.program[·]?)).map traitsOf =
      (o.order.filterMap (o.program[·]?)).map traitsOf := by
    rw [horder, List.filterMap_map, List.map_filterMap, List.map_filterMap]
    refine List.filterMap_congr fun x hx => ?_
    obtain ⟨n, n', hn, hn', he⟩ := h.node (hlt hx)
    have hfolded := h.isFolded ho.handed.linked ho'.handed.linked hn hn'
    simp only [Function.comp, hn, hn', Option.map_some, traitsOf, hfolded, he, Instruction.rename]
  have htraits : traits (o'.order.filterMap (o'.program[·]?)) = traits (o.order.filterMap (o.program[·]?)) := by
    rw [traits, traits, List.flatMap_def, List.flatMap_def, htraitsOf]
  have houtputs : r'.outputs = r.outputs := by rw [ha.rest]
  have hconstants : r'.constants = r.constants := by rw [ha.rest]
  have hstill : r'.stillCount = r.stillCount := by rw [ha.rest]
  simp only [headerOf, hcallsOf, htraits, houtputs, hconstants, hstill, ha.size, hcalls]

theorem imageOf_alike (h : Mirrors σ ν o.program o.live o'.program o'.live) (ho : Optimum settings d o)
    (ho' : Optimum settings d' o') (hcalls : o'.calls = o.calls) {r r' : Renumbering}
    (ha : Mirrors.Alike σ ν o'.program o'.order r r') {e e' : Emission} (he : e'.code = e.code) :
    imageOf o' o'.order r' e' = imageOf o o.order r e := by
  have hconstants : r'.constants = r.constants := by rw [ha.rest]
  have hfields : r'.inputFields = r.inputFields := by rw [ha.rest]
  have hoffsets : r'.inputOffsets = r.inputOffsets := by rw [ha.rest]
  have hslots : r'.slots = r.slots := by rw [ha.rest]
  simp only [imageOf, headerOf_alike h ho ho' hcalls ha, he, hconstants, hfields, hoffsets, hslots, hcalls]

/-- Mirrored programs are written alike: with the same error, or to the same image with the same counts. -/
theorem write_mirror (h : Mirrors σ ν o.program o.live o'.program o'.live) (hσ : Function.Injective σ)
    (ho : Optimum settings d o) (ho' : Optimum settings d' o') (hin : Intact o.program o.live)
    (hin' : Intact o'.program o'.live) (hcalls : o'.calls = o.calls) (hfolds : o'.folds.length = o.folds.length)
    (bytesIn bytesIn' : Nat) :
    (∀ e, write bytesIn settings o = .error e → write bytesIn' settings o' = .error e) ∧
      ∀ c, write bytesIn settings o = .ok c → ∃ c', write bytesIn' settings o' = .ok c' ∧ c'.image = c.image ∧
        c'.flags = (if o'.removed.isEmpty then .clear else .redundantInstruction) ∧
        c'.stats = { c.stats with
          decoded := o'.program.size, removed := o'.removed.length, bytesIn := bytesIn' } := by
  have hlinks := ho.handed.checkLinks ho.sound.flow (short_chains hin)
  have hlinks' := ho'.handed.checkLinks ho'.sound.flow (short_chains hin')
  have hflight : o.program.inFlight o.live o.order = o'.program.inFlight o'.live o'.order :=
    h.inFlight hσ ho'.sound ho.handed ho'.handed
  obtain ⟨herror, hok⟩ := h.ofOrder ho.handed ho'.handed hσ
  have hchains := h.chains ho.handed.linked ho'.handed.linked
  have hnodes : ∀ c ∈ o'.program.chains o'.live, ∀ x ∈ c, x ∈ o'.order ∧ x < o'.program.size := by
    intro c hc x hx
    have hmem : x ∈ o'.order := List.mem_flatten.mpr ⟨c, hc, hx⟩
    exact ⟨hmem, ((mem_order_iff ho'.handed).mp hmem).1⟩
  have horder : (o.program.chains o.live).flatten = o.order := rfl
  have horder' : (o'.program.chains o'.live).flatten = o'.order := rfl
  simp only [write, hlinks, hlinks', horder, horder', hflight]
  by_cases hlimit : settings.registerLimit.toNat < o'.program.inFlight o'.live o'.order
  · simp only [hlimit, if_true]
    exact ⟨fun e he => he, nofun⟩
  · simp only [hlimit, if_false]
    cases hr : Renumbering.ofOrder o.program o.live o.order with
    | error space =>
      have hr' : Renumbering.ofOrder o'.program o'.live o'.order = .error space := herror space hr
      simp only [hr']
      exact ⟨fun e he => he, nofun⟩
    | ok r =>
      obtain ⟨r', hr', ha⟩ := hok r hr
      have hr' : Renumbering.ofOrder o'.program o'.live o'.order = .ok r' := hr'
      have hemission := ofChains_alike h ha hnodes
      rw [← hchains] at hemission
      simp only [hr', hemission]
      cases he : ofChains o.program o.live r (o.program.chains o.live) with
      | error e => exact ⟨fun e he => he, nofun⟩
      | ok e =>
        refine ⟨nofun, fun c hc => ?_⟩
        cases hc
        refine ⟨_, rfl, imageOf_alike h ho ho' hcalls ha rfl, rfl, ?_⟩
        dsimp only
        rw [hfolds]
        rfl

end Compile

end LaneScript
