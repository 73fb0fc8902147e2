/-
  LaneScript.Proofs.Emission — the emitted instructions, operand by operand.

  Renumbering an instruction keeps its opcode, its operand counts and its accumulator
  operands (`Renumbered`). A register that is read or kept gets its number in the table;
  an unread one a number that no register has (`dest_number_lt_iff`). So a well-shaped
  instruction stays well-shaped, and the chain of a root becomes a well-formed item
  (`wellFormed_item`): the emitted stream can be read again.
-/
import LaneScript.Compile.Emission
import LaneScript.Proofs.Order
import LaneScript.Proofs.Renumbering

namespace LaneScript.Emission

theorem bind_ok {ε α β : Type} {x : Except ε α} {f : α → Except ε β} {b : β} (h : x >>= f = .ok b) :
    ∃ a, x = .ok a ∧ f a = .ok b := by
  cases x with
  | error e => cases h
  | ok a => exact ⟨a, rfl, h⟩

variable {r : Renumbering} {l : Liveness} {node : Nat}

/-! ## Operands -/

theorem numbered_ok {n : Numbering} {old new : UInt16} : numbered n old = .ok new ↔ n.get? old.toNat = some new := by
  unfold numbered
  cases n.get? old.toNat <;> simp

inductive SourceTo (r : Renumbering) : Source → Source → Prop
  | reg {old new : UInt16} : r.registers.get? old.toNat = some new → SourceTo r (.reg old) (.reg new)
  | const {old new : UInt16} : r.constants.get? old.toNat = some new → SourceTo r (.const old) (.const new)
  | acc : SourceTo r .acc .acc

theorem source_ok_iff {s t : Source} : source r s = .ok t ↔ SourceTo r s t := by
  constructor
  · intro h
    cases s with
    | reg old =>
      obtain ⟨new, hn, e⟩ := bind_ok h
      cases e
      exact .reg (numbered_ok.mp hn)
    | const old =>
      obtain ⟨new, hn, e⟩ := bind_ok h
      cases e
      exact .const (numbered_ok.mp hn)
    | acc => cases h; exact .acc
  · rintro (h | h | _)
    · simp only [source, numbered_ok.mpr h]
      rfl
    · simp only [source, numbered_ok.mpr h]
      rfl
    · rfl

theorem mapM_ok_iff {ε α β : Type} {f : α → Except ε β} {xs : List α} {ys : List β} :
    xs.mapM f = .ok ys ↔ List.Forall₂ (fun x y => f x = .ok y) xs ys := by
  induction xs generalizing ys with
  | nil =>
    rw [List.mapM_nil, List.forall₂_nil_left_iff]
    exact ⟨fun h => by cases h; rfl, fun h => by rw [h]; rfl⟩
  | cons x xs ih =>
    rw [List.mapM_cons]
    constructor
    · intro h
      obtain ⟨y, hy, h⟩ := bind_ok h
      obtain ⟨zs, hzs, e⟩ := bind_ok h
      cases e
      exact .cons hy (ih.mp hzs)
    · intro h
      cases h with
      | cons hy hys =>
        rw [hy, ih.mpr hys]
        rfl

/-- What becomes of the destinations from position `pos` on, when `spare` unread ones went before. -/
inductive DestsTo (r : Renumbering) (l : Liveness) (node : Nat) : (pos spare : Nat) → List Dest → List Dest → Prop
  | nil {pos spare : Nat} : DestsTo r l node pos spare [] []
  | acc {pos spare : Nat} {ds es : List Dest} : DestsTo r l node (pos + 1) spare ds es →
      DestsTo r l node pos spare (.acc :: ds) (.acc :: es)
  | unread {pos spare : Nat} {old : UInt16} {ds es : List Dest} : l.isUnread node pos = true →
      r.registers.size + spare ≤ 65535 → DestsTo r l node (pos + 1) (spare + 1) ds es →
        DestsTo r l node pos spare (.reg old :: ds) (.reg (UInt16.ofNat (r.registers.size + spare)) :: es)
  | kept {pos spare : Nat} {old new : UInt16} {ds es : List Dest} : l.isUnread node pos = false →
      r.registers.get? old.toNat = some new → DestsTo r l node (pos + 1) spare ds es →
        DestsTo r l node pos spare (.reg old :: ds) (.reg new :: es)

theorem dests_ok_iff {pos spare : Nat} {ds es : List Dest} :
    dests r l node pos spare ds = .ok es ↔ DestsTo r l node pos spare ds es := by
  constructor
  · intro h
    induction ds generalizing pos spare es with
    | nil => cases h; exact .nil
    | cons d ds ih =>
      cases d with
      | acc =>
        obtain ⟨fs, hf, e⟩ := bind_ok h
        cases e
        exact .acc (ih hf)
      | reg old =>
        simp only [dests] at h
        split at h
        · rename_i hu
          split at h
          · cases h
          · rename_i hle
            obtain ⟨fs, hf, e⟩ := bind_ok h
            cases e
            exact .unread hu (by omega) (ih hf)
        · rename_i hu
          obtain ⟨new, hn, h⟩ := bind_ok h
          obtain ⟨fs, hf, e⟩ := bind_ok h
          cases e
          exact .kept (by simpa using hu) (numbered_ok.mp hn) (ih hf)
  · intro h
    induction h with
    | nil => rfl
    | acc _ ih => simp only [dests, ih]; rfl
    | unread hu hle _ ih =>
      simp only [dests, hu, if_true, ih]
      rw [if_neg (by omega)]
      rfl
    | kept hu hn _ ih =>
      simp only [dests, hu, Bool.false_eq_true, if_false, numbered_ok.mpr hn, ih]
      rfl

inductive PayloadTo (r : Renumbering) (node : Nat) (i : Instruction) : Payload → Prop
  | input {e : Element} {advance : Bool} {d f slot : UInt16} : i.opcode = .input e advance → i.payload = .field d f →
      r.inputSlot? d f advance = some slot → PayloadTo r node i (.field d slot)
  | output {e : Element} {d f slot : UInt16} : i.opcode = .output e → i.payload = .field d f →
      r.slotOf.getD node none = some slot → PayloadTo r node i (.field d slot)
  | other : i.category ≠ .input ∧ i.category ≠ .output ∨ i.datasetField? = none → PayloadTo r node i i.payload

theorem payload_ok_iff {i : Instruction} {q : Payload} : payload r node i = .ok q ↔ PayloadTo r node i q := by
  obtain ⟨o, pay, ss, ds⟩ := i
  constructor
  · intro h
    unfold payload at h
    split at h
    · rename_i hp ho
      cases hp
      cases ho
      split at h
      · cases h; exact .input rfl rfl ‹_›
      · cases h
    · rename_i hp ho
      cases hp
      cases ho
      split at h
      · cases h; exact .output rfl rfl ‹_›
      · cases h
    · rename_i hin hout
      cases h
      refine .other ?_
      cases pay with
      | field d f =>
        refine .inl ⟨fun hc => ?_, fun hc => ?_⟩
        · cases o <;> simp only [Instruction.category, Opcode.category, reduceCtorEq] at hc
          exact hin _ _ _ _ rfl rfl
        · cases o <;> simp only [Instruction.category, Opcode.category, reduceCtorEq] at hc
          exact hout _ _ _ rfl rfl
      | none => exact .inr rfl
      | call f => exact .inr rfl
      | scope id => exact .inr rfl
  · intro h
    cases h with
    | input ho hp hs =>
      cases ho
      cases hp
      simp only [payload, hs]
    | output ho hp hs =>
      cases ho
      cases hp
      simp only [payload, hs]
    | other h =>
      unfold payload
      split
      · rename_i hp ho
        cases hp
        cases ho
        simp [Instruction.category, Opcode.category, Instruction.datasetField?] at h
      · rename_i hp ho
        cases hp
        cases ho
        simp [Instruction.category, Opcode.category, Instruction.datasetField?] at h
      · rfl

structure Renumbered (r : Renumbering) (l : Liveness) (node : Nat) (i j : Instruction) : Prop where
  opcode : j.opcode = i.opcode
  sources : List.Forall₂ (SourceTo r) i.sources j.sources
  dests : DestsTo r l node 0 0 i.dests j.dests
  payload : PayloadTo r node i j.payload

theorem instruction_ok_iff {i j : Instruction} : instruction r l node i = .ok j ↔ Renumbered r l node i j := by
  constructor
  · intro h
    obtain ⟨ss, hs, h⟩ := bind_ok h
    obtain ⟨ds, hd, h⟩ := bind_ok h
    obtain ⟨q, hq, e⟩ := bind_ok h
    cases e
    exact ⟨rfl, (mapM_ok_iff.mp hs).imp fun _ _ => source_ok_iff.mp, dests_ok_iff.mp hd, payload_ok_iff.mp hq⟩
  · intro h
    have hs : i.sources.mapM (source r) = .ok j.sources := mapM_ok_iff.mpr (h.sources.imp fun _ _ => source_ok_iff.mpr)
    simp only [instruction, hs, dests_ok_iff.mpr h.dests, payload_ok_iff.mpr h.payload]
    obtain ⟨o, q, ss, ds⟩ := j
    have ho := h.opcode
    simp only at ho
    subst ho
    rfl

theorem count_acc_sources {ss ts : List Source} (h : List.Forall₂ (SourceTo r) ss ts) :
    ts.count .acc = ss.count .acc := by
  induction h with
  | nil => rfl
  | cons h _ ih =>
    rw [List.count_cons, List.count_cons, ih]
    cases h <;> simp

inductive DestAt (r : Renumbering) (l : Liveness) (node k : Nat) : Dest → Dest → Prop
  | acc : DestAt r l node k .acc .acc
  | unread {old new : UInt16} : l.isUnread node k = true → r.registers.size ≤ new.toNat →
      DestAt r l node k (.reg old) (.reg new)
  | kept {old new : UInt16} : l.isUnread node k = false → r.registers.get? old.toNat = some new →
      DestAt r l node k (.reg old) (.reg new)

namespace DestsTo

variable {pos spare : Nat} {ds es : List Dest}

theorem length_eq (h : DestsTo r l node pos spare ds es) : es.length = ds.length := by
  induction h <;> simp_all

theorem mem_acc_iff (h : DestsTo r l node pos spare ds es) : .acc ∈ es ↔ .acc ∈ ds := by
  induction h <;> simp_all

theorem dest_at (h : DestsTo r l node pos spare ds es) {k : Nat} {a : Dest} (hk : ds[k]? = some a) :
    ∃ b, es[k]? = some b ∧ DestAt r l node (pos + k) a b := by
  induction h generalizing k with
  | nil => cases hk
  | acc _ ih =>
    cases k with
    | zero => cases hk; exact ⟨_, rfl, .acc⟩
    | succ k => rw [← Nat.add_assoc, Nat.add_right_comm]; exact ih hk
  | unread hu hle _ ih =>
    cases k with
    | zero =>
      cases hk
      refine ⟨_, rfl, .unread hu ?_⟩
      rw [UInt16.toNat_ofNat_of_lt' (by unfold UInt16.size; omega)]
      omega
    | succ k => rw [← Nat.add_assoc, Nat.add_right_comm]; exact ih hk
  | kept hu hn _ ih =>
    cases k with
    | zero => cases hk; exact ⟨_, rfl, .kept hu hn⟩
    | succ k => rw [← Nat.add_assoc, Nat.add_right_comm]; exact ih hk

theorem kept_getElem? (h : DestsTo r l node pos spare ds es) {k : Nat} {old : UInt16} (hk : ds[k]? = some (.reg old))
    (hu : l.isUnread node (pos + k) = false) :
    ∃ new, r.registers.get? old.toNat = some new ∧ es[k]? = some (.reg new) := by
  obtain ⟨b, hb, hd⟩ := h.dest_at hk
  cases hd with
  | unread hu' =>
    rw [hu] at hu'
    cases hu'
  | kept _ hn => exact ⟨_, hn, hb⟩

/-- Only a destination that is kept gets a number of the table. -/
theorem of_lt_size (h : DestsTo r l node pos spare ds es) {k : Nat} {new : UInt16} (hk : es[k]? = some (.reg new))
    (hlt : new.toNat < r.registers.size) :
    ∃ old, ds[k]? = some (.reg old) ∧ l.isUnread node (pos + k) = false ∧ r.registers.get? old.toNat = some new := by
  have hkl : k < ds.length := by
    rw [← h.length_eq]
    exact (List.getElem?_eq_some_iff.mp hk).1
  have ha := List.getElem?_eq_getElem hkl
  obtain ⟨b, hb, hd⟩ := h.dest_at ha
  rw [hk] at hb
  cases hb
  generalize ds[k] = a at ha hd
  cases hd with
  | unread _ hle => omega
  | kept hu hn => exact ⟨_, ha, hu, hn⟩

theorem reg_singleton {old : UInt16} (h : DestsTo r l node pos spare [.reg old] es) : ∃ new, es = [.reg new] := by
  cases h with
  | unread _ _ h => cases h; exact ⟨_, rfl⟩
  | kept _ _ h => cases h; exact ⟨_, rfl⟩

theorem acc_singleton (h : DestsTo r l node pos spare [.acc] es) : es = [.acc] := by
  cases h with
  | acc h => cases h; rfl

end DestsTo

namespace Renumbered

variable {i j : Instruction}

theorem category (h : Renumbered r l node i j) : j.category = i.category := by
  rw [Instruction.category, Instruction.category, h.opcode]

theorem mem_acc_sources (h : Renumbered r l node i j) : .acc ∈ j.sources ↔ .acc ∈ i.sources := by
  rw [← List.count_pos_iff, ← List.count_pos_iff, count_acc_sources h.sources]

theorem payload_eq (h : Renumbered r l node i j) (hi : i.category ≠ .input) (ho : i.category ≠ .output) :
    j.payload = i.payload := by
  have hp := h.payload
  generalize j.payload = q at hp
  cases hp with
  | input e => simp [Instruction.category, e, Opcode.category] at hi
  | output e => simp [Instruction.category, e, Opcode.category] at ho
  | other => rfl

theorem payload_field (h : Renumbered r l node i j) {d f : UInt16} (hp : i.payload = .field d f) :
    ∃ g, j.payload = .field d g := by
  have hq := h.payload
  generalize j.payload = q at hq
  cases hq with
  | input _ e => rw [hp] at e; cases e; exact ⟨_, rfl⟩
  | output _ e => rw [hp] at e; cases e; exact ⟨_, rfl⟩
  | other => exact ⟨f, hp⟩

/-- Renumbering keeps the shape. -/
theorem wellShaped (h : Renumbered r l node i j) (hs : i.WellShaped) : j.WellShaped := by
  have hlen := h.sources.length_eq
  have hpay := h.payload_eq
  have hfield := fun d f => h.payload_field (d := d) (f := f)
  obtain ⟨ho, hss, hds, -⟩ := h
  obtain ⟨o, q, ss, ds⟩ := i
  obtain ⟨o', q', ss', ds'⟩ := j
  simp only at ho hss hds hlen hpay hfield
  subst ho
  cases o' <;> simp only [Instruction.WellShaped] at hs ⊢ <;>
    simp only [Instruction.category, Opcode.category, ne_eq, reduceCtorEq, not_false_eq_true, forall_true_left] at hpay
  case done | nop | exitScope =>
    obtain ⟨rfl, rfl, rfl⟩ := hs
    cases hss
    cases hds
    exact ⟨hpay, rfl, rfl⟩
  case execIndex =>
    obtain ⟨rfl, rfl, d, rfl⟩ := hs
    cases hss
    exact ⟨hpay, rfl, hds.reg_singleton⟩
  case compute f =>
    obtain ⟨rfl, h2, h3⟩ := hs
    exact ⟨hpay, by omega, by rw [hds.length_eq, h3]⟩
  case input e a =>
    obtain ⟨⟨d, f, rfl⟩, rfl, x, rfl⟩ := hs
    cases hss
    obtain ⟨g, e⟩ := hfield d f rfl
    exact ⟨⟨d, g, e⟩, rfl, hds.reg_singleton⟩
  case output e =>
    obtain ⟨⟨d, f, rfl⟩, ⟨x, s, rfl⟩, rfl⟩ := hs
    obtain ⟨g, e⟩ := hfield d f rfl
    cases hds
    cases hss with
    | cons h1 h2 =>
      cases h2 with
      | cons h2 h3 =>
        cases h3
        cases h1
        exact ⟨⟨d, g, e⟩, ⟨_, _, rfl⟩, rfl⟩
  case acquireIndex =>
    obtain ⟨⟨d, rfl⟩, h2, x, rfl⟩ := hs
    exact ⟨⟨d, hpay⟩, by omega, hds.reg_singleton⟩
  case updateId =>
    obtain ⟨⟨d, rfl⟩, ⟨a, b, rfl⟩, rfl⟩ := hs
    cases hds
    cases hss with
    | cons h1 h2 =>
      cases h2 with
      | cons h2 h3 =>
        cases h3
        cases h1
        cases h2
        exact ⟨⟨d, hpay⟩, ⟨_, _, rfl⟩, rfl⟩
  case acquireId =>
    obtain ⟨⟨d, rfl⟩, rfl, a, b, rfl⟩ := hs
    cases hss
    refine ⟨⟨d, hpay⟩, rfl, ?_⟩
    cases hds with
    | unread _ _ h =>
      obtain ⟨y, rfl⟩ := h.reg_singleton
      exact ⟨_, _, rfl⟩
    | kept _ _ h =>
      obtain ⟨y, rfl⟩ := h.reg_singleton
      exact ⟨_, _, rfl⟩
  case call =>
    obtain ⟨⟨f, rfl⟩, h2, h3, h4⟩ := hs
    exact ⟨⟨f, hpay⟩, by omega, by rw [hds.length_eq]; exact h3, fun ha => h4 (hds.mem_acc_iff.mp ha)⟩
  case enterScope =>
    obtain ⟨⟨id, rfl⟩, rfl, rfl⟩ := hs
    cases hss
    cases hds
    exact ⟨⟨id, hpay⟩, rfl, rfl⟩

theorem fits (h : Renumbered r l node i j) {chained chained' : Bool} (hf : i.Fits chained)
    (ha : .acc ∈ i.sources ∨ .acc ∈ i.dests → chained' = true) : j.Fits chained' := by
  refine ⟨h.wellShaped hf.shaped, fun hm => ?_⟩
  rw [h.mem_acc_sources, h.dests.mem_acc_iff] at hm
  rw [h.category]
  exact ⟨ha hm, (hf.acc hm).2⟩

end Renumbered

/-! ## Chains and items -/

def Emits (p : Program) (l : Liveness) (r : Renumbering) (node : Nat) (j : Instruction) : Prop :=
  ∃ n, p[node]? = some n ∧ Renumbered r l node n.instr j

def itemOf : List Instruction → Stream.Item
  | [i] => .plain i
  | is => .group is

theorem instructions_itemOf (is : List Instruction) : (itemOf is).instructions = is := by
  unfold itemOf
  split <;> rfl

variable {p : Program}

theorem steps_ok_iff {chain : List Nat} {is : List Instruction} :
    steps r l p chain = .ok is ↔ List.Forall₂ (Emits p l r) chain is := by
  induction chain generalizing is with
  | nil =>
    rw [List.forall₂_nil_left_iff]
    exact ⟨fun h => by cases h; rfl, fun h => by rw [h]; rfl⟩
  | cons node chain ih =>
    constructor
    · intro h
      unfold steps at h
      split at h
      · cases h
      · rename_i n hn
        obtain ⟨j, hj, h⟩ := bind_ok h
        obtain ⟨js, hjs, e⟩ := bind_ok h
        cases e
        exact .cons ⟨n, hn, instruction_ok_iff.mp hj⟩ (ih.mp hjs)
    · intro h
      cases h with
      | cons hj hjs =>
        obtain ⟨n, hn, hj⟩ := hj
        simp only [steps, hn, instruction_ok_iff.mpr hj, ih.mpr hjs]
        rfl

theorem item_eq (chain : List Nat) :
    item r l p chain = if 255 < chain.length then .error .chainTooLong
      else match steps r l p chain with
        | .error e => .error e
        | .ok is => .ok (itemOf is) := by
  unfold item
  split
  · rfl
  · cases steps r l p chain with
    | error e => rfl
    | ok is => rcases is with _ | ⟨i, _ | ⟨j, is⟩⟩ <;> rfl

theorem item_ok_iff {chain : List Nat} {it : Stream.Item} :
    item r l p chain = .ok it ↔
      chain.length ≤ 255 ∧ ∃ is, List.Forall₂ (Emits p l r) chain is ∧ it = itemOf is := by
  rw [item_eq]
  split
  · refine iff_of_false nofun fun h => ?_
    omega
  · constructor
    · intro h
      cases his : steps r l p chain with
      | error e => rw [his] at h; cases h
      | ok is =>
        rw [his] at h
        cases h
        exact ⟨by omega, is, steps_ok_iff.mp his, rfl⟩
    · rintro ⟨-, is, his, rfl⟩
      rw [steps_ok_iff.mpr his]

/-- The bytes of a stream of items; one with anything in it ends with `done`. -/
def codeOf (items : List Stream.Item) : Bytes :=
  if items.isEmpty then [] else Stream.encode items ++ [Opcode.done.byte]

theorem ofChains_ok_iff {chains : List (List Nat)} {e : Emission} :
    ofChains p l r chains = .ok e ↔ r.registers.size ≤ 65535 ∧
      List.Forall₂ (fun c it => item r l p c = .ok it) chains e.items ∧ (codeOf e.items).length ≤ 4294967295 ∧
        e = ⟨codeOf e.items, e.items, placements p.size chains e.items⟩ := by
  unfold ofChains
  split
  · refine iff_of_false nofun fun h => ?_
    omega
  · constructor
    · intro h
      obtain ⟨items, hi, h⟩ := bind_ok h
      change (if 4294967295 < (codeOf items).length then _ else _) = _ at h
      split at h
      · cases h
      · rename_i hlen
        cases h
        exact ⟨by omega, mapM_ok_iff.mp hi, Nat.le_of_not_lt hlen, rfl⟩
    · rintro ⟨-, hi, hlen, he⟩
      rw [mapM_ok_iff.mpr hi]
      unfold codeOf at hlen he
      simp only [bind, Except.bind]
      rw [if_neg (Nat.not_lt.mpr hlen), ← he]

/-- Node by node, the emitted instructions are those of the order. -/
theorem forall₂_emits {chains : List (List Nat)} {items : List Stream.Item}
    (h : List.Forall₂ (fun c it => item r l p c = .ok it) chains items) :
    List.Forall₂ (Emits p l r) chains.flatten (items.flatMap Stream.Item.instructions) := by
  induction h with
  | nil => exact .nil
  | cons hi _ ih =>
    obtain ⟨-, is, his, rfl⟩ := item_ok_iff.mp hi
    rw [List.flatten_cons, List.flatMap_cons, instructions_itemOf]
    exact List.rel_append his ih

end LaneScript.Emission

namespace LaneScript.Program

/-- Where a node stands in its chain tells which links it has. -/
theorem links_of_chain {p : Program} (h : p.Linked) {root k a : Nat} (hr : p.next? root = none)
    (hk : (p.chain root)[k]? = some a) :
    ((∃ j, p.next? a = some j) ↔ k + 1 < (p.chain root).length) ∧ ((∃ j, p.prev? a = some j) ↔ k ≠ 0) := by
  have hlt := (List.getElem?_eq_some_iff.mp hk).1
  have linked (k : Nat) (hk : k + 1 < (p.chain root).length) :
      p.next? ((p.chain root).get ⟨k, by omega⟩) = some ((p.chain root).get ⟨k + 1, hk⟩) :=
    List.isChain_iff_getElem.mp (isChain_chain h root) k hk
  obtain ⟨-, rfl⟩ := List.getElem?_eq_some_iff.mp hk
  constructor
  · refine ⟨?_, fun hk => ⟨_, linked k hk⟩⟩
    rintro ⟨j, hj⟩
    by_contra hge
    obtain ⟨front, hf, -⟩ := exists_chain_eq h root
    have e : (p.chain root)[k] = root := by
      have hkl : k = front.length := by
        rw [hf] at hlt hge
        simp only [List.length_append, List.length_singleton] at hlt hge
        omega
      simp [hf, hkl]
    rw [e, hr] at hj
    cases hj
  · constructor
    · rintro ⟨j, hj⟩ rfl
      have hh : (p.chain root).head? = some (p.chain root)[0] := by
        rw [List.head?_eq_getElem?, List.getElem?_eq_getElem hlt]
      rw [prev?_head_chain h hh] at hj
      cases hj
    · intro h0
      obtain ⟨m, rfl⟩ := Nat.exists_eq_succ_of_ne_zero h0
      exact ⟨_, (h.agree _ _).mp (linked m hlt)⟩

end LaneScript.Program

namespace LaneScript.Emission

/-- The chain of a root becomes an item that can be read again. -/
theorem wellFormed_item {q p : Program} {l : Liveness} {r : Renumbering} (h : q.Handed l p) {root : Nat}
    (hr : p.next? root = none) (hlen : (p.chain root).length ≤ 255) {is : List Instruction}
    (he : List.Forall₂ (Emits p l r) (p.chain root) is) : (itemOf is).WellFormed := by
  have hl := he.length_eq
  have emitted {k : Nat} {i : Instruction} (hi : is[k]? = some i) :
      ∃ a n, (p.chain root)[k]? = some a ∧ p[a]? = some n ∧ Renumbered r l a n.instr i := by
    obtain ⟨hk, rfl⟩ := List.getElem?_eq_some_iff.mp hi
    obtain ⟨n, hn, hren⟩ := he.get (by omega : k < (p.chain root).length) hk
    exact ⟨_, n, List.getElem?_eq_getElem (by omega), hn, hren⟩
  -- Accumulator operands of step `k` follow from its place in the chain.
  have acc {k a : Nat} {n : Node} (ha : (p.chain root)[k]? = some a) (hn : p[a]? = some n) :
      (.acc ∈ n.instr.dests ↔ k + 1 < is.length) ∧ (.acc ∈ n.instr.sources ↔ k ≠ 0) := by
    obtain ⟨h1, h2⟩ := Program.links_of_chain h.linked hr ha
    rw [← h.next_iff a n hn, ← h.prev_iff a n hn, h1, h2, hl]
    exact ⟨Iff.rfl, Iff.rfl⟩
  have hpos : is ≠ [] := by
    rintro rfl
    have := Program.self_mem_chain h.linked root
    rw [List.length_nil, List.length_eq_zero_iff] at hl
    rw [hl] at this
    cases this
  match is, hpos with
  | [i], _ =>
    obtain ⟨a, n, ha, hn, hren⟩ := emitted (k := 0) rfl
    obtain ⟨h1, h2⟩ := acc ha hn
    refine ⟨hren.fits (h.formed.fits a n hn) ?_, ?_⟩
    · rintro (hs | hd)
      · exact absurd rfl (h2.mp hs)
      · have := h1.mp hd
        simp at this
    · rw [hren.opcode]
      exact h.formed.running a n hn
  | i :: j :: is, _ =>
    refine ⟨by simp, by rw [← hl]; exact hlen, fun x hx => ?_, Stream.handOn_of_admits fun k x hk => ?_⟩
    · obtain ⟨k, hk⟩ := List.getElem?_of_mem hx
      obtain ⟨a, n, ha, hn, hren⟩ := emitted hk
      obtain ⟨h1, h2⟩ := acc ha hn
      have hfit := h.formed.fits a n hn
      refine ⟨hren.fits hfit fun _ => rfl, ?_⟩
      rw [hren.category]
      refine (hfit.acc ?_).2
      by_cases h0 : k = 0
      · exact .inr (h1.mpr (by simp [h0]))
      · exact .inl (h2.mpr h0)
    · obtain ⟨a, n, ha, hn, hren⟩ := emitted hk
      obtain ⟨h1, h2⟩ := acc ha hn
      have hk := (List.getElem?_eq_some_iff.mp hk).1
      have hsingle := h.formed.single a n hn
      rw [← List.count_pos_iff] at h2
      have hcount := count_acc_sources hren.sources
      have hstore : x.storesAcc = true ↔ k + 1 < (i :: j :: is).length := by
        rw [Instruction.storesAcc, List.contains_iff_mem, hren.dests.mem_acc_iff, h1]
      rw [Nat.zero_add, Stream.Place.of]
      split
      · rename_i h0
        have hc : n.instr.sources.count .acc = 0 := by omega
        rw [Stream.Place.admits, hcount, hc, hstore.mpr (by simp [h0])]
        rfl
      · have hc : n.instr.sources.count .acc = 1 := by omega
        split
        · have hno : x.storesAcc = false := by
            rw [← Bool.not_eq_true, hstore]
            omega
          rw [Stream.Place.admits, hcount, hc, hno]
          rfl
        · rw [Stream.Place.admits, hcount, hc, hstore.mpr (by omega)]
          rfl

end LaneScript.Emission
