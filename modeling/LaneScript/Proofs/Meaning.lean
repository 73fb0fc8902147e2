/-
  LaneScript.Proofs.Meaning — what a list of instructions does.

  A host gives meaning to constants, inputs, lane functions and the answers of index
  generators, id buffers and external functions. A run goes through the instructions
  with a register file and an accumulator, and records an event for every instruction
  that is noticed outside: what it addresses and the values it was given. The answers
  may depend on all earlier events.

  A register holds what was last stored to it (`content_eq`), so a run is determined by
  which stores its sources read. `Follows as bs order names` says that, with its numbers
  read through `names`, the list `bs` does the instructions of `as` in the given order,
  each reading the results of the same instructions, and keeps the order of events. Then
  both record the same events, whatever the registers held at first (`Follows.events_eq`).
-/
import LaneScript.Image
import LaneScript.Proofs.Stores
import Mathlib.Data.List.Forall2

namespace LaneScript

universe u

variable {V : Type u}

structure Event (V : Type u) where
  opcode : Opcode
  payload : Payload
  values : List V

def Instruction.isEvent (i : Instruction) : Bool :=
  match i.category with
  | .output | .call | .indexGenerator | .idBuffer | .scope => true
  | .compute | .input | .control => false

structure Host (V : Type u) where
  constant : UInt16 → V
  /-- The value of a field, by opcode, data set and field. -/
  input : Opcode → UInt16 → UInt16 → V
  execIndex : V
  compute : Compute → List V → V
  /-- The result at a position of an instruction that asks the host, given all events before. -/
  answer : List (Event V) → Event V → Nat → V

structure Names where
  constant : UInt16 → UInt16 := id
  /-- The field that a number stands for in an input data set. -/
  input : UInt16 → UInt16 → UInt16 := fun _ slot => slot
  output : UInt16 → UInt16 := id

/-- The numbers of an image stand for what its tables say; `other` is what a number beyond a table is taken for. -/
def Image.names (m : Image) (other : UInt16) : Names where
  constant k := m.constants.getD k.toNat other
  input d s := m.inputs.getD ((m.inputOffsets.getD (2 * d.toNat) other).toNat + s.toNat) other
  output k := m.outputFields.getD k.toNat other

def Names.payload (names : Names) (i : Instruction) : Payload :=
  match i.opcode, i.payload with
  | .input .., .field d f => .field d (names.input d f)
  | .output _, .field d f => .field d (names.output f)
  | _, other => other

structure Run (V : Type u) where
  registers : UInt16 → V
  acc : V
  events : List (Event V) := []

namespace Run

def read (host : Host V) (names : Names) (s : Run V) : Source → V
  | .reg r => s.registers r
  | .const c => host.constant (names.constant c)
  | .acc => s.acc

def store (s : Run V) (d : Dest) (v : V) : Run V :=
  match d with
  | .reg r => { s with registers := fun x => if x = r then v else s.registers x }
  | .acc => { s with acc := v }

def content (s : Run V) : Dest → V
  | .reg r => s.registers r
  | .acc => s.acc

end Run

/-- The result at a position of an instruction that does what an event says. -/
def Host.result (host : Host V) (history : List (Event V)) (e : Event V) (pos : Nat) : V :=
  match e.opcode, e.payload with
  | .compute f, _ => host.compute f e.values
  | .input .., .field d f => host.input e.opcode d f
  | .acquireIndex, _ | .acquireId, _ | .call, _ => host.answer history e pos
  | _, _ => host.execIndex

namespace Run

def event (host : Host V) (names : Names) (s : Run V) (i : Instruction) : Event V :=
  ⟨i.opcode, names.payload i, i.sources.map (s.read host names)⟩

def step (host : Host V) (names : Names) (s : Run V) (i : Instruction) : Run V :=
  let e := s.event host names i
  let t := i.dests.zipIdx.foldl (fun t (d, pos) => t.store d (host.result s.events e pos)) s
  if i.isEvent then { t with events := s.events ++ [e] } else t

end Run

def Host.events (host : Host V) (names : Names) (is : List Instruction) (registers : UInt16 → V) (acc : V) :
    List (Event V) :=
  (is.foldl (Run.step host names) ⟨registers, acc, []⟩).events

/-! ## What places hold -/

section Content

theorem content_store (s : Run V) (d e : Dest) (v : V) :
    (s.store d v).content e = if e = d then v else s.content e := by
  cases d <;> cases e <;> simp [Run.store, Run.content]

theorem content_storeAll (ds : List Dest) (k : Nat) (f : Nat → V) (s : Run V) (d : Dest) :
    ((ds.zipIdx k).foldl (fun t (d, pos) => t.store d (f pos)) s).content d =
      match lastPos d ds with
      | some pos => f (k + pos)
      | none => s.content d := by
  induction ds generalizing k s with
  | nil => rfl
  | cons x ds ih =>
    rw [List.zipIdx_cons, List.foldl_cons, ih, lastPos]
    cases lastPos d ds with
    | some pos => simp only [Nat.add_right_comm, Nat.add_assoc]
    | none =>
      simp only [content_store]
      by_cases e : x = d
      · simp [e]
      · simp [e, Ne.symm e]

theorem read_of_place (host : Host V) (names : Names) (s : Run V) {x : Source} {d : Dest} (h : x.place? = some d) :
    s.read host names x = s.content d := by
  cases x <;> cases h <;> rfl

theorem events_storeAll (ds : List (Dest × Nat)) (f : Nat → V) (s : Run V) :
    (ds.foldl (fun t (d, pos) => t.store d (f pos)) s).events = s.events := by
  induction ds generalizing s with
  | nil => rfl
  | cons x ds ih =>
    rw [List.foldl_cons, ih]
    obtain ⟨d, pos⟩ := x
    cases d <;> rfl

variable (host : Host V) (names : Names) (is : List Instruction) (s : Run V)

def runTo (n : Nat) : Run V := (is.take n).foldl (Run.step host names) s

def eventOf (n : Nat) (i : Instruction) : Event V := (runTo host names is s n).event host names i

def resultOf (n : Nat) (i : Instruction) (pos : Nat) : V :=
  host.result (runTo host names is s n).events (eventOf host names is s n i) pos

theorem runTo_succ {n : Nat} {i : Instruction} (hi : is[n]? = some i) :
    runTo host names is s (n + 1) = (runTo host names is s n).step host names i := by
  rw [runTo, List.take_add_one, hi, List.foldl_append]
  rfl

def recorded (n : Nat) : Option (Event V) :=
  is[n]?.bind fun i => if i.isEvent then some (eventOf host names is s n i) else none

theorem events_runTo {n : Nat} (hn : n ≤ is.length) :
    (runTo host names is s n).events = s.events ++ (List.range n).filterMap (recorded host names is s) := by
  induction n with
  | zero => simp [runTo]
  | succ n ih =>
    obtain ⟨i, hi⟩ : ∃ i, is[n]? = some i := ⟨_, List.getElem?_eq_getElem hn⟩
    rw [runTo_succ host names is s hi, List.range_succ, List.filterMap_append, ← List.append_assoc, ← ih (by omega)]
    cases he : i.isEvent <;> simp [Run.step, he, recorded, hi, events_storeAll, eventOf]

theorem content_step {n : Nat} {i : Instruction} (hi : is[n]? = some i) (d : Dest) :
    (runTo host names is s (n + 1)).content d =
      match lastPos d i.dests with
      | some pos => resultOf host names is s n i pos
      | none => (runTo host names is s n).content d := by
  have h := content_storeAll i.dests 0
    (host.result (runTo host names is s n).events ((runTo host names is s n).event host names i))
    (runTo host names is s n) d
  simp only [Nat.zero_add] at h
  rw [runTo_succ host names is s hi]
  unfold Run.step
  cases i.isEvent
  · exact h
  · cases d <;> exact h

/-- A place holds the result of the last instruction that stored there. -/
theorem content_eq {n w pos : Nat} {d : Dest} {i : Instruction} (hn : n ≤ is.length) (hw : lastStore is d n = some w)
    (hi : is[w]? = some i) (hp : lastPos d i.dests = some pos) :
    (runTo host names is s n).content d = resultOf host names is s w i pos := by
  induction n with
  | zero => cases hw
  | succ n ih =>
    obtain ⟨x, hx⟩ : ∃ x, is[n]? = some x := ⟨_, List.getElem?_eq_getElem hn⟩
    rw [content_step host names is s hx]
    rw [lastStore] at hw
    split at hw
    · cases hw
      rw [hx] at hi
      cases hi
      rw [hp]
    · rename_i hs
      have hno : lastPos d x.dests = none := lastPos_eq_none_iff.mpr fun hd => hs (storesAt_iff.mpr ⟨x, hx, hd⟩)
      rw [hno]
      exact ih (by omega) hw

end Content

/-! ## Lists that do the same -/

/-- Source `t` of instruction `x` of `bs` stands for source `s` of instruction `i` of `as`. -/
inductive SourceFollows (as bs : List Instruction) (order : List Nat) (names : Names) (i x : Nat) : Source → Source → Prop
  | const {c k : UInt16} : names.constant k = c → SourceFollows as bs order names i x (.const c) (.const k)
  | place {s t : Source} {d e : Dest} {w v pos : Nat} {a b : Instruction} : s.place? = some d → t.place? = some e →
      lastStore as d i = some w → lastStore bs e x = some v → order[v]? = some w → as[w]? = some a → bs[v]? = some b →
      lastPos d a.dests = some pos → lastPos e b.dests = some pos → SourceFollows as bs order names i x s t

/-- The list `bs` does the instructions of `as` in the given order. -/
structure Follows (as bs : List Instruction) (order : List Nat) (names : Names) : Prop where
  length : bs.length = order.length
  same : ∀ (x i : Nat) (b : Instruction), bs[x]? = some b → order[x]? = some i →
    ∃ a, as[i]? = some a ∧ b.opcode = a.opcode ∧ names.payload b = ({} : Names).payload a ∧
      List.Forall₂ (SourceFollows as bs order names i x) a.sources b.sources
  /-- Events keep their order. -/
  events : order.filter (fun i => as[i]?.any Instruction.isEvent) =
    (List.range as.length).filter fun i => as[i]?.any Instruction.isEvent
  distinct : order.Nodup

/-- Only what is recorded asks the host. -/
theorem result_of_not_isEvent (host : Host V) {i : Instruction} (hi : i.isEvent = false) {e : Event V}
    (he : e.opcode = i.opcode) (h h' : List (Event V)) (pos : Nat) : host.result h e pos = host.result h' e pos := by
  obtain ⟨o, q, vs⟩ := e
  simp only at he
  subst he
  unfold Host.result
  cases ho : i.opcode <;> simp only [Instruction.isEvent, Instruction.category, ho, Opcode.category, reduceCtorEq] at hi ⊢
  cases q <;> rfl

theorem recorded_eq_none (host : Host V) (names : Names) (is : List Instruction) (s : Run V) (n : Nat)
    (h : is[n]?.any Instruction.isEvent = false) : recorded host names is s n = none := by
  unfold recorded
  cases hi : is[n]? with
  | none => rfl
  | some i => simp_all

/-- Lists with the same noticed elements also have the same before one of these. -/
theorem filter_eq_of_append {α : Type*} {p : α → Bool} {a : α} {xs xs' ys ys' : List α} (ha : p a = true)
    (hd : (xs ++ a :: xs').Nodup) (h : (xs ++ a :: xs').filter p = (ys ++ a :: ys').filter p) :
    xs.filter p = ys.filter p := by
  obtain ⟨-, hd', hne⟩ := List.nodup_append.mp hd
  rw [List.filter_append, List.filter_append, List.filter_cons_of_pos ha, List.filter_cons_of_pos ha] at h
  refine ((List.append_cons_inj_of_notMem (fun hm => ?_) (fun hm => ?_)).mp h).1
  · exact hne a (List.mem_filter.mp hm).1 a List.mem_cons_self rfl
  · exact (List.nodup_cons.mp hd').1 (List.mem_filter.mp hm).1

theorem eq_take_append_cons {α : Type*} {xs : List α} {n : Nat} {a : α} (h : xs[n]? = some a) :
    xs = xs.take n ++ a :: xs.drop (n + 1) := by
  obtain ⟨hn, rfl⟩ := List.getElem?_eq_some_iff.mp h
  rw [List.getElem_cons_drop, List.take_append_drop]

namespace Follows

variable {as bs : List Instruction} {order : List Nat} {names : Names} (h : Follows as bs order names)
include h

/-- Before an event, both lists have gone through the same events. -/
theorem filter_take {x i : Nat} (hx : order[x]? = some i) (hi : as[i]?.any Instruction.isEvent = true) :
    (order.take x).filter (fun i => as[i]?.any Instruction.isEvent) =
      (List.range i).filter fun i => as[i]?.any Instruction.isEvent := by
  have hlt : i < as.length := by
    by_contra hge
    simp [List.getElem?_eq_none (Nat.le_of_not_lt hge)] at hi
  have h1 := eq_take_append_cons hx
  have h2 := eq_take_append_cons (List.getElem?_range hlt)
  rw [List.take_range, Nat.min_eq_left (Nat.le_of_lt hlt)] at h2
  have hd := h.distinct
  have he := h.events
  rw [h1] at hd
  rw [h1, h2] at he
  exact filter_eq_of_append hi hd he

variable (host : Host V) {s t : Run V} (ht : t.events = [])
include ht

/-- The runs have recorded the same events before position `x`, if they did the same up to there. -/
theorem recorded_take {x : Nat} (hx : x ≤ bs.length)
    (ih : ∀ (y i : Nat) (a b : Instruction), y < x → order[y]? = some i → as[i]? = some a → bs[y]? = some b →
      eventOf host names bs t y b = eventOf host {} as s i a) :
    (runTo host names bs t x).events = (order.take x).filterMap (recorded host {} as s) := by
  rw [events_runTo host names bs t hx, ht, List.nil_append]
  have hlen := h.length
  suffices ∀ n ≤ x, (List.range n).filterMap (recorded host names bs t) =
      (order.take n).filterMap (recorded host {} as s) from this x (Nat.le_refl x)
  intro n hn
  induction n with
  | zero => simp
  | succ n ihn =>
    obtain ⟨b, hb⟩ : ∃ b, bs[n]? = some b := ⟨_, List.getElem?_eq_getElem (by omega)⟩
    obtain ⟨i, hi⟩ : ∃ i, order[n]? = some i := ⟨_, List.getElem?_eq_getElem (by omega)⟩
    obtain ⟨a, ha, hop, -, -⟩ := h.same n i b hb hi
    have he : b.isEvent = a.isEvent := by rw [Instruction.isEvent, Instruction.isEvent, Instruction.category,
      Instruction.category, hop]
    rw [List.range_succ, List.take_add_one, hi, List.filterMap_append, List.filterMap_append, ihn (by omega)]
    have hr : recorded host names bs t n = recorded host {} as s i := by
      simp only [recorded, hb, ha, Option.bind_some, he, ih n i a b (by omega) hi ha hb]
    simp only [Option.toList_some, List.filterMap_cons, List.filterMap_nil, hr]

/-- Instruction by instruction, both runs do the same. -/
theorem eventOf_eq (hs : s.events = []) (x i : Nat) (a b : Instruction) (hi : order[x]? = some i) (ha : as[i]? = some a)
    (hb : bs[x]? = some b) :
    eventOf host names bs t x b = eventOf host {} as s i a ∧
      ∀ pos, resultOf host names bs t x b pos = resultOf host {} as s i a pos := by
  induction x using Nat.strongRecOn generalizing i a b with
  | ind x ih =>
    obtain ⟨a', ha', hop, hpay, hsrc⟩ := h.same x i b hb hi
    rw [ha] at ha'
    cases ha'
    have hx := (List.getElem?_eq_some_iff.mp hb).1
    have hil := (List.getElem?_eq_some_iff.mp ha).1
    -- The values read are results of earlier instructions, or constants.
    have hvals : a.sources.map ((runTo host {} as s i).read host {}) =
        b.sources.map ((runTo host names bs t x).read host names) := by
      rw [← List.forall₂_eq_eq_eq, List.forall₂_map_left_iff, List.forall₂_map_right_iff]
      refine hsrc.imp fun u v huv => ?_
      cases huv with
      | const e =>
        simp only [Run.read, e]
        rfl
      | place hd he hw hv hov hwa hvb hpa hpb =>
        rw [read_of_place host {} _ hd, read_of_place host names _ he,
          content_eq host {} as s (Nat.le_of_lt hil) hw hwa hpa, content_eq host names bs t (Nat.le_of_lt hx) hv hvb hpb]
        exact ((ih _ (lastStore_lt hv) _ _ _ hov hwa hvb).2 _).symm
    have he : eventOf host names bs t x b = eventOf host {} as s i a := by
      simp only [eventOf, Run.event, hop, hpay, hvals]
    refine ⟨he, fun pos => ?_⟩
    rw [resultOf, resultOf, he]
    cases hev : a.isEvent with
    | false => exact result_of_not_isEvent host hev rfl _ _ pos
    | true =>
      have hany : as[i]?.any Instruction.isEvent = true := by rw [ha]; exact hev
      have hnone := recorded_eq_none host {} as s
      rw [h.recorded_take host ht (Nat.le_of_lt hx) fun y j c d hy hj hc hd => (ih y hy j c d hj hc hd).1,
        events_runTo host {} as s (Nat.le_of_lt hil), hs, List.nil_append, ← filterMap_filter_of_none hnone,
        ← filterMap_filter_of_none hnone (List.range i), h.filter_take hi hany]

omit ht in
/-- Both lists record the same events, from any registers. -/
theorem events_eq (registers registers' : UInt16 → V) (acc acc' : V) :
    host.events names bs registers' acc' = host.events {} as registers acc := by
  have hnone := recorded_eq_none host {} as ⟨registers, acc, []⟩
  have full (names : Names) (is : List Instruction) (r : UInt16 → V) (a : V) :
      host.events names is r a = (runTo host names is ⟨r, a, []⟩ is.length).events := by
    rw [Host.events, runTo, List.take_length]
  rw [full, full, h.recorded_take host (s := ⟨registers, acc, []⟩) rfl (Nat.le_refl _)
    fun y j c d _ hj hc hd => (h.eventOf_eq host rfl rfl y j c d hj hc hd).1,
    events_runTo host {} as _ (Nat.le_refl _), List.nil_append, h.length, List.take_length,
    ← filterMap_filter_of_none hnone, ← filterMap_filter_of_none hnone (List.range as.length), h.events]

end Follows

end LaneScript
