/-
  LaneScript.Proofs.Truncation — streams that are cut off.

  What follows an item does not matter to it: an item that is read from some bytes is read
  from all bytes that begin with them (`front_append`). So no item begins another, and
  bytes that end inside an item are refused (`front_cut`). Reading refuses them before it
  comes to the table of calls, which takes whole items only, and every refusal until then
  is one of the bytes (`front_fault`).

  Proved of a stream that can be read and any number of its first bytes: if they end where
  an item ends, or with the closing `done`, or are none, they are read as the nodes that
  lie in them, with the same numbers, offsets and links; anywhere else they are refused
  as malformed.
-/
import LaneScript.Proofs.Format

namespace LaneScript

def Node.within (n : Nat) (x : Node) : Bool := x.offset + x.instr.width ≤ n

namespace Program

/-! ## Where nodes lie -/

theorem mem_stepNodes {base offset : Nat} {fedBy : Option Nat} {is : List Instruction} {x : Node}
    (h : x ∈ stepNodes base offset fedBy is) :
    offset ≤ x.offset ∧ x.offset + x.instr.width ≤ offset + total (is.map Instruction.width) := by
  induction is generalizing base offset fedBy with
  | nil => cases h
  | cons i is ih =>
    rw [List.map_cons, total_cons]
    rcases List.mem_cons.mp h with rfl | h
    · dsimp only
      omega
    · have := ih h
      omega

/-- The nodes of an item lie in its bytes. -/
theorem mem_itemNodes {base offset : Nat} {item : Stream.Item} {x : Node} (h : x ∈ itemNodes base offset item) :
    offset ≤ x.offset ∧ x.offset + x.instr.width ≤ offset + item.width := by
  cases item with
  | plain i => simpa [Stream.Item.width] using mem_stepNodes h
  | group is =>
    have := mem_stepNodes h
    simp only [Stream.Item.width]
    omega

theorem mem_nodesFrom {base offset : Nat} {items : List Stream.Item} {x : Node} (h : x ∈ nodesFrom base offset items) :
    offset ≤ x.offset ∧ x.offset + x.instr.width ≤ offset + total (items.map Stream.Item.width) := by
  induction items generalizing base offset with
  | nil => cases h
  | cons item items ih =>
    rw [List.map_cons, total_cons]
    rcases List.mem_append.mp h with h | h
    · have := mem_itemNodes h
      omega
    · have := ih h
      omega

/-- Where an item ends, the nodes before that place are those of the items before it. -/
theorem filter_within_ofItems (front back : List Stream.Item) :
    (ofItems (front ++ back)).toList.filter (Node.within (total (front.map Stream.Item.width))) =
      (ofItems front).toList := by
  rw [toList_ofItems, toList_ofItems, nodesFrom_append, List.filter_append, List.filter_eq_self.mpr,
    List.filter_eq_nil_iff.mpr, List.append_nil]
  · intro x hx
    have hle := (mem_nodesFrom hx).1
    have hpos := x.instr.width_pos
    simp only [Node.within, decide_eq_true_eq]
    omega
  · intro x hx
    have hle := (mem_nodesFrom hx).2
    simp only [Node.within, decide_eq_true_eq]
    omega

end Program

namespace Stream

/-! ## One item -/

theorem front_append {offset : Nat} {bytes rest : Bytes} {item : Item} (h : front offset bytes = .ok (.item item rest))
    (more : Bytes) : front offset (bytes ++ more) = .ok (.item item (rest ++ more)) := by
  obtain ⟨hw, b, hb, rfl⟩ := front_item_iff.mp h
  exact front_item_iff.mpr ⟨hw, b, hb, List.append_assoc b rest more⟩

theorem steps_fault {offset count pos : Nat} {bytes : Bytes} {e : Error} (h : steps offset count pos bytes = .error e) :
    e.fault = .fatal .bytecode := by
  induction count generalizing pos bytes with
  | zero => cases h
  | succ count ih =>
    rw [steps] at h
    split at h
    · cases h
      rfl
    · rename_i i mid hstep
      split at h
      · cases hm : steps offset count (pos + 1) mid with
        | error e' =>
          rw [hm] at h
          cases h
          exact ih hm
        | ok q =>
          rw [hm] at h
          cases h
      · cases h
        rfl

theorem group_fault {offset : Nat} {bytes : Bytes} {e : Error} (h : group offset bytes = .error e) :
    e.fault = .fatal .bytecode := by
  unfold group at h
  split at h
  · cases h
    rfl
  · rename_i count mid hcount
    split at h
    · cases h
      rfl
    · cases hs : steps offset count.toNat 0 mid with
      | error e' =>
        rw [hs] at h
        cases h
        exact steps_fault hs
      | ok q =>
        rw [hs] at h
        cases h

/-- Bytes that hold no item at their front are malformed; calls are looked at later. -/
theorem front_fault {offset : Nat} {bytes : Bytes} {e : Error} (h : front offset bytes = .error e) :
    e.fault = .fatal .bytecode := by
  cases bytes with
  | nil =>
    cases h
    rfl
  | cons b rest =>
    rw [front] at h
    split at h
    · cases h
      rfl
    · split at h
      · cases h
      · cases h
        rfl
    · cases hg : group offset rest with
      | error e' =>
        rw [hg] at h
        cases h
        exact group_fault hg
      | ok q =>
        rw [hg] at h
        cases h
    · split at h
      · cases h
        rfl
      · cases h

/-- Bytes that end inside an item are refused. -/
theorem front_cut {offset : Nat} {cut more rest : Bytes} {item : Item}
    (h : front offset (cut ++ more) = .ok (.item item rest)) (hlt : rest.length < more.length) :
    ∃ e, front offset cut = .error e ∧ e.fault = .fatal .bytecode := by
  cases hf : front offset cut with
  | error e => exact ⟨e, rfl, front_fault hf⟩
  | ok found =>
    exfalso
    cases found with
    | done =>
      -- Whatever stands behind a `done`, it is not an item.
      rw [front_done_iff.mp hf, List.singleton_append, front, Opcode.ofByte?_byte] at h
      dsimp only at h
      split at h
      · cases h
      · cases h
    | item item' rest' =>
      rw [front_append hf more] at h
      cases h
      rw [List.length_append] at hlt
      omega

/-! ## A run of items -/

def OpensWith (items : List Item) (bytes rest : Bytes) : Prop :=
  Bytes.Opens (items.flatMap Item.loose) (encode items) bytes rest

theorem opensWith_cons {item : Item} {items : List Item} {bytes rest : Bytes} :
    OpensWith (item :: items) bytes rest ↔
      ∃ mid, Bytes.Opens item.loose item.encode bytes mid ∧ OpensWith items mid rest :=
  Bytes.opens_append item.length_loose

theorem length_flatMap_loose (items : List Item) : (encode items).length = (items.flatMap Item.loose).length := by
  have h := Script.length_loose ⟨items, false⟩
  simpa [Script.encode, Script.loose] using h

/-- A cut behind some items leaves them whole. -/
theorem OpensWith.take {items : List Item} {bytes rest : Bytes} (h : OpensWith items bytes rest) {n : Nat}
    (hn : (encode items).length ≤ n) : OpensWith items (bytes.take n) (rest.take (n - (encode items).length)) := by
  obtain ⟨b, hb, rfl⟩ := h
  have hlen : b.length = (encode items).length := by rw [hb.length_eq.1, hb.length_eq.2]
  refine ⟨b, hb, ?_⟩
  rw [List.take_append, List.take_of_length_le (by omega), hlen]

theorem Script.agree_append {front back : List Item} {closed : Bool} {code : Bytes}
    (h : Bytes.Agree (loose ⟨front ++ back, closed⟩) (encode ⟨front ++ back, closed⟩) code) :
    ∃ tail, OpensWith front code tail ∧ Bytes.Agree (loose ⟨back, closed⟩) (encode ⟨back, closed⟩) tail := by
  simp only [loose, encode, Stream.encode, List.flatMap_append, List.append_assoc] at h
  obtain ⟨b, tail, rfl, hb, ht⟩ := (Bytes.agree_append (length_flatMap_loose front)).mp h
  exact ⟨tail, ⟨b, hb, rfl⟩, ht⟩

theorem CallTable.visitAll_append_ok {table table' : CallTable} {front back : List Item}
    (h : table.visitAll (front ++ back) = .ok table') : ∃ mid, table.visitAll front = .ok mid := by
  rw [visitAll, List.foldlM_append] at h
  cases hf : front.foldlM visit table with
  | error e =>
    rw [hf] at h
    cases h
  | ok mid => exact ⟨mid, hf⟩

/-- Items at the front are read one after the other, and reading goes on behind them. -/
theorem readFrom_items {items before : List Item} {rounds offset : Nat} {bytes rest : Bytes} {calls table : CallTable}
    (hr : bytes.length ≤ rounds) (hw : ∀ item ∈ items, item.WellFormed) (ho : OpensWith items bytes rest)
    (hc : calls.visitAll items = .ok table) :
    ∃ rounds', rest.length ≤ rounds' ∧ readFrom rounds offset bytes before calls =
      readFrom rounds' (offset + total (items.map Item.width)) rest (items.reverse ++ before) table := by
  induction items generalizing before rounds offset bytes calls with
  | nil =>
    obtain rfl := Bytes.opens_nil.mp ho
    cases hc
    exact ⟨rounds, hr, rfl⟩
  | cons item items ih =>
    obtain ⟨mid, hitem, hitems⟩ := opensWith_cons.mp ho
    obtain ⟨next, hv, hc⟩ := CallTable.visitAll_cons_ok.mp hc
    have hshort := Item.length_lt_of_opens hitem
    have hfront : front offset bytes = .ok (.item item mid) := front_item_iff.mpr ⟨hw item List.mem_cons_self, hitem⟩
    cases bytes with
    | nil => cases hfront
    | cons b bytes =>
      cases rounds with
      | zero => cases hr
      | succ rounds =>
        have hmore : ∀ x ∈ items, x.WellFormed := fun x hx => hw x (List.mem_cons_of_mem item hx)
        obtain ⟨rounds', hr', hrest⟩ :=
          @ih (item :: before) rounds (offset + item.width) mid next (by omega) hmore hitems hc
        refine ⟨rounds', hr', ?_⟩
        simp only [readFrom, hfront, hv, hrest, List.reverse_cons, List.append_assoc, List.singleton_append,
          List.map_cons, total_cons, Nat.add_assoc]

/-! ## Whole streams -/

/-- The first `n` bytes are those of the first items, none of them cut, or all bytes up to the closing `done`. -/
def Decoded.EndsAt (d : Decoded) (n : Nat) : Prop :=
  (∃ k ≤ d.items.length, (encode (d.items.take k)).length = n) ∨ d.doneAt.map (· + 1) = some n

instance decidableEndsAt (d : Decoded) (n : Nat) : Decidable (d.EndsAt n) := inferInstanceAs (Decidable (_ ∨ _))

structure Decoded.CutAt (d : Decoded) (n : Nat) (d' : Decoded) : Prop where
  nodes : d'.program.toList = d.program.toList.filter (Node.within n)
  doneAt : ∀ offset, d'.doneAt = some offset ↔ d.doneAt = some offset ∧ offset < n

/-- The items that end in the first `n` bytes, and those behind them. -/
theorem exists_split (items : List Item) (n : Nat) : ∃ front back, items = front ++ back ∧ (encode front).length ≤ n ∧
    ∀ item more, back = item :: more → n < (encode front).length + item.encode.length := by
  induction items generalizing n with
  | nil => exact ⟨[], [], rfl, Nat.zero_le n, fun item more e => by cases e⟩
  | cons item items ih =>
    by_cases hlt : n < item.encode.length
    · refine ⟨[], item :: items, rfl, Nat.zero_le n, ?_⟩
      intro item' more e
      cases e
      simpa [encode] using hlt
    · obtain ⟨front, back, rfl, hle, hnext⟩ := ih (n - item.encode.length)
      have hlen : (encode (item :: front)).length = item.encode.length + (encode front).length := by
        rw [encode, List.flatMap_cons, List.length_append, ← encode]
      refine ⟨item :: front, back, rfl, by omega, ?_⟩
      intro item' more e
      have := hnext item' more e
      omega

theorem readFrom_refused {rounds offset : Nat} {bytes : Bytes} {before : List Item} {calls : CallTable} {e : Error}
    (hne : bytes ≠ []) (hr : bytes.length ≤ rounds) (h : front offset bytes = .error e) :
    readFrom rounds offset bytes before calls = .error e := by
  cases bytes with
  | nil => exact absurd rfl hne
  | cons b bytes =>
    cases rounds with
    | zero => cases hr
    | succ rounds => simp only [readFrom, h]

variable {code : Bytes} {functions n : Nat} {d : Decoded}

/-- Bytes that end where an item ends are read as the items up to there. -/
theorem decode_take_items (hd : decode code functions = .ok d) {front back : List Item} (e : d.items = front ++ back) :
    ∃ table, decode (code.take (encode front).length) functions = .ok ⟨front, table, none⟩ := by
  obtain ⟨hn, hw, hc, -, ha⟩ := decode_script_iff.mp hd
  rw [e] at hw hc
  obtain ⟨table, hc⟩ := CallTable.visitAll_append_ok hc
  rw [Decoded.script, e] at ha
  obtain ⟨tail, hopens, -⟩ := Script.agree_append ha
  have hcut := hopens.take (Nat.le_refl (encode front).length)
  rw [Nat.sub_self, List.take_zero] at hcut
  obtain ⟨b, hb, hcode⟩ := hcut
  rw [List.append_nil] at hcode
  refine ⟨table, decode_eq_ok_iff.mpr ⟨hn, fun item hi => hw item (List.mem_append_left back hi), hc, false, rfl, ?_⟩⟩
  rw [hcode]
  simpa [Script.loose, Script.encode] using hb

/-- Bytes that end inside an item are refused as malformed. -/
theorem decode_take_inside (hd : decode code functions = .ok d) {front more : List Item} {item : Item}
    (e : d.items = front ++ item :: more) (hlo : (encode front).length < n)
    (hhi : n < (encode front).length + item.encode.length) :
    ∃ e, decode (code.take n) functions = .error e ∧ e.fault = .fatal .bytecode := by
  obtain ⟨hn, hw, hc, -, ha⟩ := decode_script_iff.mp hd
  rw [e] at hw hc
  obtain ⟨table, hc⟩ := CallTable.visitAll_append_ok hc
  rw [Decoded.script, e] at ha
  obtain ⟨tail, hopens, htail⟩ := Script.agree_append ha
  obtain ⟨rest, hitem, -⟩ := Script.agree_cons_iff.mp htail
  have hfront : Stream.front (0 + total (front.map Item.width)) tail = .ok (.item item rest) :=
    front_item_iff.mpr ⟨hw item (by simp), hitem⟩
  have hlen : tail.length = item.encode.length + rest.length := by
    obtain ⟨b, hb, rfl⟩ := hitem
    rw [List.length_append, hb.length_eq.1, hb.length_eq.2]
  -- What is left of the item is neither nothing nor all of it.
  have hsplit := List.take_append_drop (n - (encode front).length) tail
  rw [← hsplit] at hfront
  obtain ⟨e, he, hfault⟩ := front_cut hfront (by rw [List.length_drop]; omega)
  obtain ⟨rounds, hr, hread⟩ := readFrom_items (Nat.le_refl (code.take n).length)
    (fun x hx => hw x (List.mem_append_left _ hx)) (hopens.take (Nat.le_of_lt hlo)) hc
  refine ⟨e, ?_, hfault⟩
  rw [decode, if_neg (Nat.not_lt.mpr hn), hread]
  refine readFrom_refused ?_ hr he
  intro hnil
  have hzero := congrArg List.length hnil
  rw [List.length_take, List.length_nil] at hzero
  omega

/-- A closing `done` stands behind the items and is the last byte. -/
theorem doneAt_ok (hd : decode code functions = .ok d) {offset : Nat} (h : d.doneAt = some offset) :
    offset = (encode d.items).length ∧ code.length = offset + 1 := by
  obtain ⟨-, -, -, hdone, ha⟩ := decode_script_iff.mp hd
  have hlen : code.length = d.script.encode.length := by rw [ha.length_eq.1, ha.length_eq.2]
  have hclosed : d.script.encode = encode d.items ++ [Opcode.done.byte] := by simp [Script.encode, Decoded.script, h]
  rw [Script.doneFrom, if_pos (by simp [Decoded.script, h]), h, Nat.zero_add] at hdone
  cases hdone
  rw [hlen, hclosed, List.length_append, length_encode]
  exact ⟨rfl, rfl⟩

theorem length_of_open (hd : decode code functions = .ok d) (h : d.doneAt = none) :
    code.length = (encode d.items).length := by
  obtain ⟨-, -, -, -, ha⟩ := decode_script_iff.mp hd
  have hopen : d.script.encode = encode d.items := by simp [Script.encode, Decoded.script, h]
  rw [ha.length_eq.2, ← ha.length_eq.1, hopen]

theorem cutAt_items (hd : decode code functions = .ok d) {front back : List Item} (e : d.items = front ++ back)
    (table : CallTable) : d.CutAt (encode front).length ⟨front, table, none⟩ := by
  refine ⟨?_, fun offset => iff_of_false (by simp) ?_⟩
  · rw [Decoded.program, Decoded.program, e, length_encode]
    exact (Program.filter_within_ofItems front back).symm
  · intro h
    have hdone := (doneAt_ok hd h.1).1
    rw [e, encode, List.flatMap_append, List.length_append, ← encode] at hdone
    omega

theorem cutAt_all (hd : decode code functions = .ok d) {offset : Nat} (h : d.doneAt = some offset) :
    d.CutAt (offset + 1) d := by
  have hdone := (doneAt_ok hd h).1
  refine ⟨(List.filter_eq_self.mpr ?_).symm, ?_⟩
  · intro x hx
    rw [Decoded.program, Program.toList_ofItems] at hx
    have hle := (Program.mem_nodesFrom hx).2
    rw [length_encode] at hdone
    simp only [Node.within, decide_eq_true_eq]
    omega
  · intro offset'
    rw [h]
    simp only [Option.some.injEq]
    omega

/-- The first bytes of a stream that can be read are read as the nodes in them where they end with an item, and refused
    as malformed where they do not. -/
theorem decode_take (hd : decode code functions = .ok d) (hn : n ≤ code.length) :
    (d.EndsAt n → ∃ d', decode (code.take n) functions = .ok d' ∧ d.CutAt n d') ∧
      (¬d.EndsAt n → ∃ e, decode (code.take n) functions = .error e ∧ e.fault = .fatal .bytecode) := by
  constructor
  · intro h
    rcases h with ⟨k, -, rfl⟩ | h
    · have e := (List.take_append_drop k d.items).symm
      obtain ⟨table, hcut⟩ := decode_take_items hd e
      exact ⟨_, hcut, cutAt_items hd e table⟩
    · obtain ⟨offset, hdone, rfl⟩ := Option.map_eq_some_iff.mp h
      refine ⟨d, ?_, cutAt_all hd hdone⟩
      rw [← (doneAt_ok hd hdone).2, List.take_length]
      exact hd
  · intro h
    obtain ⟨front, back, e, hle, hnext⟩ := exists_split d.items n
    have hne : (encode front).length ≠ n := by
      intro hn
      refine h (.inl ⟨front.length, ?_, ?_⟩)
      · rw [e, List.length_append]
        exact Nat.le_add_right _ _
      · rw [e, List.take_left, hn]
    cases back with
    | cons item more => exact decode_take_inside hd e (by omega) (hnext item more rfl)
    | nil =>
      -- All items end in the first `n` bytes, so at most `done` is left.
      exfalso
      rw [List.append_nil] at e
      cases hdone : d.doneAt with
      | none =>
        have hlen := length_of_open hd hdone
        rw [e] at hlen
        omega
      | some offset =>
        obtain ⟨hoffset, hlen⟩ := doneAt_ok hd hdone
        rw [e] at hoffset
        refine h (.inr ?_)
        rw [hdone, Option.map_some, show n = offset + 1 by omega]

/-- A cut behind the group leaves it and nothing else; cuts between its two steps and in the operands of the call are
    refused. -/
theorem decode_take_chain : ∃ d, decode chainStream 2 = .ok d ∧
    (∃ d', decode (chainStream.take 14) 2 = .ok d' ∧ d.CutAt 14 d') ∧
    ∀ n ∈ [8, 20, 23], ∃ e, decode (chainStream.take n) 2 = .error e ∧ e.fault = .fatal .bytecode := by
  have hs : chainScript.Spells chainStream := by
    unfold Script.Spells
    decide
  obtain ⟨d, hd, hy⟩ := Script.decode_of_spells wellFormed_chainScript hs
  refine ⟨d, hd, (decode_take hd (by decide)).1 ?_, ?_⟩
  · rw [Decoded.EndsAt, hy.items, hy.doneAt]
    decide
  · intro n hn
    have hlt : n ≤ chainStream.length ∧ ¬d.EndsAt n := by
      rw [Decoded.EndsAt, hy.items, hy.doneAt]
      revert n
      decide
    exact (decode_take hd hlt.1).2 hlt.2

end Stream

end LaneScript
