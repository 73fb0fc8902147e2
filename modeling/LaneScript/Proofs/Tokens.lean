/-
  LaneScript.Proofs.Tokens — the operands of a line, token by token.

  The operands of an instruction are a list of tokens: marks such as `r`, `ds` or a comma,
  and numbers. A text `Spells` the tokens when it consists of them in their order, with
  blanks in front of any of them and at the end, and with any number of zeros in front of
  a number. Each reader takes the tokens of what it reads off the front of a text and
  nothing else (`Leads`), so an instruction is read from a text just where the text
  spells its operands (`instruction_eq_ok_iff`).
-/
import LaneScript.Proofs.Operands

namespace LaneScript

/-! ## The tokens of an instruction -/

namespace Assembly

inductive Token where
  | mark (text : String)
  | number (n : UInt16)
  deriving DecidableEq, Repr

def listed : List (List Token) → List Token
  | [] => []
  | x :: xs => x ++ xs.flatMap (.mark "," :: ·)

end Assembly

open Assembly (Token listed)

def Source.tokens : Source → List Token
  | .reg r => [.mark "r", .number r]
  | .const c => [.mark "c", .number c]
  | .acc => [.mark "acc"]

def Dest.tokens : Dest → List Token
  | .reg r => [.mark "r", .number r]
  | .acc => [.mark "acc"]

def Instruction.operandTokens (i : Instruction) : List Token :=
  let sources := i.sources.map Source.tokens
  let dests := i.dests.map Dest.tokens
  let dataset := [.mark "ds", .number i.address.1]
  let field := [.mark ".", .number i.address.2]
  match i.opcode with
  | .compute _ => listed (dests ++ sources)
  | .input .. => listed (dests ++ [dataset ++ field])
  | .output _ =>
    dataset ++ .mark "[" :: listed (sources.take 1) ++ .mark "]" :: field ++ .mark "," :: listed (sources.drop 1)
  | .acquireIndex => listed (dests ++ dataset :: sources)
  | .updateId => listed (dataset :: sources)
  | .acquireId => listed (dests ++ [dataset])
  | .call =>
    let results := if dests.isEmpty then [] else .mark "->" :: listed dests
    .mark "f" :: .number i.function :: .mark "(" :: listed sources ++ .mark ")" :: results
  | .enterScope =>
    match i.payload with
    | .scope id => [.number id]
    | _ => []
  | .execIndex => listed dests
  | .exitScope | .nop | .done | .fused => []

namespace Assembly

/-! ## Tokens at the front of a text -/

def Blanks (text : List Char) : Prop := ∀ c ∈ text, Text.isBlank c = true

/-- Blanks, the token and the rest. A number goes on as long as digits follow. -/
def Token.Opens : Token → (text rest : List Char) → Prop
  | .mark m, text, rest => ∃ blanks, Blanks blanks ∧ text = blanks ++ (m.toList ++ rest)
  | .number n, text, rest => ∃ blanks zeros, Blanks blanks ∧ Stops rest ∧
      text = blanks ++ (List.replicate zeros '0' ++ Numeral.decimal n.toNat ++ rest)

def Leads : List Token → (text rest : List Char) → Prop
  | [], text, rest => text = rest
  | t :: ts, text, rest => ∃ mid, t.Opens text mid ∧ Leads ts mid rest

def Spells (ts : List Token) (text : List Char) : Prop := ∃ rest, Leads ts text rest ∧ Blanks rest

variable {text rest : List Char} {ts us : List Token}

theorem leads_append : Leads (ts ++ us) text rest ↔ ∃ mid, Leads ts text mid ∧ Leads us mid rest := by
  induction ts generalizing text with
  | nil => simp [Leads]
  | cons t ts ih =>
    simp only [List.cons_append, Leads, ih]
    apply Iff.intro
    · intro h
      obtain ⟨a, ha, b, hb, hc⟩ := h
      exact ⟨b, ⟨a, ha, hb⟩, hc⟩
    · intro h
      obtain ⟨b, ⟨a, ha, hb⟩, hc⟩ := h
      exact ⟨a, ha, b, hb, hc⟩

theorem trimStart_append {blanks : List Char} (h : Blanks blanks) (text : List Char) :
    Text.trimStart (blanks ++ text) = Text.trimStart text := List.dropWhile_append_of_pos h

theorem exists_blanks (text : List Char) : ∃ blanks, Blanks blanks ∧ text = blanks ++ Text.trimStart text :=
  ⟨text.takeWhile Text.isBlank, fun _ hc => List.mem_takeWhile_imp hc, List.takeWhile_append_dropWhile.symm⟩

theorem blanks_iff : Blanks text ↔ Text.trimStart text = [] := List.dropWhile_eq_nil_iff.symm

def Visible (m : String) : Prop := m.toList.head?.any (!Text.isBlank ·) = true

instance (m : String) : Decidable (Visible m) := inferInstanceAs (Decidable (_ = _))

theorem Visible.exists_head {m : String} (h : Visible m) : ∃ c cs, m.toList = c :: cs ∧ Text.isBlank c = false := by
  unfold Visible at h
  cases hm : m.toList with
  | nil =>
    rw [hm] at h
    cases h
  | cons c cs =>
    rw [hm] at h
    exact ⟨c, cs, rfl, by simpa using h⟩

theorem trimStart_visible {m : String} (h : Visible m) (rest : List Char) :
    Text.trimStart (m.toList ++ rest) = m.toList ++ rest := by
  obtain ⟨c, cs, hc, hb⟩ := h.exists_head
  rw [hc]
  exact Text.trimStart_cons hb _

/-- Where the blanks end, the mark begins. -/
theorem opens_mark_iff {m : String} (h : Visible m) :
    (Token.mark m).Opens text rest ↔ Text.trimStart text = m.toList ++ rest := by
  apply Iff.intro
  · intro ho
    obtain ⟨blanks, hb, rfl⟩ := ho
    rw [trimStart_append hb, trimStart_visible h]
  · intro ht
    obtain ⟨blanks, hb, e⟩ := exists_blanks text
    rw [ht] at e
    exact ⟨blanks, hb, e⟩

theorem after?_eq_some_iff {token : List Char} : Text.after? token text = some rest ↔ text = token ++ rest := by
  induction token generalizing text with
  | nil => simp [Text.after?]
  | cons c token ih =>
    cases text with
    | nil => simp [Text.after?]
    | cons d text =>
      rw [Text.after?]
      by_cases hcd : c = d
      · rw [if_pos hcd, ih, hcd]
        simp
      · rw [if_neg hcd]
        simp [Ne.symm hcd]

theorem eat?_eq_some_iff {m : String} (h : Visible m) : eat? m text = some rest ↔ (Token.mark m).Opens text rest := by
  rw [eat?, after?_eq_some_iff, opens_mark_iff h]

theorem expect_eq_ok_iff {m : String} (h : Visible m) : expect m text = .ok rest ↔ (Token.mark m).Opens text rest := by
  rw [← eat?_eq_some_iff h, expect]
  cases eat? m text <;> simp

theorem number_eq_ok_iff {n : UInt16} : number text = .ok (n, rest) ↔ (Token.number n).Opens text rest := by
  apply Iff.intro
  · intro h
    unfold number at h
    dsimp only at h
    split at h
    · rename_i w hw
      cases h
      obtain ⟨blanks, hb, e⟩ := exists_blanks text
      obtain ⟨zeros, hz⟩ := (Numeral.word?_eq_some_iff fun _ hc => List.mem_takeWhile_imp hc).mp hw
      refine ⟨blanks, zeros, hb, fun c hc => ?_, ?_⟩
      · have := List.head?_dropWhile_not Numeral.isDigit (Text.trimStart text)
        rw [hc] at this
        simpa using this
      · rw [← hz, List.takeWhile_append_dropWhile]
        exact e
    · cases h
  · intro h
    obtain ⟨blanks, zeros, hb, hs, rfl⟩ := h
    have hdigits : ∀ c ∈ List.replicate zeros '0' ++ Numeral.decimal n.toNat, Numeral.isDigit c = true :=
      fun c hc => Numeral.isDigit_of_mem_padded hc
    have hw := (Numeral.word?_eq_some_iff hdigits).mpr ⟨zeros, rfl⟩
    rw [← number_digits hdigits hw hs, number, number, trimStart_append hb]

/-! ## Single operands -/

/-- The first character tells marks apart. -/
theorem eat?_eq_none {m m' : String} (hm : Visible m) (hm' : Visible m') (hne : m.toList.head? ≠ m'.toList.head?)
    (h : (Token.mark m).Opens text rest) : eat? m' text = none := by
  obtain ⟨c, cs, hc, -⟩ := hm.exists_head
  obtain ⟨d, ds, hd, -⟩ := hm'.exists_head
  cases he : eat? m' text with
  | none => rfl
  | some rest' =>
    have h' := (opens_mark_iff hm').mp ((eat?_eq_some_iff hm').mp he)
    rw [(opens_mark_iff hm).mp h, hc, hd] at h'
    rw [hc, hd] at hne
    exact absurd (congrArg some (List.cons.inj h').1) hne

theorem eat?_blanks {m : String} (hm : Visible m) (h : Blanks text) : eat? m text = none := by
  obtain ⟨c, cs, hc, -⟩ := hm.exists_head
  rw [eat?, blanks_iff.mp h, hc]
  rfl

theorem bind_eq_ok_iff {α β : Type} {x : Except Problem α} {f : α → Except Problem β} {b : β} :
    x >>= f = .ok b ↔ ∃ a, x = .ok a ∧ f a = .ok b := by
  apply Iff.intro Emission.bind_ok
  intro h
  obtain ⟨a, ha, hf⟩ := h
  rw [ha]
  exact hf

theorem marked_eq_ok_iff {m : String} (h : Visible m) {n : UInt16} :
    marked m text = .ok (n, rest) ↔ Leads [.mark m, .number n] text rest := by
  simp only [marked, bind_eq_ok_iff, expect_eq_ok_iff h, number_eq_ok_iff, Leads, exists_eq_right]

theorem register_eq_ok_iff {r : UInt16} : register text = .ok (r, rest) ↔ Leads (Dest.reg r).tokens text rest :=
  marked_eq_ok_iff (by decide)

theorem dataset_eq_ok_iff {d : UInt16} : dataset text = .ok (d, rest) ↔ Leads [.mark "ds", .number d] text rest :=
  marked_eq_ok_iff (by decide)

theorem source_eq_ok_iff {s : Source} : source text = .ok (s, rest) ↔ Leads s.tokens text rest := by
  have hv : Visible "acc" ∧ Visible "c" ∧ Visible "r" := by decide
  apply Iff.intro
  · intro h
    unfold source at h
    split at h
    · rename_i hacc
      cases h
      exact ⟨rest, (eat?_eq_some_iff hv.1).mp hacc, rfl⟩
    · split at h
      · rename_i mid hconst
        obtain ⟨⟨c, mid'⟩, hn, h⟩ := bind_eq_ok_iff.mp h
        cases h
        exact ⟨mid, (eat?_eq_some_iff hv.2.1).mp hconst, rest, number_eq_ok_iff.mp hn, rfl⟩
      · obtain ⟨⟨r, mid⟩, hr, h⟩ := bind_eq_ok_iff.mp h
        cases h
        exact register_eq_ok_iff.mp hr
  · intro h
    cases s with
    | reg r =>
      have hr : register text = .ok (r, rest) := register_eq_ok_iff.mpr h
      obtain ⟨mid, hm, -⟩ := h
      simp only [source, eat?_eq_none hv.2.2 hv.1 (by decide) hm, eat?_eq_none hv.2.2 hv.2.1 (by decide) hm, hr, ok_bind]
    | const c =>
      obtain ⟨mid, hm, mid', hn, rfl⟩ := h
      simp only [source, eat?_eq_none hv.2.1 hv.1 (by decide) hm, (eat?_eq_some_iff hv.2.1).mpr hm,
        number_eq_ok_iff.mpr hn, ok_bind]
    | acc =>
      obtain ⟨mid, hm, rfl⟩ := h
      simp only [source, (eat?_eq_some_iff hv.1).mpr hm]

theorem dest_eq_ok_iff {d : Dest} : dest text = .ok (d, rest) ↔ Leads d.tokens text rest := by
  have hv : Visible "acc" ∧ Visible "r" := by decide
  apply Iff.intro
  · intro h
    unfold dest at h
    split at h
    · rename_i hacc
      cases h
      exact ⟨rest, (eat?_eq_some_iff hv.1).mp hacc, rfl⟩
    · obtain ⟨⟨r, mid⟩, hr, h⟩ := bind_eq_ok_iff.mp h
      cases h
      exact register_eq_ok_iff.mp hr
  · intro h
    cases d with
    | reg r =>
      have hr := register_eq_ok_iff.mpr h
      obtain ⟨mid, hm, -⟩ := h
      simp only [dest, eat?_eq_none hv.2 hv.1 (by decide) hm, hr, ok_bind]
    | acc =>
      obtain ⟨mid, hm, rfl⟩ := h
      simp only [dest, (eat?_eq_some_iff hv.1).mpr hm]

/-! ## Lists of operands -/

theorem listed_singleton (x : List Token) : listed [x] = x := List.append_nil x

theorem listed_cons {xs : List (List Token)} (h : xs ≠ []) (x : List Token) :
    listed (x :: xs) = x ++ .mark "," :: listed xs := by
  obtain ⟨y, ys, rfl⟩ := List.exists_cons_of_ne_nil h
  rfl

theorem commaSources_eq_ok_iff {count : Nat} {ss : List Source} : commaSources count text = .ok (ss, rest) ↔
    ss.length = count ∧ Leads ((ss.map Source.tokens).flatMap (.mark "," :: ·)) text rest := by
  have hcomma : Visible "," := by decide
  induction count generalizing text ss with
  | zero =>
    apply Iff.intro
    · intro h
      cases h
      exact ⟨rfl, rfl⟩
    · intro h
      obtain rfl := List.length_eq_zero_iff.mp h.1
      obtain rfl : text = rest := h.2
      rfl
  | succ count ih =>
    apply Iff.intro
    · intro h
      obtain ⟨mid, hm, h⟩ := bind_eq_ok_iff.mp h
      obtain ⟨⟨s, mid'⟩, hs, h⟩ := bind_eq_ok_iff.mp h
      obtain ⟨⟨more, mid''⟩, hmore, h⟩ := bind_eq_ok_iff.mp h
      cases h
      obtain ⟨hl, hmore⟩ := ih.mp hmore
      refine ⟨by rw [List.length_cons, hl], mid, (expect_eq_ok_iff hcomma).mp hm, ?_⟩
      exact leads_append.mpr ⟨mid', source_eq_ok_iff.mp hs, hmore⟩
    · intro h
      obtain ⟨hl, h⟩ := h
      cases ss with
      | nil => cases hl
      | cons s ss =>
        obtain ⟨mid, hm, h⟩ := h
        obtain ⟨mid', hs, h⟩ := leads_append.mp h
        simp only [commaSources, (expect_eq_ok_iff hcomma).mpr hm, source_eq_ok_iff.mpr hs,
          ih.mpr ⟨Nat.succ.inj hl, h⟩, ok_bind]

/-- Each round reads one source. -/
theorem callSources_eq_ok_iff {rounds : Nat} {ss : List Source} : callSources rounds text = .ok (ss, rest) ↔
    ss ≠ [] ∧ ss.length ≤ rounds ∧ Leads (listed (ss.map Source.tokens) ++ [.mark ")"]) text rest := by
  have hv : Visible "," ∧ Visible ")" := by decide
  induction rounds generalizing text ss with
  | zero =>
    apply Iff.intro
    · intro h
      cases h
    · intro h
      exact absurd (List.length_eq_zero_iff.mp (Nat.le_zero.mp h.2.1)) h.1
  | succ rounds ih =>
    apply Iff.intro
    · intro h
      obtain ⟨⟨s, mid⟩, hs, h⟩ := bind_eq_ok_iff.mp h
      have hs := source_eq_ok_iff.mp hs
      dsimp only at h
      split at h
      · rename_i hclose
        cases h
        refine ⟨List.cons_ne_nil _ _, Nat.le_add_left 1 rounds, ?_⟩
        rw [List.map_singleton, listed_singleton]
        exact leads_append.mpr ⟨mid, hs, rest, (eat?_eq_some_iff hv.2).mp hclose, rfl⟩
      · obtain ⟨mid', hcomma, h⟩ := bind_eq_ok_iff.mp h
        obtain ⟨⟨more, mid''⟩, hmore, h⟩ := bind_eq_ok_iff.mp h
        cases h
        obtain ⟨hne, hl, hmore⟩ := ih.mp hmore
        refine ⟨List.cons_ne_nil _ _, Nat.succ_le_succ hl, ?_⟩
        rw [List.map_cons, listed_cons (by simpa using hne), List.append_assoc]
        exact leads_append.mpr ⟨mid, hs, mid', (expect_eq_ok_iff hv.1).mp hcomma, hmore⟩
    · intro h
      obtain ⟨hne, hl, h⟩ := h
      obtain ⟨s, more, rfl⟩ := List.exists_cons_of_ne_nil hne
      rw [List.map_cons] at h
      by_cases hmore : more = []
      · rw [hmore, List.map_nil, listed_singleton] at h
        obtain ⟨mid, hs, mid', hclose, rfl⟩ := leads_append.mp h
        simp only [callSources, source_eq_ok_iff.mpr hs, (eat?_eq_some_iff hv.2).mpr hclose, ok_bind, hmore]
      · rw [listed_cons (by simpa using hmore), List.append_assoc] at h
        obtain ⟨mid, hs, mid', hcomma, h⟩ := leads_append.mp h
        simp only [callSources, source_eq_ok_iff.mpr hs, eat?_eq_none hv.1 hv.2 (by decide) hcomma,
          (expect_eq_ok_iff hv.1).mpr hcomma, ih.mpr ⟨hmore, Nat.le_of_succ_le_succ hl, h⟩, ok_bind]

theorem registers_eq_ok_iff {rounds : Nat} {rs : List UInt16} : registers rounds text = .ok (rs, rest) ↔
    rs ≠ [] ∧ rs.length ≤ rounds ∧ Leads (listed ((rs.map Dest.reg).map Dest.tokens)) text rest ∧ eat? "," rest = none := by
  have hcomma : Visible "," := by decide
  induction rounds generalizing text rs with
  | zero =>
    apply Iff.intro
    · intro h
      cases h
    · intro h
      exact absurd (List.length_eq_zero_iff.mp (Nat.le_zero.mp h.2.1)) h.1
  | succ rounds ih =>
    apply Iff.intro
    · intro h
      obtain ⟨⟨r, mid⟩, hr, h⟩ := bind_eq_ok_iff.mp h
      have hr := register_eq_ok_iff.mp hr
      dsimp only at h
      split at h
      · rename_i hend
        cases h
        exact ⟨List.cons_ne_nil _ _, Nat.le_add_left 1 rounds, hr, hend⟩
      · rename_i mid' hm
        obtain ⟨⟨more, mid''⟩, hmore, h⟩ := bind_eq_ok_iff.mp h
        cases h
        obtain ⟨hne, hl, hmore, hend⟩ := ih.mp hmore
        refine ⟨List.cons_ne_nil _ _, Nat.succ_le_succ hl, ?_, hend⟩
        rw [List.map_cons, List.map_cons, listed_cons (by simpa using hne)]
        exact leads_append.mpr ⟨mid, hr, mid', (eat?_eq_some_iff hcomma).mp hm, hmore⟩
    · intro h
      obtain ⟨hne, hl, h, hend⟩ := h
      obtain ⟨r, more, rfl⟩ := List.exists_cons_of_ne_nil hne
      by_cases hmore : more = []
      · rw [hmore] at h
        simp only [registers, register_eq_ok_iff.mpr h, hend, ok_bind, hmore]
      · rw [List.map_cons, List.map_cons, listed_cons (by simpa using hmore)] at h
        obtain ⟨mid, hr, mid', hm, h⟩ := leads_append.mp h
        simp only [registers, register_eq_ok_iff.mpr hr, (eat?_eq_some_iff hcomma).mpr hm,
          ih.mpr ⟨hmore, Nat.le_of_succ_le_succ hl, h, hend⟩, ok_bind]

/-! ## Calls -/

def Token.Visible : Token → Prop
  | .mark m => Assembly.Visible m
  | .number _ => True

theorem Token.Opens.length_lt {t : Token} (hv : t.Visible) (h : t.Opens text rest) : rest.length < text.length := by
  cases t with
  | mark m =>
    obtain ⟨blanks, -, rfl⟩ := h
    obtain ⟨c, cs, hc, -⟩ := Assembly.Visible.exists_head hv
    simp only [hc, List.length_append, List.length_cons]
    omega
  | number n =>
    obtain ⟨blanks, zeros, -, -, rfl⟩ := h
    have := List.length_pos_iff.mpr (Numeral.decimal_ne_nil n.toNat)
    simp only [List.length_append]
    omega

theorem length_le_of_leads (hv : ∀ t ∈ ts, t.Visible) (h : Leads ts text rest) : ts.length + rest.length ≤ text.length := by
  induction ts generalizing text with
  | nil =>
    obtain rfl : text = rest := h
    exact Nat.le_of_eq (Nat.zero_add _)
  | cons t ts ih =>
    obtain ⟨mid, ho, h⟩ := h
    have hlt := ho.length_lt (hv t List.mem_cons_self)
    have hle := ih (fun x hx => hv x (List.mem_cons_of_mem t hx)) h
    rw [List.length_cons]
    omega

theorem visible_source (s : Source) : ∀ t ∈ s.tokens, t.Visible := by
  have hv : Visible "r" ∧ Visible "c" ∧ Visible "acc" := by decide
  cases s <;> simp [Source.tokens, Token.Visible, hv]

theorem visible_dest (d : Dest) : ∀ t ∈ d.tokens, t.Visible := by
  have hv : Visible "r" ∧ Visible "acc" := by decide
  cases d <;> simp [Dest.tokens, Token.Visible, hv]

theorem length_le_listed (xs : List (List Token)) : xs.length ≤ (listed xs).length + 1 := by
  have behind (ys : List (List Token)) : ys.length ≤ (ys.flatMap (.mark "," :: ·)).length := by
    induction ys with
    | nil => exact Nat.le_refl 0
    | cons y ys ih =>
      simp only [List.flatMap_cons, List.length_append, List.length_cons]
      omega
  cases xs with
  | nil => exact Nat.zero_le _
  | cons x xs =>
    have := behind xs
    simp only [listed, List.length_append, List.length_cons]
    omega

theorem visible_listed {xs : List (List Token)} (h : ∀ x ∈ xs, ∀ t ∈ x, t.Visible) : ∀ t ∈ listed xs, t.Visible := by
  have hcomma : Visible "," := by decide
  induction xs with
  | nil => simp [listed]
  | cons x xs ih =>
    have ih := ih fun y hy => h y (List.mem_cons_of_mem x hy)
    intro t ht
    by_cases hxs : xs = []
    · rw [hxs, listed_singleton] at ht
      exact h x List.mem_cons_self t ht
    · rw [listed_cons hxs, List.mem_append, List.mem_cons] at ht
      rcases ht with ht | rfl | ht
      · exact h x List.mem_cons_self t ht
      · exact hcomma
      · exact ih t ht

/-- As many rounds as characters are enough for a list. -/
theorem length_le_of_leads_listed {xs : List (List Token)} (h : ∀ x ∈ xs, ∀ t ∈ x, t.Visible)
    (hl : Leads (listed xs) text rest) : xs.length ≤ text.length + 1 := by
  have hlist := length_le_of_leads (visible_listed h) hl
  have := length_le_listed xs
  omega

def bracketed : Reader (List Source) := fun text =>
  match eat? ")" text with
  | some rest => .ok ([], rest)
  | none => callSources (text.length + 1) text

def results : Reader (List UInt16) := fun text =>
  match eat? "->" text with
  | some rest => registers (rest.length + 1) rest
  | none => .ok ([], text)

theorem callOperands_eq (text : List Char) : callOperands text =
    marked "f" text >>= fun f => expect "(" f.2 >>= fun rest => bracketed rest >>= fun ss => results ss.2 >>= fun rs =>
      if 255 < ss.1.length ∨ 255 < rs.1.length then .error .callOperands
      else .ok (⟨.call, .call f.1, ss.1, rs.1.map .reg⟩, rs.2) := by
  unfold callOperands bracketed results
  refine bind_congr fun f => bind_congr fun rest => ?_
  cases eat? ")" rest with
  | some rest =>
    simp only [ok_bind]
    cases eat? "->" rest <;> rfl
  | none =>
    refine bind_congr fun ss => ?_
    obtain ⟨ss, rest⟩ := ss
    dsimp only
    cases eat? "->" rest <;> rfl

theorem bracketed_eq_ok_iff {ss : List Source} : bracketed text = .ok (ss, rest) ↔
    Leads (listed (ss.map Source.tokens) ++ [.mark ")"]) text rest := by
  have hv : Visible ")" ∧ Visible "r" ∧ Visible "c" ∧ Visible "acc" := by decide
  apply Iff.intro
  · intro h
    unfold bracketed at h
    split at h
    · rename_i hclose
      cases h
      exact ⟨rest, (eat?_eq_some_iff hv.1).mp hclose, rfl⟩
    · exact (callSources_eq_ok_iff.mp h).2.2
  · intro h
    cases ss with
    | nil =>
      obtain ⟨mid, hclose, rfl⟩ := h
      simp only [bracketed, (eat?_eq_some_iff hv.1).mpr hclose]
    | cons s ss =>
      have hclose : eat? ")" text = none := by
        cases s with
        | reg r =>
          obtain ⟨mid, hm, -⟩ := h
          exact eat?_eq_none hv.2.1 hv.1 (by decide) hm
        | const c =>
          obtain ⟨mid, hm, -⟩ := h
          exact eat?_eq_none hv.2.2.1 hv.1 (by decide) hm
        | acc =>
          obtain ⟨mid, hm, -⟩ := h
          exact eat?_eq_none hv.2.2.2 hv.1 (by decide) hm
      have hrounds : (s :: ss).length ≤ text.length + 1 := by
        obtain ⟨mid, hlist, -⟩ := leads_append.mp h
        rw [← List.length_map Source.tokens]
        apply length_le_of_leads_listed _ hlist
        intro x hx
        obtain ⟨s, -, rfl⟩ := List.mem_map.mp hx
        exact visible_source s
      simp only [bracketed, hclose]
      exact callSources_eq_ok_iff.mpr ⟨List.cons_ne_nil s ss, hrounds, h⟩

def resultTokens (ds : List Dest) : List Token :=
  if (ds.map Dest.tokens).isEmpty then [] else .mark "->" :: listed (ds.map Dest.tokens)

theorem results_eq_ok_iff (hb : Blanks rest) {rs : List UInt16} :
    results text = .ok (rs, rest) ↔ Leads (resultTokens (rs.map .reg)) text rest := by
  have hv : Visible "->" ∧ Visible "," := by decide
  apply Iff.intro
  · intro h
    unfold results at h
    split at h
    · rename_i mid harrow
      obtain ⟨hne, -, h, -⟩ := registers_eq_ok_iff.mp h
      obtain ⟨r, rs, rfl⟩ := List.exists_cons_of_ne_nil hne
      exact ⟨mid, (eat?_eq_some_iff hv.1).mp harrow, h⟩
    · cases h
      rfl
  · intro h
    cases rs with
    | nil =>
      obtain rfl : text = rest := h
      simp only [results, eat?_blanks hv.1 hb]
    | cons r rs =>
      obtain ⟨mid, harrow, h⟩ := h
      have hrounds : (r :: rs).length ≤ mid.length + 1 := by
        rw [← List.length_map Dest.reg, ← List.length_map Dest.tokens]
        apply length_le_of_leads_listed _ h
        intro x hx
        obtain ⟨d, -, rfl⟩ := List.mem_map.mp hx
        exact visible_dest d
      simp only [results, (eat?_eq_some_iff hv.1).mpr harrow]
      exact registers_eq_ok_iff.mpr ⟨List.cons_ne_nil r rs, hrounds, h, eat?_blanks hv.2 hb⟩

/-- What is read from the operands of a call, if nothing but blanks is left. -/
theorem callOperands_eq_ok_iff (hb : Blanks rest) {i : Instruction} :
    callOperands text = .ok (i, rest) ↔ i.opcode = .call ∧ i.WellShaped ∧ Leads i.operandTokens text rest := by
  have hv : Visible "f" ∧ Visible "(" := by decide
  rw [callOperands_eq]
  apply Iff.intro
  · intro h
    have hshaped : i.WellShaped := wellShaped_of_operands (show operands .call text = _ from (callOperands_eq text).trans h)
    obtain ⟨⟨f, mid⟩, hf, h⟩ := bind_eq_ok_iff.mp h
    obtain ⟨mid', hopen, h⟩ := bind_eq_ok_iff.mp h
    obtain ⟨⟨ss, mid''⟩, hs, h⟩ := bind_eq_ok_iff.mp h
    obtain ⟨⟨rs, mid'''⟩, hr, h⟩ := bind_eq_ok_iff.mp h
    split at h
    · cases h
    · cases h
      refine ⟨rfl, hshaped, ?_⟩
      obtain ⟨a, hmark, b, hnumber, rfl⟩ := (marked_eq_ok_iff hv.1).mp hf
      obtain ⟨c, hlist, d, hclose, rfl⟩ := leads_append.mp (bracketed_eq_ok_iff.mp hs)
      refine ⟨a, hmark, b, hnumber, mid', (expect_eq_ok_iff hv.2).mp hopen, ?_⟩
      exact leads_append.mpr ⟨c, hlist, d, hclose, (results_eq_ok_iff hb).mp hr⟩
  · intro h
    obtain ⟨ho, hshaped, h⟩ := h
    obtain ⟨opcode, payload, ss, ds⟩ := i
    obtain rfl : opcode = .call := ho
    obtain ⟨⟨f, rfl⟩, hs, hd, hacc⟩ := hshaped
    obtain ⟨rs, rfl⟩ := exists_registers hacc
    obtain ⟨a, hmark, b, hnumber, mid, hopen, h⟩ := h
    obtain ⟨c, hlist, d, hclose, h⟩ := leads_append.mp h
    have hf := (marked_eq_ok_iff hv.1).mpr ⟨a, hmark, b, hnumber, rfl⟩
    have hs' := bracketed_eq_ok_iff.mpr (leads_append.mpr ⟨c, hlist, d, hclose, rfl⟩)
    have hr := (results_eq_ok_iff hb).mpr h
    have hcount : ¬(255 < ss.length ∨ 255 < rs.length) := by
      have hd : rs.length ≤ 255 := by simpa using hd
      have hs : ss.length ≤ 255 := hs
      omega
    have hf : marked "f" text = .ok (f, b) := hf
    simp only [hf, (expect_eq_ok_iff hv.2).mpr hopen, hs', hr, ok_bind, if_neg hcount]

/-! ## All operands -/

theorem Leads.trans {mid : List Char} (h : Leads ts text mid) (h' : Leads us mid rest) : Leads (ts ++ us) text rest :=
  leads_append.mpr ⟨mid, h, h'⟩

theorem leads_of_expect {m : String} (hm : Visible m) (h : expect m text = .ok rest) : Leads [.mark m] text rest :=
  ⟨rest, (expect_eq_ok_iff hm).mp h, rfl⟩

theorem leads_of_number {n : UInt16} (h : number text = .ok (n, rest)) : Leads [.number n] text rest :=
  ⟨rest, number_eq_ok_iff.mp h, rfl⟩

theorem operandTokens_output (e : Element) (d f r : UInt16) (s : Source) :
    Instruction.operandTokens ⟨.output e, .field d f, [.reg r, s], []⟩ =
      [.mark "ds", .number d, .mark "[", .mark "r", .number r, .mark "]", .mark ".", .number f, .mark ","] ++ s.tokens := by
  simp [Instruction.operandTokens, listed, Source.tokens]

theorem operandTokens_acquireIndex (d r : UInt16) (s : Source) :
    Instruction.operandTokens ⟨.acquireIndex, .field d 0, [s], [.reg r]⟩ =
      [.mark "r", .number r, .mark ",", .mark "ds", .number d, .mark ","] ++ s.tokens := by
  simp [Instruction.operandTokens, listed, Dest.tokens]

/-- Operands are read off the front of a text, token by token. -/
theorem leads_of_operands {opcode : Opcode} {i : Instruction} (hb : Blanks rest)
    (h : operands opcode text = .ok (i, rest)) : i.opcode = opcode ∧ Leads i.operandTokens text rest := by
  have hv : Visible "," ∧ Visible "." ∧ Visible "[" ∧ Visible "]" := by decide
  cases opcode with
  | compute f =>
    obtain ⟨⟨d, mid⟩, hd, h⟩ := bind_eq_ok_iff.mp h
    obtain ⟨⟨ss, mid'⟩, hs, h⟩ := bind_eq_ok_iff.mp h
    cases h
    exact ⟨rfl, (dest_eq_ok_iff.mp hd).trans (commaSources_eq_ok_iff.mp hs).2⟩
  | input e a =>
    obtain ⟨⟨r, a⟩, hr, h⟩ := bind_eq_ok_iff.mp h
    obtain ⟨b, hcomma, h⟩ := bind_eq_ok_iff.mp h
    obtain ⟨⟨d, c⟩, hd, h⟩ := bind_eq_ok_iff.mp h
    obtain ⟨p, hdot, h⟩ := bind_eq_ok_iff.mp h
    obtain ⟨⟨f, q⟩, hf, h⟩ := bind_eq_ok_iff.mp h
    cases h
    have hfront := (register_eq_ok_iff.mp hr).trans (leads_of_expect hv.1 hcomma)
    have hback := (leads_of_expect hv.2.1 hdot).trans (leads_of_number hf)
    exact ⟨rfl, (hfront.trans (dataset_eq_ok_iff.mp hd)).trans hback⟩
  | output e =>
    obtain ⟨⟨d, a⟩, hd, h⟩ := bind_eq_ok_iff.mp h
    obtain ⟨b, hleft, h⟩ := bind_eq_ok_iff.mp h
    obtain ⟨⟨r, c⟩, hr, h⟩ := bind_eq_ok_iff.mp h
    obtain ⟨p, hright, h⟩ := bind_eq_ok_iff.mp h
    obtain ⟨q, hdot, h⟩ := bind_eq_ok_iff.mp h
    obtain ⟨⟨f, u⟩, hf, h⟩ := bind_eq_ok_iff.mp h
    obtain ⟨v, hcomma, h⟩ := bind_eq_ok_iff.mp h
    obtain ⟨⟨s, w⟩, hs, h⟩ := bind_eq_ok_iff.mp h
    cases h
    have hfront := (dataset_eq_ok_iff.mp hd).trans (leads_of_expect hv.2.2.1 hleft)
    have hindex := (register_eq_ok_iff.mp hr).trans (leads_of_expect hv.2.2.2 hright)
    have hfield := (leads_of_expect hv.2.1 hdot).trans (leads_of_number hf)
    have hback := (leads_of_expect hv.1 hcomma).trans (source_eq_ok_iff.mp hs)
    rw [operandTokens_output]
    exact ⟨rfl, ((hfront.trans hindex).trans hfield).trans hback⟩
  | acquireIndex =>
    obtain ⟨⟨r, a⟩, hr, h⟩ := bind_eq_ok_iff.mp h
    obtain ⟨b, hcomma, h⟩ := bind_eq_ok_iff.mp h
    obtain ⟨⟨d, c⟩, hd, h⟩ := bind_eq_ok_iff.mp h
    obtain ⟨p, hcomma', h⟩ := bind_eq_ok_iff.mp h
    obtain ⟨⟨s, q⟩, hs, h⟩ := bind_eq_ok_iff.mp h
    cases h
    have hfront := (register_eq_ok_iff.mp hr).trans (leads_of_expect hv.1 hcomma)
    have hback := (leads_of_expect hv.1 hcomma').trans (source_eq_ok_iff.mp hs)
    rw [operandTokens_acquireIndex]
    exact ⟨rfl, (hfront.trans (dataset_eq_ok_iff.mp hd)).trans hback⟩
  | updateId =>
    obtain ⟨⟨d, a⟩, hd, h⟩ := bind_eq_ok_iff.mp h
    obtain ⟨b, hcomma, h⟩ := bind_eq_ok_iff.mp h
    obtain ⟨⟨r, c⟩, hr, h⟩ := bind_eq_ok_iff.mp h
    obtain ⟨p, hcomma', h⟩ := bind_eq_ok_iff.mp h
    obtain ⟨⟨r', q⟩, hr', h⟩ := bind_eq_ok_iff.mp h
    cases h
    have hfront := (dataset_eq_ok_iff.mp hd).trans (leads_of_expect hv.1 hcomma)
    have hback := (leads_of_expect hv.1 hcomma').trans (register_eq_ok_iff.mp hr')
    exact ⟨rfl, (hfront.trans (register_eq_ok_iff.mp hr)).trans hback⟩
  | acquireId =>
    obtain ⟨⟨r, a⟩, hr, h⟩ := bind_eq_ok_iff.mp h
    obtain ⟨b, hcomma, h⟩ := bind_eq_ok_iff.mp h
    obtain ⟨⟨r', c⟩, hr', h⟩ := bind_eq_ok_iff.mp h
    obtain ⟨p, hcomma', h⟩ := bind_eq_ok_iff.mp h
    obtain ⟨⟨d, q⟩, hd, h⟩ := bind_eq_ok_iff.mp h
    cases h
    have hfront := (register_eq_ok_iff.mp hr).trans (leads_of_expect hv.1 hcomma)
    have hback := (leads_of_expect hv.1 hcomma').trans (dataset_eq_ok_iff.mp hd)
    exact ⟨rfl, (hfront.trans (register_eq_ok_iff.mp hr')).trans hback⟩
  | call =>
    obtain ⟨ho, -, h⟩ := (callOperands_eq_ok_iff hb).mp h
    exact ⟨ho, h⟩
  | enterScope =>
    obtain ⟨⟨id, a⟩, hid, h⟩ := bind_eq_ok_iff.mp h
    cases h
    exact ⟨rfl, leads_of_number hid⟩
  | execIndex =>
    obtain ⟨⟨r, a⟩, hr, h⟩ := bind_eq_ok_iff.mp h
    cases h
    exact ⟨rfl, register_eq_ok_iff.mp hr⟩
  | fused => cases h
  | done | nop | exitScope =>
    cases h
    exact ⟨rfl, rfl⟩

/-- Operands in front of blanks are read as what they stand for. -/
theorem operands_of_leads {i : Instruction} (hb : Blanks rest) (hw : i.WellShaped) (h : Leads i.operandTokens text rest) :
    operands i.opcode text = .ok (i, rest) := by
  have hv : Visible "," ∧ Visible "." ∧ Visible "[" ∧ Visible "]" := by decide
  obtain ⟨opcode, payload, ss, ds⟩ := i
  cases opcode with
  | compute f =>
    obtain ⟨rfl, hl, hd⟩ := hw
    obtain ⟨d, rfl⟩ := List.length_eq_one_iff.mp hd
    obtain ⟨mid, hd, hs⟩ := leads_append.mp h
    have hs := commaSources_eq_ok_iff.mpr ⟨hl, hs⟩
    simp only [operands, dest_eq_ok_iff.mpr hd, hs, ok_bind]
  | input e a =>
    obtain ⟨⟨d, f, rfl⟩, rfl, r, rfl⟩ := hw
    obtain ⟨a, h1, b, h2, c, hcomma, p, h3, q, h4, u, hdot, v, hf, rfl⟩ := h
    have hr : register text = .ok (r, b) := register_eq_ok_iff.mpr ⟨a, h1, b, h2, rfl⟩
    have hd : dataset c = .ok (d, q) := dataset_eq_ok_iff.mpr ⟨p, h3, q, h4, rfl⟩
    have hf : number u = .ok (f, v) := number_eq_ok_iff.mpr hf
    simp only [operands, hr, (expect_eq_ok_iff hv.1).mpr hcomma, hd, (expect_eq_ok_iff hv.2.1).mpr hdot, hf, ok_bind]
  | output e =>
    obtain ⟨⟨d, f, rfl⟩, ⟨r, s, rfl⟩, rfl⟩ := hw
    rw [operandTokens_output] at h
    obtain ⟨a, h1, b, h2, c, hleft, p, h3, q, h4, u, hright, v, hdot, w, hf, x, hcomma, hs⟩ := h
    have hd := dataset_eq_ok_iff.mpr ⟨a, h1, b, h2, rfl⟩
    have hr := register_eq_ok_iff.mpr ⟨p, h3, q, h4, rfl⟩
    simp only [operands, hd, (expect_eq_ok_iff hv.2.2.1).mpr hleft, hr, (expect_eq_ok_iff hv.2.2.2).mpr hright,
      (expect_eq_ok_iff hv.2.1).mpr hdot, number_eq_ok_iff.mpr hf, (expect_eq_ok_iff hv.1).mpr hcomma,
      source_eq_ok_iff.mpr hs, ok_bind]
  | acquireIndex =>
    obtain ⟨⟨d, rfl⟩, hl, r, rfl⟩ := hw
    obtain ⟨s, rfl⟩ := List.length_eq_one_iff.mp hl
    rw [operandTokens_acquireIndex] at h
    obtain ⟨a, h1, b, h2, c, hcomma, p, h3, q, h4, u, hcomma', hs⟩ := h
    have hr := register_eq_ok_iff.mpr ⟨a, h1, b, h2, rfl⟩
    have hd := dataset_eq_ok_iff.mpr ⟨p, h3, q, h4, rfl⟩
    simp only [operands, hr, (expect_eq_ok_iff hv.1).mpr hcomma, hd, (expect_eq_ok_iff hv.1).mpr hcomma',
      source_eq_ok_iff.mpr hs, ok_bind]
  | updateId =>
    obtain ⟨⟨d, rfl⟩, ⟨r, r', rfl⟩, rfl⟩ := hw
    obtain ⟨a, h1, b, h2, c, hcomma, p, h3, q, h4, u, hcomma', v, h5, w, h6, rfl⟩ := h
    have hd : dataset text = .ok (d, b) := dataset_eq_ok_iff.mpr ⟨a, h1, b, h2, rfl⟩
    have hr := register_eq_ok_iff.mpr ⟨p, h3, q, h4, rfl⟩
    have hr' := register_eq_ok_iff.mpr ⟨v, h5, w, h6, rfl⟩
    simp only [operands, hd, (expect_eq_ok_iff hv.1).mpr hcomma, hr, (expect_eq_ok_iff hv.1).mpr hcomma', hr', ok_bind]
  | acquireId =>
    obtain ⟨⟨d, rfl⟩, rfl, r, r', rfl⟩ := hw
    obtain ⟨a, h1, b, h2, c, hcomma, p, h3, q, h4, u, hcomma', v, h5, w, h6, rfl⟩ := h
    have hr := register_eq_ok_iff.mpr ⟨a, h1, b, h2, rfl⟩
    have hr' := register_eq_ok_iff.mpr ⟨p, h3, q, h4, rfl⟩
    have hd : dataset u = .ok (d, w) := dataset_eq_ok_iff.mpr ⟨v, h5, w, h6, rfl⟩
    simp only [operands, hr, (expect_eq_ok_iff hv.1).mpr hcomma, hr', (expect_eq_ok_iff hv.1).mpr hcomma', hd, ok_bind]
  | call => exact (callOperands_eq_ok_iff hb).mpr ⟨rfl, hw, h⟩
  | enterScope =>
    obtain ⟨⟨id, rfl⟩, rfl, rfl⟩ := hw
    obtain ⟨a, hid, rfl⟩ := h
    have hid : number text = .ok (id, a) := number_eq_ok_iff.mpr hid
    simp only [operands, hid, ok_bind]
  | execIndex =>
    obtain ⟨rfl, rfl, r, rfl⟩ := hw
    simp only [operands, register_eq_ok_iff.mpr h, ok_bind]
  | fused => exact hw.elim
  | done | nop | exitScope =>
    obtain ⟨rfl, rfl, rfl⟩ := hw
    obtain rfl : text = rest := h
    rfl

/-- An instruction is read from a text just where the text spells its operands. -/
theorem instruction_eq_ok_iff {opcode : Opcode} {i : Instruction} :
    instruction opcode text = .ok i ↔ i.opcode = opcode ∧ i.WellShaped ∧ Spells i.operandTokens text := by
  apply Iff.intro
  · intro h
    have hw := wellShaped_of_instruction h
    obtain ⟨⟨j, rest⟩, hj, h⟩ := bind_eq_ok_iff.mp h
    dsimp only at h
    split at h
    · rename_i hempty
      cases h
      have hb : Blanks rest := blanks_iff.mpr (List.isEmpty_iff.mp hempty)
      obtain ⟨ho, hl⟩ := leads_of_operands hb hj
      exact ⟨ho, hw, rest, hl, hb⟩
    · cases h
  · intro h
    obtain ⟨rfl, hw, rest, hl, hb⟩ := h
    rw [instruction, operands_of_leads hb hw hl, ok_bind]
    simp only [blanks_iff.mp hb]
    rfl

end Assembly

end LaneScript
