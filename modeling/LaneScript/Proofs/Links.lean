/-
  LaneScript.Proofs.Links — chains of nodes, seen through their links.

  `next?` and `prev?` are the links of a node as node numbers. In a `Linked` program
  they are inverse to each other and run forwards, so walking never runs out of rounds:
  a chain is the chain of the node before and the node itself (`chain_of_prev`), the
  root of a node is that of the node it feeds (`root_of_next`). The chain of a root
  holds exactly the nodes with that root (`mem_chain_iff`), in increasing order.
-/
import LaneScript.Program.Chain
import Mathlib.Data.List.Chain

namespace LaneScript.Program

def next? (p : Program) (i : Nat) : Option Nat := p[i]?.bind Node.target?

def prev? (p : Program) (i : Nat) : Option Nat := p[i]?.bind Node.fedBy

/-- Links agree in both directions, run forwards and name nodes. -/
structure Linked (p : Program) : Prop where
  agree : ∀ i j, p.next? i = some j ↔ p.prev? j = some i
  forward : ∀ i j, p.next? i = some j → i < j
  named : ∀ (i : Nat) (n : Node), p[i]? = some n → n.isFolded = true → ∃ j, n.target? = some j

variable {p : Program}

theorem lt_size_of_getElem? {i : Nat} {n : Node} (h : p[i]? = some n) : i < p.size :=
  (Array.getElem?_eq_some_iff.mp h).1

theorem next?_eq {i : Nat} {n : Node} (h : p[i]? = some n) : p.next? i = n.target? := by
  simp [next?, h]

theorem prev?_eq {i : Nat} {n : Node} (h : p[i]? = some n) : p.prev? i = n.fedBy := by
  simp [prev?, h]

theorem lt_size_of_next? {i j : Nat} (h : p.next? i = some j) : i < p.size := by
  simp only [next?, Option.bind_eq_some_iff] at h
  obtain ⟨n, hn, -⟩ := h
  exact lt_size_of_getElem? hn

theorem lt_size_of_prev? {i j : Nat} (h : p.prev? i = some j) : i < p.size := by
  simp only [prev?, Option.bind_eq_some_iff] at h
  obtain ⟨n, hn, -⟩ := h
  exact lt_size_of_getElem? hn

namespace Linked

theorem next_lt_size (h : p.Linked) {i j : Nat} (e : p.next? i = some j) : j < p.size :=
  lt_size_of_prev? ((h.agree i j).mp e)

theorem prev_lt (h : p.Linked) {i j : Nat} (e : p.prev? i = some j) : j < i :=
  h.forward j i ((h.agree j i).mpr e)

/-- A node is folded exactly if it feeds a node. -/
theorem isFolded_iff (h : p.Linked) {i : Nat} {n : Node} (e : p[i]? = some n) :
    n.isFolded = true ↔ ∃ j, p.next? i = some j := by
  rw [next?_eq e]
  refine ⟨h.named i n e, fun ⟨j, hj⟩ => ?_⟩
  simp only [Node.target?, Option.bind_eq_some_iff] at hj
  obtain ⟨k, hk, -⟩ := hj
  simp [Node.isFolded, hk]

theorem isFolded_eq_false_iff (h : p.Linked) {i : Nat} {n : Node} (e : p[i]? = some n) :
    n.isFolded = false ↔ p.next? i = none := by
  rw [← Bool.not_eq_true, h.isFolded_iff e, ← Option.ne_none_iff_exists', Decidable.not_not]

theorem any_isFolded (h : p.Linked) (i : Nat) : p[i]?.any Node.isFolded = (p.next? i).isSome := by
  cases e : p[i]? with
  | none =>
    rw [next?, e]
    rfl
  | some n => rw [Option.any_some, Bool.eq_iff_iff, h.isFolded_iff e, Option.isSome_iff_exists]

end Linked

/-! ## Walking back -/

theorem backFrom_append (rounds node : Nat) (after : List Nat) :
    p.backFrom rounds node after = p.backFrom rounds node [] ++ after := by
  induction rounds generalizing node after with
  | zero => rfl
  | succ rounds ih =>
    simp only [backFrom]
    split
    · split
      · rename_i previous _
        rw [ih previous (node :: after), ih previous [node]]
        simp
      · rfl
    · rfl

theorem backFrom_succ (rounds node : Nat) :
    p.backFrom (rounds + 1) node [] =
      match p.prev? node with
      | some previous => p.backFrom rounds previous [] ++ [node]
      | none => [node] := by
  simp only [backFrom, prev?]
  cases h : p[node]? with
  | none => rfl
  | some n =>
    simp only [Option.bind_some]
    cases n.fedBy with
    | none => rfl
    | some previous => exact backFrom_append ..

/-- More rounds than the node's number make no difference. -/
theorem backFrom_rounds (h : p.Linked) {r r' node : Nat} (hr : node < r) (hr' : node < r') :
    p.backFrom r node [] = p.backFrom r' node [] := by
  induction node using Nat.strongRecOn generalizing r r' with
  | ind node ih =>
    obtain ⟨r, rfl⟩ : ∃ k, r = k + 1 := ⟨r - 1, by omega⟩
    obtain ⟨r', rfl⟩ : ∃ k, r' = k + 1 := ⟨r' - 1, by omega⟩
    rw [backFrom_succ, backFrom_succ]
    cases e : p.prev? node with
    | none => rfl
    | some previous =>
      have hlt := h.prev_lt e
      have hrec : p.backFrom r previous [] = p.backFrom r' previous [] := ih previous hlt (by omega) (by omega)
      simp only [hrec]

theorem chain_of_prev (h : p.Linked) {i j : Nat} (e : p.prev? i = some j) : p.chain i = p.chain j ++ [i] := by
  have hi := lt_size_of_prev? e
  have hj := h.prev_lt e
  rw [chain, backFrom_succ, e, chain]
  exact congrArg (· ++ [i]) (backFrom_rounds h (by omega) (by omega))

theorem chain_of_first {i : Nat} (e : p.prev? i = none) : p.chain i = [i] := by
  rw [chain, backFrom_succ, e]

theorem self_mem_chain (h : p.Linked) (i : Nat) : i ∈ p.chain i := by
  cases e : p.prev? i with
  | none => simp [chain_of_first e]
  | some j => simp [chain_of_prev h e]

/-- A chain without its last node has nodes below it only. -/
theorem exists_chain_eq (h : p.Linked) (i : Nat) : ∃ front, p.chain i = front ++ [i] ∧ ∀ j ∈ front, j < i := by
  induction i using Nat.strongRecOn with
  | ind i ih =>
    cases e : p.prev? i with
    | none => exact ⟨[], by simp [chain_of_first e], by simp⟩
    | some k =>
      have hk := h.prev_lt e
      obtain ⟨front, hc, hl⟩ := ih k hk
      refine ⟨p.chain k, chain_of_prev h e, fun j hj => ?_⟩
      rw [hc] at hj
      rcases List.mem_append.mp hj with hj | hj
      · have := hl j hj; omega
      · simp only [List.mem_singleton] at hj; omega

theorem le_of_mem_chain (h : p.Linked) {i j : Nat} (hj : j ∈ p.chain i) : j ≤ i := by
  obtain ⟨front, e, hl⟩ := exists_chain_eq h i
  rw [e] at hj
  rcases List.mem_append.mp hj with hj | hj
  · exact Nat.le_of_lt (hl j hj)
  · simp only [List.mem_singleton] at hj; omega

/-- Each node of a chain feeds the one behind it. -/
theorem isChain_chain (h : p.Linked) (i : Nat) : (p.chain i).IsChain (fun a b => p.next? a = some b) := by
  induction i using Nat.strongRecOn with
  | ind i ih =>
    cases e : p.prev? i with
    | none => simp [chain_of_first e]
    | some k =>
      obtain ⟨front, hc, -⟩ := exists_chain_eq h k
      rw [chain_of_prev h e, List.isChain_append]
      refine ⟨ih k (h.prev_lt e), by simp, ?_⟩
      intro a ha b hb
      simp only [hc, List.getLast?_concat, Option.mem_def, Option.some.injEq] at ha
      simp only [List.head?_cons, Option.mem_def, Option.some.injEq] at hb
      subst ha hb
      exact (h.agree k i).mpr e

theorem pairwise_chain (h : p.Linked) (i : Nat) : (p.chain i).Pairwise (· < ·) := by
  induction i using Nat.strongRecOn with
  | ind i ih =>
    cases e : p.prev? i with
    | none => simp [chain_of_first e]
    | some k =>
      rw [chain_of_prev h e, List.pairwise_append]
      refine ⟨ih k (h.prev_lt e), by simp, fun a ha b hb => ?_⟩
      have := le_of_mem_chain h ha
      have := h.prev_lt e
      simp only [List.mem_singleton] at hb
      omega

/-- The first node of a chain is fed by none. -/
theorem prev?_head_chain (h : p.Linked) {i a : Nat} (ha : (p.chain i).head? = some a) : p.prev? a = none := by
  induction i using Nat.strongRecOn with
  | ind i ih =>
    cases e : p.prev? i with
    | none =>
      rw [chain_of_first e] at ha
      cases ha
      exact e
    | some k =>
      obtain ⟨front, hc, -⟩ := exists_chain_eq h k
      refine ih k (h.prev_lt e) ?_
      rw [chain_of_prev h e, List.head?_append] at ha
      cases hh : (p.chain k).head? with
      | none => rw [List.head?_eq_none_iff] at hh; simp [hh] at hc
      | some b => simpa [hh] using ha

theorem prev_mem_chain (h : p.Linked) {i j k : Nat} (hj : j ∈ p.chain i) (e : p.prev? j = some k) : k ∈ p.chain i := by
  induction i using Nat.strongRecOn with
  | ind i ih =>
    cases e' : p.prev? i with
    | none =>
      rw [chain_of_first e', List.mem_singleton] at hj
      subst hj
      rw [e] at e'; cases e'
    | some m =>
      rw [chain_of_prev h e'] at hj ⊢
      rcases List.mem_append.mp hj with hj | hj
      · exact List.mem_append_left _ (ih m (h.prev_lt e') hj)
      · rw [List.mem_singleton] at hj
        subst hj
        rw [e] at e'; cases e'
        exact List.mem_append_left _ (self_mem_chain h k)

/-! ## Walking forwards -/

theorem rootFrom_succ (rounds node : Nat) :
    p.rootFrom (rounds + 1) node =
      match p.next? node with
      | some next => p.rootFrom rounds next
      | none => node := by
  simp only [rootFrom, next?]
  cases h : p[node]? with
  | none => rfl
  | some n => rfl

theorem rootFrom_rounds (h : p.Linked) {r r' node : Nat} (hr : p.size < node + r) (hr' : p.size < node + r')
    (h0 : 0 < r) (h0' : 0 < r') : p.rootFrom r node = p.rootFrom r' node := by
  induction r generalizing r' node with
  | zero => omega
  | succ r ih =>
    obtain ⟨r', rfl⟩ : ∃ k, r' = k + 1 := ⟨r' - 1, by omega⟩
    rw [rootFrom_succ, rootFrom_succ]
    cases e : p.next? node with
    | none => rfl
    | some next =>
      have hlt := h.forward _ _ e
      have hs := h.next_lt_size e
      exact ih (by omega) (by omega) (by omega) (by omega)

theorem root_of_next (h : p.Linked) {i j : Nat} (e : p.next? i = some j) : p.root i = p.root j := by
  have hlt := h.forward _ _ e
  have hs := h.next_lt_size e
  rw [root, rootFrom_succ, e]
  exact rootFrom_rounds h (by omega) (by omega) (by omega) (by omega)

theorem root_of_last {i : Nat} (e : p.next? i = none) : p.root i = i := by
  rw [root, rootFrom_succ, e]

theorem root_of_prev (h : p.Linked) {i j : Nat} (e : p.prev? i = some j) : p.root j = p.root i :=
  root_of_next h ((h.agree j i).mpr e)

/-- Induction along the links, from the roots down. -/
theorem Linked.induction (h : p.Linked) {motive : Nat → Prop} (last : ∀ i, p.next? i = none → motive i)
    (step : ∀ i j, p.next? i = some j → motive j → motive i) (i : Nat) : motive i := by
  suffices ∀ k i, p.size ≤ i + k → motive i from this p.size i (by omega)
  intro k
  induction k with
  | zero =>
    intro i hi
    refine last i ?_
    cases e : p.next? i with
    | none => rfl
    | some j => have := lt_size_of_next? e; omega
  | succ k ih =>
    intro i hi
    cases e : p.next? i with
    | none => exact last i e
    | some j =>
      have := h.forward _ _ e
      exact step i j e (ih j (by omega))

theorem next?_root (h : p.Linked) (i : Nat) : p.next? (p.root i) = none := by
  induction i using h.induction with
  | last i e => rw [root_of_last e]; exact e
  | step i j e ih => rw [root_of_next h e]; exact ih

theorem le_root (h : p.Linked) (i : Nat) : i ≤ p.root i := by
  induction i using h.induction with
  | last i e => rw [root_of_last e]
  | step i j e ih => rw [root_of_next h e]; have := h.forward _ _ e; omega

theorem root_lt_size (h : p.Linked) {i : Nat} (hi : i < p.size) : p.root i < p.size := by
  induction i using h.induction with
  | last i e => rw [root_of_last e]; exact hi
  | step i j e ih => rw [root_of_next h e]; exact ih (h.next_lt_size e)

theorem root_of_mem_chain (h : p.Linked) {i j : Nat} (hj : j ∈ p.chain i) : p.root j = p.root i := by
  induction i using Nat.strongRecOn with
  | ind i ih =>
    cases e : p.prev? i with
    | none =>
      rw [chain_of_first e, List.mem_singleton] at hj
      rw [hj]
    | some k =>
      rw [chain_of_prev h e] at hj
      rcases List.mem_append.mp hj with hj | hj
      · rw [ih k (h.prev_lt e) hj, root_of_prev h e]
      · rw [List.mem_singleton] at hj; rw [hj]

theorem mem_chain_root (h : p.Linked) (i : Nat) : i ∈ p.chain (p.root i) := by
  induction i using h.induction with
  | last i e => rw [root_of_last e]; exact self_mem_chain h i
  | step i j e ih =>
    rw [root_of_next h e]
    exact prev_mem_chain h ih ((h.agree i j).mp e)

/-- The chain of a root holds the nodes with that root. -/
theorem mem_chain_iff (h : p.Linked) {i j : Nat} (hi : p.next? i = none) : j ∈ p.chain i ↔ p.root j = i := by
  constructor
  · intro hj
    rw [root_of_mem_chain h hj, root_of_last hi]
  · rintro rfl
    exact mem_chain_root h j

end LaneScript.Program
