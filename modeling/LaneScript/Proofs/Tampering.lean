/-
  LaneScript.Proofs.Tampering — buffers that were cut, extended or stamped anew.

  `loadBy` loads a buffer as `load` does, with any function of the hashed bytes in
  place of the digest. Proved, for every such function (`loadBy_tampered`): of a buffer that
  loads, no proper prefix loads, nor does the buffer with bytes behind it, nor one that differs
  from it in the stored hash alone. The length that the counts give, and that the hash
  does not cover itself, are enough for this; nothing is asked of the digest.
-/
import LaneScript.Proofs.Repack

namespace LaneScript

/-! ## Turned away -/

def Rejects (digest : Bytes → UInt64) (buffer : Bytes) (word : Fault) : Prop :=
  ∃ r, loadBy digest buffer = .error r ∧ r.fault = word

variable {digest : Bytes → UInt64} {buffer other : Bytes} {h : Header} {l : Loaded}

/-- A buffer shorter than a header is turned away as malformed. -/
theorem rejects_of_short (hlen : buffer.length < Header.totalBytes) : Rejects digest buffer (.fatal .bytecode) := by
  refine ⟨.short, ?_, rfl⟩
  rw [loadBy, Header.read?, if_pos hlen]

/-- A buffer that is not as long as its header says is turned away for that. -/
theorem rejects_of_length (hh : Header.read? buffer = some h) (hlen : (Layout.ofHeader h).total.toNat ≠ buffer.length) :
    Rejects digest buffer (.fatal .optimizedBytecode) := by
  refine ⟨.length, ?_, rfl⟩
  rw [loadBy, hh]
  exact if_pos hlen

theorem rejects_of_hash (hh : Header.read? buffer = some h) (hlen : (Layout.ofHeader h).total.toNat = buffer.length)
    (hhash : contentHashBy? digest buffer ≠ some (Header.storedHash buffer)) :
    Rejects digest buffer (.fatal .bytecode) := by
  refine ⟨.hash, ?_, rfl⟩
  rw [loadBy, hh]
  exact (if_neg (Decidable.not_not.mpr hlen)).trans (if_pos hhash)

/-! ## Changed buffers -/

/-- Bytes behind the header do not change what it says. -/
theorem Header.read?_of_take (hh : Header.read? buffer = some h) (hlen : Header.totalBytes ≤ other.length)
    (htake : other.take Header.countBytes = buffer.take Header.countBytes) : Header.read? other = some h := by
  rw [Header.read?_eq_some_iff] at hh ⊢
  exact ⟨hlen, htake.trans hh.2⟩

namespace Load.Outer

/-- A proper prefix has lost its header, or still says the old length. -/
theorem rejects_cut (hb : Outer digest buffer h) (hp : other <+: buffer) (hne : other ≠ buffer) :
    Rejects digest other (if other.length < Header.totalBytes then .fatal .bytecode else .fatal .optimizedBytecode) := by
  by_cases hshort : other.length < Header.totalBytes
  · rw [if_pos hshort]
    exact rejects_of_short hshort
  · rw [if_neg hshort]
    have hlen : Header.totalBytes ≤ other.length := Nat.not_lt.mp hshort
    obtain ⟨lost, rfl⟩ := hp
    have htake : other.take Header.countBytes = (other ++ lost).take Header.countBytes :=
      (List.take_append_of_le_length (Nat.le_trans (by decide) hlen)).symm
    refine rejects_of_length (Header.read?_of_take hb.header hlen htake) ?_
    rw [hb.length]
    intro heq
    exact hne (List.prefix_append other lost |>.eq_of_length heq.symm)

/-- With bytes behind it a buffer still says the old length. -/
theorem rejects_extended (hb : Outer digest buffer h) {extra : Bytes} (hne : extra ≠ []) :
    Rejects digest (buffer ++ extra) (.fatal .optimizedBytecode) := by
  have hlen := (Header.read?_eq_some_iff.mp hb.header).1
  have htake : (buffer ++ extra).take Header.countBytes = buffer.take Header.countBytes :=
    List.take_append_of_le_length (Nat.le_trans (by decide) hlen)
  have hpos := List.length_pos_iff.mpr hne
  have hlonger : (buffer ++ extra).length = buffer.length + extra.length := List.length_append
  refine rejects_of_length (Header.read?_of_take hb.header (by omega) htake) ?_
  rw [hb.length]
  omega

/-- Another hash is not the one of bytes that did not change. -/
theorem rejects_stamped (hb : Outer digest buffer h) (hne : other ≠ buffer)
    (hsame : ∀ i, i < Header.countBytes ∨ Header.fieldBytes ≤ i → other[i]? = buffer[i]?) :
    Rejects digest other (.fatal .bytecode) := by
  have hlen := (Header.read?_eq_some_iff.mp hb.header).1
  have htake : other.take Header.countBytes = buffer.take Header.countBytes := by
    apply List.ext_getElem?
    intro i
    by_cases hi : i < Header.countBytes
    · rw [List.getElem?_take_of_lt hi, List.getElem?_take_of_lt hi, hsame i (.inl hi)]
    · rw [List.getElem?_take_eq_none (Nat.not_lt.mp hi), List.getElem?_take_eq_none (Nat.not_lt.mp hi)]
  have hdrop : other.drop Header.fieldBytes = buffer.drop Header.fieldBytes := by
    apply List.ext_getElem?
    intro i
    rw [List.getElem?_drop, List.getElem?_drop, hsame _ (.inr (Nat.le_add_right _ _))]
  have hlength : other.length = buffer.length := by
    have hback := congrArg List.length hdrop
    rw [List.length_drop, List.length_drop] at hback
    unfold Header.totalBytes at hlen
    unfold Header.fieldBytes at hback
    omega
  have hlen' : Header.totalBytes ≤ other.length := hlength ▸ hlen
  have hcontent : contentHashBy? digest other = contentHashBy? digest buffer := by
    rw [contentHashBy?, contentHashBy?, hlength, htake, hdrop]
  refine rejects_of_hash (Header.read?_of_take hb.header hlen' htake) (hb.length.trans hlength.symm) ?_
  rw [hcontent, hb.hash]
  intro heq
  -- With the same hash between the same bytes the two buffers are one.
  apply hne
  rw [← around_storedHash hlen', ← around_storedHash hlen, htake, hdrop, Option.some.inj heq]

end Load.Outer

/-- Of a buffer that loads under some digest, `load` using one of them, what was cut off or added is noticed by its length,
    and another hash by the bytes that it is not the hash of. -/
theorem loadBy_tampered : loadBy Digest.short = load ∧ ∀ (digest : Bytes → UInt64) (buffer : Bytes) (l : Loaded),
    loadBy digest buffer = .ok l →
      (∀ cut, cut <+: buffer → cut ≠ buffer → Rejects digest cut
        (if cut.length < Header.totalBytes then .fatal .bytecode else .fatal .optimizedBytecode)) ∧
      (∀ extra, extra ≠ [] → Rejects digest (buffer ++ extra) (.fatal .optimizedBytecode)) ∧
      ∀ other, other ≠ buffer → (∀ i, i < Header.countBytes ∨ Header.fieldBytes ≤ i → other[i]? = buffer[i]?) →
        Rejects digest other (.fatal .bytecode) := by
  refine ⟨loadBy_short, ?_⟩
  intro digest buffer l hl
  have hb := (Load.loadBy_ok_iff.mp hl).outer
  exact ⟨fun _ hp hne => hb.rejects_cut hp hne, fun _ hne => hb.rejects_extended hne,
    fun _ hne hsame => hb.rejects_stamped hne hsame⟩

/-- The small image with zeros for its hash, as a digest that is always zero has it. -/
def unhashed : Bytes :=
  smallImage.synced.encode ++ List.replicate (Header.totalBytes - Header.countBytes) 0 ++ smallImage.body

theorem loadBy_tampered_unhashed : (loadBy (fun _ => 0) unhashed).isOk = true ∧ unhashed.length = 192 ∧
    Rejects (fun _ => 0) (unhashed.take 63) (.fatal .bytecode) ∧
    Rejects (fun _ => 0) (unhashed.take 191) (.fatal .optimizedBytecode) ∧
    Rejects (fun _ => 0) (unhashed ++ [0]) (.fatal .optimizedBytecode) ∧
    Rejects (fun _ => 0) (unhashed.set 50 1) (.fatal .bytecode) := by
  have hok : (loadBy (fun _ => 0) unhashed).isOk = true := by decide +kernel
  have hlen : unhashed.length = 192 := by decide +kernel
  have hset : unhashed.set 50 1 ≠ unhashed := by decide +kernel
  have htake (n : Nat) (hn : n < 192) : (unhashed.take n).length = n ∧ unhashed.take n ≠ unhashed := by
    have hcut : (unhashed.take n).length = n := by
      rw [List.length_take, hlen, Nat.min_eq_left (Nat.le_of_lt hn)]
    refine ⟨hcut, ?_⟩
    intro heq
    rw [heq, hlen] at hcut
    omega
  cases hl : loadBy (fun _ => 0) unhashed with
  | error r =>
    rw [hl] at hok
    cases hok
  | ok l =>
    obtain ⟨hcut, hextended, hstamped⟩ := loadBy_tampered.2 _ _ l hl
    have hheader := hcut _ (List.take_prefix 63 _) (htake 63 (by decide)).2
    have hbody := hcut _ (List.take_prefix 191 _) (htake 191 (by decide)).2
    rw [(htake 63 (by decide)).1] at hheader
    rw [(htake 191 (by decide)).1] at hbody
    refine ⟨rfl, hlen, hheader, hbody, hextended _ (List.cons_ne_nil _ _), hstamped _ hset ?_⟩
    intro i hi
    have hne : 50 ≠ i := by
      unfold Header.countBytes Header.fieldBytes at hi
      omega
    exact List.getElem?_set_ne hne

end LaneScript
