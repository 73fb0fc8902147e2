/-
  LaneScript.Cache — packed images kept by what they were compiled from.

  A request is a stream, the number of the host's functions and the settings; its key
  is a short digest of these. A hit gives back the buffer kept under the key and
  changes no order; a miss compiles, and only a success is kept. The oldest insertion
  makes room for the newest.
-/
import LaneScript.Compile
import LaneScript.Image.Pack

namespace LaneScript

structure Request where
  code : Bytes
  functions : UInt32 := 0
  settings : Settings := {}
  deriving DecidableEq, Repr, Inhabited

namespace Request

def flagByte (b : Bool) : UInt8 := if b then 1 else 0

def preimage (r : Request) : Bytes :=
  Bytes.le 4 r.functions.toNat ++
    [flagByte r.settings.fold, flagByte r.settings.prune, r.settings.groupLimit] ++
    Bytes.le 8 r.settings.registerLimit.toNat ++ r.code

def key (r : Request) : UInt64 := Digest.short r.preimage

def pack (r : Request) : Except Compile.Error Bytes :=
  match compile r.code r.functions r.settings with
  | .error e => .error e
  | .ok c => .ok c.image.pack

end Request

structure Cache.Entry where
  key : UInt64
  /-- How many insertions went before. -/
  serial : Nat
  buffer : Bytes
  deriving DecidableEq, Repr, Inhabited

structure Cache where
  /-- At least 1. -/
  capacity : Nat
  /-- Newest first. -/
  entries : List Cache.Entry := []
  hits : Nat := 0
  misses : Nat := 0
  /-- Insertions since the cache was made. -/
  inserted : Nat := 0
  deriving DecidableEq, Repr, Inhabited

namespace Cache

def defaultCapacity : Nat := 1024

def size (c : Cache) : Nat := c.entries.length

def find? (c : Cache) (key : UInt64) : Option Entry := c.entries.find? (·.key == key)

/-- Keeps a buffer, dropping the oldest one if there is no room. -/
def insert (c : Cache) (key : UInt64) (buffer : Bytes) : Cache × Entry :=
  let entry : Entry := ⟨key, c.inserted, buffer⟩
  ({ c with entries := (entry :: c.entries).take c.capacity, inserted := c.inserted + 1 }, entry)

def get (c : Cache) (r : Request) : Cache × Except Compile.Error Entry :=
  match c.find? r.key with
  | some entry => ({ c with hits := c.hits + 1 }, .ok entry)
  | none =>
    let c := { c with misses := c.misses + 1 }
    match r.pack with
    | .error e => (c, .error e)
    | .ok buffer =>
      let (c, entry) := c.insert r.key buffer
      (c, .ok entry)

def clear (c : Cache) : Cache := { c with entries := [], hits := 0, misses := 0 }

def describe (c : Cache) : String :=
  "FrozenCache \x7b len: " ++ toString c.size ++ ", stats: FrozenCacheStats \x7b hits: " ++ toString c.hits ++
    ", misses: " ++ toString c.misses ++ " \x7d \x7d"

end Cache

end LaneScript
