/-
  LaneScript.Image.Digest — the SHA-256 digest of a byte string.

  The message is padded to whole blocks of 64 bytes; each block is expanded into 64
  words that are mixed into a state of eight words, one round a word. A digest is cut
  to its first eight bytes, low byte first, where a single number is wanted.
-/
import LaneScript.Bytes

namespace LaneScript.Digest

structure State where
  a : UInt32
  b : UInt32
  c : UInt32
  d : UInt32
  e : UInt32
  f : UInt32
  g : UInt32
  h : UInt32
  deriving DecidableEq, Repr

/-- The first 32 bits of the fractional parts of the square roots of the first 8 primes. -/
def start : State :=
  ⟨0x6a09e667, 0xbb67ae85, 0x3c6ef372, 0xa54ff53a, 0x510e527f, 0x9b05688c, 0x1f83d9ab, 0x5be0cd19⟩

/-- The first 32 bits of the fractional parts of the cube roots of the first 64 primes. -/
def roundConstants : List UInt32 :=
  [0x428a2f98, 0x71374491, 0xb5c0fbcf, 0xe9b5dba5, 0x3956c25b, 0x59f111f1, 0x923f82a4, 0xab1c5ed5,
   0xd807aa98, 0x12835b01, 0x243185be, 0x550c7dc3, 0x72be5d74, 0x80deb1fe, 0x9bdc06a7, 0xc19bf174,
   0xe49b69c1, 0xefbe4786, 0x0fc19dc6, 0x240ca1cc, 0x2de92c6f, 0x4a7484aa, 0x5cb0a9dc, 0x76f988da,
   0x983e5152, 0xa831c66d, 0xb00327c8, 0xbf597fc7, 0xc6e00bf3, 0xd5a79147, 0x06ca6351, 0x14292967,
   0x27b70a85, 0x2e1b2138, 0x4d2c6dfc, 0x53380d13, 0x650a7354, 0x766a0abb, 0x81c2c92e, 0x92722c85,
   0xa2bfe8a1, 0xa81a664b, 0xc24b8b70, 0xc76c51a3, 0xd192e819, 0xd6990624, 0xf40e3585, 0x106aa070,
   0x19a4c116, 0x1e376c08, 0x2748774c, 0x34b0bcb5, 0x391c0cb3, 0x4ed8aa4a, 0x5b9cca4f, 0x682e6ff3,
   0x748f82ee, 0x78a5636f, 0x84c87814, 0x8cc70208, 0x90befffa, 0xa4506ceb, 0xbef9a3f7, 0xc67178f2]

def rotate (x n : UInt32) : UInt32 := (x >>> n) ||| (x <<< (32 - n))

/-- The next word of a schedule whose newest word comes first. -/
def nextWord (ws : List UInt32) : UInt32 :=
  let x := ws.getD 14 0
  let y := ws.getD 1 0
  let s0 := rotate x 7 ^^^ rotate x 18 ^^^ (x >>> 3)
  let s1 := rotate y 17 ^^^ rotate y 19 ^^^ (y >>> 10)
  ws.getD 15 0 + s0 + ws.getD 6 0 + s1

def expand : (count : Nat) → List UInt32 → List UInt32
  | 0, ws => ws
  | count + 1, ws => expand count (nextWord ws :: ws)

def round (s : State) (kw : UInt32 × UInt32) : State :=
  let s1 := rotate s.e 6 ^^^ rotate s.e 11 ^^^ rotate s.e 25
  let ch := (s.e &&& s.f) ^^^ (~~~s.e &&& s.g)
  let t1 := s.h + s1 + ch + kw.1 + kw.2
  let s0 := rotate s.a 2 ^^^ rotate s.a 13 ^^^ rotate s.a 22
  let maj := (s.a &&& s.b) ^^^ (s.a &&& s.c) ^^^ (s.b &&& s.c)
  ⟨t1 + s0 + maj, s.a, s.b, s.c, s.d + t1, s.e, s.f, s.g⟩

def block (s : State) (words : List UInt32) : State :=
  let t := (roundConstants.zip (expand 48 words.reverse).reverse).foldl round s
  ⟨s.a + t.a, s.b + t.b, s.c + t.c, s.d + t.d, s.e + t.e, s.f + t.f, s.g + t.g, s.h + t.h⟩

/-- Words of four bytes, high byte first. -/
def words : Bytes → List UInt32
  | a :: b :: c :: d :: rest =>
    (a.toUInt32 <<< 24 ||| b.toUInt32 <<< 16 ||| c.toUInt32 <<< 8 ||| d.toUInt32) :: words rest
  | _ => []

/-- The message, a one bit, zeros, and its length in bits as eight bytes, high byte first. -/
def padded (message : Bytes) : Bytes :=
  let length := message.length
  message ++ 0x80 :: List.replicate ((119 - length % 64) % 64) 0 ++ (Bytes.le 8 (8 * length)).reverse

def blocks : (count : Nat) → State → Bytes → State
  | 0, s, _ => s
  | count + 1, s, bytes => blocks count (block s (words (bytes.take 64))) (bytes.drop 64)

def wordBytes (w : UInt32) : Bytes := (Bytes.le 4 w.toNat).reverse

def sha256 (message : Bytes) : Bytes :=
  let bytes := padded message
  let s := blocks (bytes.length / 64) start bytes
  [s.a, s.b, s.c, s.d, s.e, s.f, s.g, s.h].flatMap wordBytes

/-- The first eight bytes of the digest as a number, low byte first. -/
def short (message : Bytes) : UInt64 := UInt64.ofNat (Bytes.ofLe ((sha256 message).take 8))

end LaneScript.Digest
