import Patchbay.Frame.Bytes

/-! # Checksums

The 64-bit xxHash of bytes, with seed zero. Four accumulators take stripes of 32 bytes in turn; what
is left is mixed in afterwards.
-/

namespace Patchbay.Frame.Checksum

/-! ### Constants -/

def prime₁ : UInt64 := 0x9e3779b185ebca87

def prime₂ : UInt64 := 0xc2b2ae3d27d4eb4f

def prime₃ : UInt64 := 0x165667b19e3779f9

def prime₄ : UInt64 := 0x85ebca77c2b2ae63

def prime₅ : UInt64 := 0x27d4eb2f165667c5

/-! ### Words -/

/-- The bits of a word moved up by `k`, where the highest come back below. -/
def rotate (x : UInt64) (k : UInt64) : UInt64 :=
  UInt64.lor (UInt64.shiftLeft x k) (UInt64.shiftRight x (64 - k))

/-- A word with its upper bits mixed into the lower ones. -/
def fold (x : UInt64) (k : UInt64) : UInt64 := UInt64.xor x (UInt64.shiftRight x k)

/-- The word that bytes stand for. -/
def word (bs : Bytes) : UInt64 := UInt64.ofNat (ofLittleEndian bs)

/-- An accumulator after a word. -/
def mix (acc x : UInt64) : UInt64 := rotate (acc + x * prime₂) 31 * prime₁

/-! ### The hash -/

/-- The four accumulators. -/
structure Lanes where
  a : UInt64
  b : UInt64
  c : UInt64
  d : UInt64
  deriving Repr, DecidableEq

namespace Lanes

def initial : Lanes := ⟨prime₁ + prime₂, prime₂, 0, 0 - prime₁⟩

/-- The accumulators after so many stripes, and the bytes after them. -/
def absorb : Nat → Lanes → Bytes → Lanes × Bytes
  | 0, l, bs => (l, bs)
  | n + 1, l, bs =>
    absorb n
      ⟨mix l.a (word (bs.take 8)), mix l.b (word ((bs.drop 8).take 8)),
        mix l.c (word ((bs.drop 16).take 8)), mix l.d (word ((bs.drop 24).take 8))⟩
      (bs.drop 32)

/-- The accumulators as one word. -/
def merge (l : Lanes) : UInt64 :=
  [l.a, l.b, l.c, l.d].foldl (fun h x => UInt64.xor h (mix 0 x) * prime₁ + prime₄)
    (rotate l.a 1 + rotate l.b 7 + rotate l.c 12 + rotate l.d 18)

end Lanes

/-- Mixes in single bytes. -/
def mixBytes (h : UInt64) (bs : Bytes) : UInt64 :=
  bs.foldl (fun h b => rotate (UInt64.xor h (UInt64.ofNat b.toNat * prime₅)) 11 * prime₁) h

/-- Mixes in what is left of less than eight bytes: four of them at once, then the others. -/
def mixShort (h : UInt64) (bs : Bytes) : UInt64 :=
  if bs.length < 4 then mixBytes h bs
  else
    mixBytes (rotate (UInt64.xor h (word (bs.take 4) * prime₁)) 23 * prime₂ + prime₃) (bs.drop 4)

/-- Mixes in so many words of eight bytes, then what is left. -/
def mixWords : Nat → UInt64 → Bytes → UInt64
  | 0, h, bs => mixShort h bs
  | n + 1, h, bs =>
    mixWords n (rotate (UInt64.xor h (mix 0 (word (bs.take 8)))) 27 * prime₁ + prime₄) (bs.drop 8)

/-- The hash of bytes. -/
def hash (bs : Bytes) : UInt64 :=
  let size := bs.length
  let (lanes, rest) := Lanes.absorb (size / 32) .initial bs
  let h := if 32 ≤ size then lanes.merge else prime₅
  let h := mixWords (size % 32 / 8) (h + UInt64.ofNat size) rest
  fold (fold (fold h 33 * prime₂) 29 * prime₃) 32

end Patchbay.Frame.Checksum
