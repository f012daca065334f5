import Patchbay.Frame.PrefixCode

/-! # Reading under a code

Bytes are read off bits one by one or, where that takes less time, by pairs: two bytes at once if
their codes are short. This gives the same bytes, but at the end of a stream a pair may go further
than what is there (`CodeReader.decodeMore`).
-/

namespace Patchbay.Frame

/-- A code that has been prepared for reading. -/
structure CodeReader where
  code : PrefixCode
  /-- How many bits a pair may have, if bytes are read by pairs. -/
  pairs : Option Nat
  deriving Repr, DecidableEq

namespace CodeReader

/-! ### What takes less time -/

/-- How long reading takes: the time to prepare and the time for 256 bytes. -/
structure Cost where
  start : Nat
  each : Nat
  deriving Repr, DecidableEq

/-- The time for so many bytes. -/
def Cost.time (c : Cost) (size : Nat) : Nat := c.start + c.each * (size / 256)

/-- Whether so many bytes that are packed into others are read by pairs. There is a list of the
costs of single bytes and of pairs by the sixteenths of the size that the packed bytes have. Pairs
have to save one part of so many. -/
def prefersPairs (costs : List (Cost × Cost)) (part size packed : Nat) : Bool :=
  let (single, pair) := costs.getD (min 15 (packed * 16 / size)) (⟨0, 0⟩, ⟨0, 0⟩)
  pair.time size + pair.time size / part < single.time size

/-! ### Bytes -/

/-- The byte whose code stands at the front of a number of `k` bits, and the length of the code. -/
def find (r : CodeReader) (n k : Nat) : UInt8 × Nat :=
  let log := r.code.log
  r.code.entries.getD (if log ≤ k then n / Nat.pow 2 (k - log) else n * Nat.pow 2 (log - k)) default

/-- The next byte, the one after it if they are read as a pair, and the number of bits for both. -/
def look (r : CodeReader) (s : LooseBits) : UInt8 × Option UInt8 × Nat :=
  match r.pairs with
  | none =>
    let (byte, length) := r.find (s.peek r.code.log) r.code.log
    (byte, none, length)
  | some width =>
    let n := s.peek width
    let (first, length) := r.find n width
    let left := width - length
    let (second, more) := r.find (n % Nat.pow 2 left) left
    if more ≤ left then (first, some second, length + more) else (first, none, length)

/-- Decodes so many bytes and appends them. If a pair is found for the last byte, it takes all bits
of the pair that are there. -/
def decodeMore (r : CodeReader) : Nat → LooseBits → Array UInt8 → Array UInt8 × LooseBits
  | 0, s, out => (out, s)
  | 1, s, out =>
    match r.look s with
    | (first, none, length) => (out.push first, s.skip length)
    | (first, some _, length) => (out.push first, s.skip (min length s.stack.count))
  | n + 2, s, out =>
    match r.look s with
    | (first, none, length) => decodeMore r (n + 1) (s.skip length) (out.push first)
    | (first, some second, length) => decodeMore r n (s.skip length) ((out.push first).push second)

/-- Decodes so many bytes from one stream, which has to end with the last of them, and appends
them. -/
def decode? (r : CodeReader) (count : Nat) (bs : Bytes) (out : Array UInt8) :
    Option (Array UInt8) := do
  let s ← LooseBits.ofBytes? bs
  let (out, s) := r.decodeMore count s out
  if s.isExact then some out else none

end CodeReader

end Patchbay.Frame
