import Patchbay.Frame.Bytes

/-! # Bits

Ways of taking bits off bytes. Entropy-coded data is a `BitStack`, which is read from its end. Where
it may end too early it is taken as `LooseBits`, which come round again. The description of a state
table is a `BitQueue`, which is read from its beginning and may end inside a byte.
-/

namespace Patchbay.Frame

/-- The lowest `count` bits of a number, to be taken from the top. -/
structure BitStack where
  value : Nat
  count : Nat
  deriving Repr, DecidableEq

namespace BitStack

/-- The bits of bytes below the highest one that is set, which marks their end. -/
def ofBytes? (bs : Bytes) : Option BitStack :=
  if bs.getLast?.all (· = 0) then none
  else
    let n := ofLittleEndian bs
    let count := n.log2
    some ⟨n - Nat.pow 2 count, count⟩

/-- The bits of bytes below the highest one of the last byte, or all of them if it has none. -/
def ofAll (bs : Bytes) : BitStack :=
  let n := ofLittleEndian bs
  let count := if bs.getLast?.any (· = 0) then 8 * bs.length else n.log2
  ⟨n % Nat.pow 2 count, count⟩

/-- The number that the next `k` bits are, and the bits after them. -/
def take? (s : BitStack) (k : Nat) : Option (Nat × BitStack) :=
  if k ≤ s.count then
    let below := Nat.pow 2 (s.count - k)
    some (s.value / below, ⟨s.value % below, s.count - k⟩)
  else none

/-- The number that the next `k` bits are; bits that are missing count as zero. -/
def peek (s : BitStack) (k : Nat) : Nat :=
  if k ≤ s.count then s.value / Nat.pow 2 (s.count - k)
  else s.value * Nat.pow 2 (k - s.count)

/-- Whether all bits have been taken. -/
def isEmpty (s : BitStack) : Bool := s.count = 0

end BitStack

/-- Bits that may be taken beyond their end. Bits that straddle the end are filled up with zeros,
and further bits come from the first eight bytes again, from the top. -/
structure LooseBits where
  stack : BitStack
  /-- The number that the first eight bytes are. -/
  first : Nat
  /-- How many bits have been taken beyond the end. -/
  beyond : Nat
  deriving Repr, DecidableEq

namespace LooseBits

/-- The bits of bytes below the highest one that is set, which marks their end. -/
def ofBytes? (bs : Bytes) : Option LooseBits :=
  (BitStack.ofBytes? bs).map fun s => ⟨s, ofLittleEndian (bs.take 8), 0⟩

/-- The bits of bytes below the highest one of the last byte, or all of them if it has none. -/
def ofAll (bs : Bytes) : LooseBits := ⟨.ofAll bs, ofLittleEndian (bs.take 8), 0⟩

/-- The number that the next `k` bits are; they stay. -/
def peek (s : LooseBits) (k : Nat) : Nat :=
  if s.stack.isEmpty then
    let below := Nat.pow 2 (64 - s.beyond % 64)
    s.first % below * Nat.pow 2 k / below
  else s.stack.peek k

/-- The bits after the next `k`. -/
def skip (s : LooseBits) (k : Nat) : LooseBits :=
  match s.stack.take? k with
  | some (_, stack) => { s with stack }
  | none => { s with stack := ⟨0, 0⟩, beyond := s.beyond + (k - s.stack.count) }

/-- The number that the next `k` bits are, and the bits after them. -/
def take (s : LooseBits) (k : Nat) : Nat × LooseBits := (s.peek k, s.skip k)

/-- Whether bits have been taken beyond the end. -/
def isOver (s : LooseBits) : Bool := 0 < s.beyond

/-- Whether all bits have been taken, and no others. -/
def isExact (s : LooseBits) : Bool := s.stack.isEmpty && !s.isOver

end LooseBits

/-- The bits of a number, to be taken from the bottom, and how many have been taken. After the last
bit there are zeros. -/
structure BitQueue where
  value : Nat
  used : Nat
  deriving Repr, DecidableEq

namespace BitQueue

/-- The number that the next `k` bits are; they stay. -/
def peek (q : BitQueue) (k : Nat) : Nat := q.value % Nat.pow 2 k

/-- The bits after the next `k`. -/
def skip (q : BitQueue) (k : Nat) : BitQueue := ⟨q.value / Nat.pow 2 k, q.used + k⟩

/-- How many bytes the bits that have been taken reach into. -/
def usedBytes (q : BitQueue) : Nat := (q.used + 7) / 8

end BitQueue

end Patchbay.Frame
