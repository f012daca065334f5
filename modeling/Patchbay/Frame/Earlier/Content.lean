import Patchbay.Frame.Block
import Patchbay.Frame.Checksum
import Patchbay.Frame.Earlier.Symbols
import Patchbay.Frame.Earlier.Words

/-! # The content of frames of earlier formats

A frame is a header and blocks. Each block is stored or compressed. A last one has no content but
may hold a checksum, and a block without bytes is a last one too.
-/

namespace Patchbay.Frame

/-! ### Blocks -/

/-- A block of an earlier format. -/
structure EarlierBlock where
  isStored : Bool
  bytes : Bytes
  deriving Repr, DecidableEq

namespace EarlierBlock

/-- The blocks before the last one, the number that the last one holds, and the bytes after it.
Their bytes have to find room. -/
def takeAll (total : Nat) (room : Room) :
    Nat → Bytes → Option (List EarlierBlock × Option Nat × Bytes)
  | 0, _ => none
  | fuel + 1, bs => do
    let (header, bs) ← takeBytes 3 bs
    let n := ofBigEndian header
    let size := n % Nat.pow 2 19
    match n / Nat.pow 2 22 with
    | 2 => none
    | 3 => some ([], some (n % Nat.pow 2 22), bs)
    | form =>
      if size = 0 then some ([], none, bs)
      else if !room.holds (total - bs.length) size then none
      else
        let (bytes, bs) ← takeBytes size bs
        let (blocks, last, bs) ← takeAll total room fuel bs
        some (⟨form = 1, bytes⟩ :: blocks, last, bs)

end EarlierBlock

namespace Edition

/-- Whether a compressed block is too large. -/
def isTooLarge (e : Edition) (size : Nat) : Bool :=
  if e = .fourth then blockLimit < size else blockLimit ≤ size

/-- What is known after some blocks, and one more. -/
def advance? (e : Edition) (step : Nat) (p : Block.Progress) (b : EarlierBlock) :
    Option Block.Progress :=
  if b.isStored then
    (Target.store? ⟨p.ring, p.ring.stop⟩ b.bytes.toArray p.content).map fun content =>
      ⟨p.ring.turn content step, p.carry, content⟩
  else if e.isTooLarge b.bytes.length then none
  else do
    let l ← e.takeLiterals p.carry.code b.bytes
    let s ← e.readSteps p.carry.tables p.carry.distances l.rest
    let (ring, content) ← Draft.run? e l s.steps ⟨p.ring, p.content, 0⟩
    some ⟨ring.turn content step, ⟨l.code, s.tables, s.distances⟩, content⟩

/-! ### Frames -/

/-- The part of the hash of content that a frame holds. -/
def checksum (content : Bytes) : Nat :=
  (Checksum.hash content).toNat / Nat.pow 2 11 % Nat.pow 2 22

/-- The content of a frame without its magic bytes, the memory that is left, and the bytes after the
frame. It is given how many bytes there are in all. -/
def unpackFrame (e : Edition) (total : Nat) (room : Room) (bs : Bytes) :
    Option (Bytes × Room × Bytes) := do
  let (h, tail) ← e.takeHeader bs
  let room := e.room h.window room
  let (blocks, last, tail) ← EarlierBlock.takeAll total room tail.length tail
  let p ← blocks.foldlM (e.advance? (e.step h.window)) ⟨.ofSize room.output, .initial, #[]⟩
  let content := p.content.toList
  if h.hasChecksum ∧ !last.all (· = checksum content) then none
  else some (content, room, tail)

end Edition

end Patchbay.Frame
