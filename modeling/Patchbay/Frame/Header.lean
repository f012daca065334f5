import Patchbay.Frame.Bytes

/-! # Headers

What stands at the front of a frame. A header says how far back copies reach (the window), whether a
checksum follows, and it may give the size of the content.
-/

namespace Patchbay.Frame

/-- No block has more content. -/
def blockLimit : Nat := 131072

/-- Content of at most so many bytes is read in one piece. -/
def pieceLimit : Nat := 8192

/-- A frame that is read block by block has no larger window. -/
def windowLimit : Nat := 134217729

structure Header where
  window : Nat
  /-- The size of the content, if it is given. -/
  size : Option Nat
  hasChecksum : Bool
  deriving Repr, DecidableEq

namespace Header

/-- A window: a power of two and up to seven eighths of it more. -/
def windowOf (n : Nat) : Nat :=
  Nat.pow 2 (10 + n / 8) + Nat.pow 2 (7 + n / 8) * (n % 8)

/-- The number in which a header gives the size of the content, and the bytes after it. How many
bytes it has depends on a code; one is needed if there is no window to make up for it. -/
def takeSize (code : Nat) (single : Bool) (bs : Bytes) : Option (Option Nat × Bytes) :=
  match code, single with
  | 0, false => some (none, bs)
  | 0, true => (takeNumber 1 bs).map fun p => (some p.1, p.2)
  | 1, _ => (takeNumber 2 bs).map fun p => (some (p.1 + 256), p.2)
  | 2, _ => (takeNumber 4 bs).map fun p => (some p.1, p.2)
  | _, _ => (takeNumber 8 bs).map fun p => (some p.1, p.2)

/-- A header without its magic bytes, and the bytes after it. No dictionary can be asked for.
Without a window copies reach as far back as the size says. The largest number says that the size is
unknown. -/
def take (bs : Bytes) : Option (Header × Bytes) := do
  let (flags, bs) ← takeNumber 1 bs
  let single := flags / 32 % 2 = 1
  if flags / 8 % 2 = 1 then none
  let (window, bs) ← if single then some (0, bs) else takeNumber 1 bs
  let (dictionary, bs) ←
    match flags % 4 with
    | 3 => takeNumber 4 bs
    | k => takeNumber k bs
  let (size, bs) ← takeSize (flags / 64) single bs
  if dictionary ≠ 0 ∨ 31 < 10 + window / 8 then none
  some
    ({ window := if single then size.getD 0 else windowOf window
       size := size.filter (· + 1 ≠ Nat.pow 256 8)
       hasChecksum := flags / 4 % 2 = 1 }, bs)

/-- The size of the content, if it is small. -/
def pieceSize? (h : Header) : Option Nat := h.size.filter (· ≤ pieceLimit)

/-- The largest compressed block, and the largest number of its literals. -/
def blockSize (h : Header) : Nat := min h.window blockLimit

/-- The size of the memory that is needed to read the frame block by block. -/
def ringSize (h : Header) : Nat :=
  let needed := max h.window 1024 + 2 * h.blockSize + 64
  (h.size.map (min needed)).getD needed

/-- Whether the frame can be read block by block. -/
def isReadable (h : Header) : Bool := max h.window 1024 ≤ windowLimit

end Header

end Patchbay.Frame
