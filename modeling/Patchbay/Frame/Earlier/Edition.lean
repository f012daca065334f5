import Patchbay.Frame.Header
import Patchbay.Frame.Room

/-! # Earlier formats

Four older formats of frames. They differ from the present one and from each other in their headers,
in the memory they are read into, and in their blocks.
-/

namespace Patchbay.Frame

/-- The formats before the present one, by age. -/
inductive Edition where
  | fourth
  | fifth
  | sixth
  | seventh
  deriving Repr, DecidableEq

namespace Edition

/-- The first byte of a frame tells the formats apart. -/
def ofByte? (b : UInt8) : Option Edition :=
  match b.toNat with
  | 0x24 => some fourth
  | 0x25 => some fifth
  | 0x26 => some sixth
  | 0x27 => some seventh
  | _ => none

/-- The window and whether a checksum follows, and the bytes after the header. -/
def takeHeader (e : Edition) (bs : Bytes) : Option (Header × Bytes) :=
  match e with
  | .seventh => do
    let (h, bs) ← Header.take bs
    -- The size of the content takes the place of the window, and is not looked at otherwise.
    let window := h.window % Nat.pow 256 4
    if 134217728 < window then none
    some ({ h with window := max window 1024 }, bs)
  | .sixth => do
    let (flags, bs) ← takeNumber 1 bs
    if flags / 32 % 2 = 1 then none
    let width := [0, 1, 2, 8].getD (flags / 64) 0
    let (_, bs) ← takeNumber width bs
    some (⟨Nat.pow 2 (12 + flags % 16), none, false⟩, bs)
  | _ => do
    let (flags, bs) ← takeNumber 1 bs
    if 16 ≤ flags then none
    some (⟨Nat.pow 2 (11 + flags), none, false⟩, bs)

/-- How much room there has to be for another block. -/
def step (e : Edition) (window : Nat) : Nat :=
  match e with
  | .sixth | .seventh => min window blockLimit
  | _ => blockLimit

/-- The memory for a frame, given what is left from the last one. -/
def room (e : Edition) (window : Nat) (last : Room) : Room :=
  match e with
  | .sixth | .seventh => last.extend (e.step window) (window + e.step window + 16)
  | _ => last.extend blockLimit window

end Edition

end Patchbay.Frame
