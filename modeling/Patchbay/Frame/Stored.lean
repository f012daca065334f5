import Patchbay.Frame.Header

/-! # Stored frames

Bytes as one frame whose blocks are all stored, so that nothing is compressed. The header gives no
size and a window as large as the largest block.
-/

namespace Patchbay.Frame

/-- The bytes every frame starts with. -/
def magic : Bytes := [0x28, 0xb5, 0x2f, 0xfd]

/-- The flags and the window of a frame of stored blocks. -/
def storedHeader : Bytes := [0x00, 0x38]

/-- The header of a frame of stored blocks. -/
def Header.stored : Header := ⟨131072, none, false⟩

theorem Header.take_storedHeader (bs : Bytes) :
    Header.take (storedHeader ++ bs) = some (.stored, bs) := by
  have h (b : UInt8) (bs : Bytes) : takeNumber 1 (b :: bs) = some (b.toNat, bs) := by
    simp [takeNumber, takeBytes, ofLittleEndian]
  have h0 (bs : Bytes) : takeNumber 0 bs = some (0, bs) := by
    simp [takeNumber, takeBytes, ofLittleEndian]
  simp [Header.take, storedHeader, h, h0, Header.takeSize, Header.windowOf, Header.stored]

/-- The header of a stored block. -/
def blockHeader (isLast : Bool) (size : Nat) : Bytes :=
  littleEndian 3 (size * 8 + if isLast then 1 else 0)

/-- Bytes as stored blocks. -/
def packBlocks (bs : Bytes) : Bytes :=
  if bs.length ≤ blockLimit then blockHeader true bs.length ++ bs
  else blockHeader false blockLimit ++ bs.take blockLimit ++ packBlocks (bs.drop blockLimit)
termination_by bs.length
decreasing_by
  rw [List.length_drop]
  simp only [blockLimit] at *
  omega

/-- Bytes as one frame. -/
def pack (bs : Bytes) : Bytes := magic ++ storedHeader ++ packBlocks bs

end Patchbay.Frame
