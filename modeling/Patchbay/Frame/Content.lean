import Patchbay.Frame.Block
import Patchbay.Frame.Checksum
import Patchbay.Frame.Earlier.Content
import Patchbay.Frame.Stored

/-! # The content of frames

Bytes as the frames that they consist of: Zstandard frames of the present format and of some earlier
ones, and frames to be skipped. All that is no frame, or only the beginning of one, is refused, and
so is a frame that contradicts its own header or checksum. What is packed is unpacked again
(`unpack_pack`).
-/

namespace Patchbay.Frame

/-! ### One frame -/

/-- Whether content has the size that the header gives. Block by block this is not looked at if the
last block has no bytes. -/
def Header.accepts (h : Header) (piece : Option Nat) (endsEmpty : Bool) (count : Nat) : Bool :=
  (piece.isNone && endsEmpty) || h.size.all (· = count)

/-- The checksum of a frame, if it has one, and the bytes after it. -/
def takeChecksum (h : Header) (bs : Bytes) : Option (Option Nat × Bytes) :=
  if h.hasChecksum then (takeNumber 4 bs).map fun p => (some p.1, p.2) else some (none, bs)

/-- How a frame is read, and the memory for it. Small content is read in one piece if all its frame
is at hand; otherwise there has to be room for another block after each one, unless there is room
for all the content. -/
def Header.manner? (h : Header) (whole : Bool) (room : Room) : Option (Manner × Room × Nat) :=
  match if whole then h.pieceSize? else none with
  | some n => some (⟨h.blockSize, some n, 0⟩, room, n)
  | none =>
    if !h.isReadable then none
    else
      let room := room.renew (max h.blockSize 4) h.ringSize
      let step := if h.size.all (room.output < ·) then h.blockSize else 0
      some (⟨h.blockSize, none, step⟩, room, room.output)

/-- The content of a frame without its magic bytes, the memory that is left, and the bytes after the
frame. It is given how many bytes there are in all. -/
def unpackFrame (total : Nat) (room : Room) (bs : Bytes) : Option (Bytes × Room × Bytes) := do
  let (h, tail) ← Header.take bs
  let (blocks, tail) ← Block.takeAll tail
  let (checksum, tail) ← takeChecksum h tail
  let whole := isOnePortion (total - (bs.length + 4)) (total - tail.length)
  let (manner, room, size) ← h.manner? whole room
  let content ← Block.expandAll? manner size blocks
  let endsEmpty := blocks.getLast?.any (·.bytes.isEmpty)
  if !h.accepts manner.piece endsEmpty content.size then none
  let content := content.toList
  if checksum.all (· = (Checksum.hash content).toNat % Nat.pow 256 4) then
    some (content, room, tail)
  else none

/-! ### Many frames -/

/-- What the magic bytes say about the frame. -/
inductive FrameKind where
  | present
  | earlier (e : Edition)
  | skipped
  deriving Repr, DecidableEq

/-- The kind of a frame by its first four bytes. -/
def FrameKind.ofMagic? : Bytes → Option FrameKind
  | [a, 0xb5, 0x2f, 0xfd] => if a = 0x28 then some present else (Edition.ofByte? a).map earlier
  | [a, 0x2a, 0x4d, 0x18] => if a.toNat / 16 = 5 then some skipped else none
  | _ => none

/-- The bytes after a skipped frame without its magic bytes. -/
def skipFrame (bs : Bytes) : Option Bytes := do
  let (size, bs) ← takeNumber 4 bs
  let (_, bs) ← takeBytes size bs
  some bs

/-- The memory that frames are read into; there is only one for all earlier formats. -/
structure Rooms where
  present : Room
  earlier : Option (Edition × Room)
  deriving Repr, DecidableEq

namespace Rooms

/-- Before the first frame there is no memory. -/
def initial : Rooms := ⟨.none, none⟩

/-- The memory for frames of an earlier format, which is new if the last one was of another format.
-/
def ofEdition (r : Rooms) (e : Edition) : Room :=
  match r.earlier with
  | some (last, room) => if last = e then room else .none
  | none => .none

end Rooms

/-- The content of the first frame, the memory that is left, and the bytes after the frame. The
first bytes of a frame of an earlier format have to be at hand at once. -/
def unpackOne (total : Nat) (rooms : Rooms) (bs : Bytes) : Option (Bytes × Rooms × Bytes) := do
  let (head, tail) ← takeBytes 4 bs
  match ← FrameKind.ofMagic? head with
  | .present =>
    let (content, room, tail) ← unpackFrame total rooms.present tail
    some (content, { rooms with present := room }, tail)
  | .earlier e =>
    if portionRest (total - bs.length) < 5 then none
    let (content, room, tail) ← e.unpackFrame total (rooms.ofEdition e) tail
    some (content, { rooms with earlier := some (e, room) }, tail)
  | .skipped => (skipFrame tail).map fun tail => ([], rooms, tail)

/-- The content of frames. The number bounds how many there are. -/
def unpackMany (total : Nat) : Nat → Rooms → Bytes → Option Bytes
  | _, _, [] => some []
  | 0, _, _ => none
  | n + 1, rooms, bs => do
    let (content, rooms, bs) ← unpackOne total rooms bs
    let others ← unpackMany total n rooms bs
    some (content ++ others)

/-- The content of all frames that the bytes consist of. -/
def unpack (bs : Bytes) : Option Bytes := unpackMany bs.length bs.length .initial bs

/-! ### What is packed -/

/-- A stored block is taken off the front again. -/
theorem Block.take_blockHeader (isLast : Bool) (bs rest : Bytes) (h : bs.length ≤ blockLimit) :
    Block.take (blockHeader isLast bs.length ++ (bs ++ rest)) =
      some (⟨.stored, isLast, bs.length, bs⟩, rest) := by
  have hn : bs.length * 8 + (if isLast then 1 else 0) < Nat.pow 256 3 := by
    change _ < 16777216
    simp only [blockLimit] at h
    split <;> omega
  have hf : (bs.length * 8 + (if isLast then 1 else 0)) / 2 % 4 = 0 := by
    split <;> omega
  have hs : (bs.length * 8 + (if isLast then 1 else 0)) / 8 = bs.length := by
    split <;> omega
  have hl : decide ((bs.length * 8 + (if isLast then 1 else 0)) % 2 = 1) = isLast := by
    cases isLast <;> simp <;> omega
  rw [Block.take, blockHeader, takeNumber_littleEndian hn]
  simp only [Option.bind_eq_bind, Option.bind_some, hf, hs, hl, takeBytes_append, Option.map_some]

/-- How a frame of stored blocks is read. -/
def Manner.stored : Manner := ⟨blockLimit, none, blockLimit⟩

/-- The memory for a frame of stored blocks. -/
def Room.stored : Room := ⟨blockLimit, Header.stored.ringSize⟩

theorem Header.manner?_stored (whole : Bool) :
    Header.stored.manner? whole .none = some (.stored, .stored, Header.stored.ringSize) := by
  cases whole <;> rfl

/-- As long as there is room for another block a stored block adds its bytes, and there is room
again. -/
theorem Block.advance?_stored {b : Block} {p : Progress} (hform : b.form = .stored)
    (hsize : b.bytes.length ≤ blockLimit) (hring : blockLimit ≤ p.ring.size)
    (hroom : p.content.size + blockLimit ≤ p.ring.stop) :
    ∃ ring : Ring, b.advance? .stored p = some ⟨ring, p.carry, p.content ++ b.bytes.toArray⟩ ∧
      blockLimit ≤ ring.size ∧ (p.content ++ b.bytes.toArray).size + blockLimit ≤ ring.stop := by
  refine ⟨p.ring.turn (p.content ++ b.bytes.toArray) blockLimit, ?_, ?_, Ring.le_stop_turn hring _⟩
  · have : ¬ (Block.target .stored p.ring p.content).ceiling
        < p.content.size + b.bytes.toArray.size := by
      simp only [Block.target, Manner.stored, List.size_toArray, Option.isSome_none,
        Bool.false_eq_true, if_false]
      omega
    have hfits : b.isTooLarge .stored = false := by
      rw [Bool.eq_false_iff]
      intro h
      simp only [Block.isTooLarge, Manner.stored, Bool.and_eq_true] at h
      exact absurd (of_decide_eq_true h.2) (Nat.not_lt.2 hsize)
    simp only [Block.advance?, Block.expand?, hform, hfits, Target.store?, if_neg this,
      Bool.false_eq_true, if_false, Option.map_some, Option.bind_eq_bind, Option.bind_some]
    rfl
  · rw [Ring.size_turn]
    exact hring

/-- Packed blocks are taken again and hold what was packed. -/
theorem takeAll_packBlocks (bs : Bytes) :
    ∃ blocks, Block.takeAll (packBlocks bs) = some (blocks, []) ∧
      ∀ p : Block.Progress, blockLimit ≤ p.ring.size →
        p.content.size + blockLimit ≤ p.ring.stop →
        (blocks.foldlM (Block.advance? .stored) p).map (·.content) = some (p.content ++ bs.toArray) := by
  induction hlen : bs.length using Nat.strongRecOn generalizing bs with
  | ind n ih =>
    rw [packBlocks]
    split
    next h =>
      refine ⟨[⟨.stored, true, bs.length, bs⟩], ?_, fun p hring hroom => ?_⟩
      · have := Block.take_blockHeader true bs [] h
        rw [List.append_nil] at this
        rw [Block.takeAll_of_take this]
        rfl
      · obtain ⟨ring, hp, -, -⟩ :=
          Block.advance?_stored (b := ⟨.stored, true, bs.length, bs⟩) rfl h hring hroom
        rw [List.foldlM_cons, hp]
        rfl
    next h =>
      have hb : (bs.take blockLimit).length = blockLimit := by
        rw [List.length_take]; omega
      obtain ⟨blocks, htake, hfold⟩ := ih (bs.drop blockLimit).length
        (by rw [List.length_drop]; simp only [blockLimit] at *; omega) _ rfl
      refine ⟨⟨.stored, false, blockLimit, bs.take blockLimit⟩ :: blocks, ?_,
        fun p hring hroom => ?_⟩
      · have := Block.take_blockHeader false (bs.take blockLimit) (packBlocks (bs.drop blockLimit))
          (by omega)
        rw [hb] at this
        rw [List.append_assoc, Block.takeAll_of_take this]
        simp [htake]
      · obtain ⟨ring, hp, hring', hroom'⟩ := Block.advance?_stored
          (b := ⟨.stored, false, blockLimit, bs.take blockLimit⟩) rfl (by simp only; omega)
          hring hroom
        rw [List.foldlM_cons, hp, Option.bind_eq_bind, Option.bind_some,
          hfold ⟨ring, p.carry, p.content ++ (bs.take blockLimit).toArray⟩ hring' hroom']
        have : p.content ++ (bs.take blockLimit).toArray ++ (bs.drop blockLimit).toArray
            = p.content ++ bs.toArray := by
          apply Array.toList_inj.1
          simp
        simp only [this]

/-- What is packed is unpacked again. -/
theorem unpack_pack (bs : Bytes) : unpack (pack bs) = some bs := by
  obtain ⟨blocks, htake, hfold⟩ := takeAll_packBlocks bs
  have hframe (total : Nat) :
      unpackFrame total .none (storedHeader ++ packBlocks bs) = some (bs, .stored, []) := by
    have hexpand : Block.expandAll? .stored Header.stored.ringSize blocks = some bs.toArray := by
      rw [Block.expandAll?, hfold]
      · simp
      · decide
      · decide
    simp only [unpackFrame, Header.take_storedHeader, htake, Option.bind_eq_bind, Option.bind_some,
      takeChecksum, Header.manner?_stored, hexpand]
    simp [Header.accepts, Header.stored]
  have hone : unpackOne (pack bs).length .initial (pack bs) =
      some (bs, { Rooms.initial with present := .stored }, []) := by
    rw [unpackOne]
    conv => lhs; enter [1]; rw [pack, List.append_assoc]
    have := takeBytes_append magic (storedHeader ++ packBlocks bs)
    rw [show 4 = magic.length from rfl, this]
    simp only [Option.bind_eq_bind, Option.bind_some]
    rw [show FrameKind.ofMagic? magic = some .present from rfl]
    simp only [Option.bind_some]
    rw [show Rooms.initial.present = Room.none from rfl, hframe]
    rfl
  have hsize : (pack bs).length = (storedHeader ++ packBlocks bs).length + 3 + 1 := by
    rw [pack, List.append_assoc, List.length_append]
    simp only [magic, List.length_cons, List.length_nil]
    omega
  have hmany (n : Nat) : unpackMany (pack bs).length (n + 1) .initial (pack bs) = some bs := by
    rw [unpackMany, hone]
    · cases n <;> simp [unpackMany]
    · intro h
      rw [h] at hsize
      simp at hsize
  rw [unpack]
  conv => lhs; enter [2]; rw [hsize]
  exact hmany _

end Patchbay.Frame
