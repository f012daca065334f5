import Patchbay.Frame.Header
import Patchbay.Frame.Literals
import Patchbay.Frame.Sequences

/-! # Blocks

The content of a frame comes in blocks. A block is stored, or it is one byte that is repeated, or it
is compressed: literals, and steps that copy them and what came before (`Target.run?`).
-/

namespace Patchbay.Frame

inductive BlockForm where
  | stored
  | repeated
  | compressed
  deriving Repr, DecidableEq

structure Block where
  form : BlockForm
  isLast : Bool
  /-- The number that its header gives: of the repetitions, or else of its bytes. -/
  size : Nat
  bytes : Bytes
  deriving Repr, DecidableEq

/-- What a compressed block may take over from the blocks before it. -/
structure Carry where
  code : Option CodeReader
  tables : Option Tables
  distances : Distances

/-- Before the first block there are only distances. -/
def Carry.initial : Carry := ⟨none, none, .initial⟩

/-! ### Content -/

/-- How a frame is read: in one piece of memory that has the size of its content, or block by block
into a ring. -/
structure Manner where
  /-- The largest compressed block, and the largest number of its literals. -/
  blockSize : Nat
  /-- The size of the content, if it is read in one piece. -/
  piece : Option Nat
  /-- How much room there has to be for another block. -/
  step : Nat
  deriving Repr, DecidableEq

namespace Block

/-- Where a block is written. Block by block, no block is larger than a compressed one may be. -/
def target (m : Manner) (r : Ring) (out : Array UInt8) : Target :=
  let ceiling := if m.piece.isSome then r.stop else min r.stop (out.size + m.blockSize)
  ⟨r, ceiling⟩

/-- Whether a block has more bytes than there may be. In one piece only compressed blocks are
limited. -/
def isTooLarge (m : Manner) (b : Block) : Bool :=
  (m.piece.isNone || b.form = .compressed) && m.blockSize < b.bytes.length

/-- Appends the content of a block. -/
def expand? (m : Manner) (r : Ring) (carry : Carry) (b : Block) (out : Array UInt8) :
    Option (Carry × Array UInt8) :=
  let t := target m r out
  if b.isTooLarge m then none
  else
    match b.form with
    | .stored => (t.store? b.bytes.toArray out).map fun out => (carry, out)
    | .repeated =>
      (t.store? (Array.replicate b.size (b.bytes.headD 0)) out).map fun out => (carry, out)
    | .compressed =>
      if b.size = 0 then if m.piece.isSome then none else some (carry, out)
      else do
        let l ← Literals.take m.blockSize carry.code b.bytes
        let s ← Sequences.read? carry.tables carry.distances l.rest
        let out ← t.run? l.bytes s.steps out
        some (⟨l.code, s.tables, s.distances⟩, out)

/-- What is known after some blocks. -/
structure Progress where
  ring : Ring
  carry : Carry
  content : Array UInt8

/-- Appends the content of a block and makes room for the next one. -/
def advance? (m : Manner) (p : Progress) (b : Block) : Option Progress := do
  let (carry, content) ← b.expand? m p.ring p.carry p.content
  some ⟨p.ring.turn content m.step, carry, content⟩

/-- The content of blocks that follow each other, in memory of the given size. -/
def expandAll? (m : Manner) (room : Nat) (blocks : List Block) : Option (Array UInt8) :=
  (blocks.foldlM (advance? m) ⟨.ofSize room, .initial, #[]⟩).map (·.content)

/-! ### Reading -/

/-- The first block, and the bytes after it. -/
def take (bs : Bytes) : Option (Block × Bytes) := do
  let (header, bs) ← takeNumber 3 bs
  let isLast := header % 2 = 1
  let size := header / 8
  -- The lowest bit says whether the block is the last one, the next two bits say its form.
  match header / 2 % 4 with
  | 0 => (takeBytes size bs).map fun p => (⟨.stored, isLast, size, p.1⟩, p.2)
  | 1 => (takeBytes 1 bs).map fun p => (⟨.repeated, isLast, size, p.1⟩, p.2)
  | 2 => (takeBytes size bs).map fun p => (⟨.compressed, isLast, size, p.1⟩, p.2)
  | _ => none

/-- Taking a block shortens what is left. -/
theorem length_of_take {bs rest : Bytes} {b : Block} (h : take bs = some (b, rest)) :
    rest.length < bs.length := by
  have hmap {k : Nat} {bs : Bytes} {f : Bytes × Bytes → Block} {p : Block × Bytes}
      (h : (takeBytes k bs).map (fun q => (f q, q.2)) = some p) : p.2.length ≤ bs.length := by
    obtain ⟨⟨a, c⟩, hq, rfl⟩ := Option.map_eq_some_iff.1 h
    have := (length_of_takeBytes hq).2
    simp only
    omega
  unfold take at h
  cases hn : takeNumber 3 bs with
  | none => simp [hn] at h
  | some q =>
    obtain ⟨header, bs'⟩ := q
    rw [takeNumber] at hn
    obtain ⟨⟨a, c⟩, hq, he⟩ := Option.map_eq_some_iff.1 hn
    simp only [Prod.mk.injEq] at he
    obtain ⟨-, rfl⟩ := he
    have hlen := (length_of_takeBytes hq).2
    rw [takeNumber, hq] at h
    simp only [Option.map_some, Option.bind_eq_bind, Option.bind_some] at h
    have : rest.length ≤ c.length := by
      split at h
      · exact hmap h
      · exact hmap h
      · exact hmap h
      · cases h
    omega

/-- The blocks up to the last one, and the bytes after it. -/
def takeAll (bs : Bytes) : Option (List Block × Bytes) :=
  match h : take bs with
  | none => none
  | some (b, rest) =>
    have : rest.length < bs.length := length_of_take h
    if b.isLast then some ([b], rest) else (takeAll rest).map fun p => (b :: p.1, p.2)
termination_by bs.length

theorem takeAll_of_take {bs rest : Bytes} {b : Block} (h : take bs = some (b, rest)) :
    takeAll bs =
      if b.isLast then some ([b], rest) else (takeAll rest).map fun p => (b :: p.1, p.2) := by
  rw [takeAll]
  split
  next h' => rw [h] at h'; cases h'
  next h' =>
    rw [h] at h'
    cases h'
    rfl

end Block

end Patchbay.Frame
