import Patchbay.Frame.Earlier.Sequences

/-! # Sequences in the fourth and fifth format

The machines give lengths as they are. The largest symbol says that a length goes on in bytes of
their own, which stand before the machines (`LongLengths`).
-/

namespace Patchbay.Frame

/-! ### Long lengths -/

/-- The bytes in which lengths go on: a section, the place of the next byte, and the place where
they end. -/
structure LongLengths where
  bytes : Array UInt8
  place : Nat
  stop : Nat
  deriving Repr, DecidableEq

namespace LongLengths

/-- The number at a place, the lowest byte first. -/
def number (l : LongLengths) (place count : Nat) : Nat :=
  ofLittleEndian (l.bytes.extract place (place + count)).toList

/-- Moves on to a place. After the last byte comes the last one again. -/
def moveTo (l : LongLengths) (place : Nat) : LongLengths :=
  { l with place := if l.stop ≤ place then l.stop - 1 else place }

/-- A length and the place after it where it is written in full, three bytes of it in the fourth
format and two or three in the fifth, which tells them apart by the lowest bit. It stays as it is
where there are not so many bytes. -/
def full (e : Edition) (length place : Nat) (l : LongLengths) : Nat × Nat :=
  if e = .fourth then
    if l.stop < place + 3 then (length, place) else (l.number place 3, place + 3)
  else if l.stop < place + 2 then (length, place)
  else
    let n := l.number place 2
    if n % 2 = 1 ∧ place + 2 < l.stop then (l.number place 3 / 2, place + 3)
    else (n / 2, place + 2)

/-- The length that goes on after a symbol, and the bytes after it. The first byte is added, unless
it is the largest. -/
def take (e : Edition) (always : Bool) (length : Nat) (l : LongLengths) : Nat × LongLengths :=
  if always ∨ l.place < l.stop then
    let n := l.number l.place 1
    if n < 255 then (length + n, l.moveTo (l.place + 1))
    else
      let (length, place) := l.full e length (l.place + 1)
      (length, l.moveTo place)
  else (length, l.moveTo l.place)

/-- The length of a symbol, and the bytes after it. Only the largest symbol goes on. -/
def ofSymbol (e : Edition) (always : Bool) (largest symbol : Nat) (l : LongLengths) :
    Nat × LongLengths :=
  if symbol = largest then l.take e always symbol else (symbol, l)

end LongLengths

/-! ### Machines -/

/-- Symbols of the number of literals. -/
def literalSymbols : CodeKind := ⟨63, 10, .plain 6⟩

/-- Symbols of distances. -/
def distanceSymbols : CodeKind := ⟨31, 9, .plain 5⟩

/-- Symbols of the number of bytes that are copied. -/
def copySymbols : CodeKind := ⟨127, 10, .plain 7⟩

namespace Edition

/-- The machine for the symbols of one kind, and the bytes after its description. A single symbol is
taken from the given range, and is not the last byte. -/
def takeSymbols (e : Edition) (k : CodeKind) (range n : Nat) (bs : Bytes) :
    Option (StateTable × Bytes) :=
  match e.source n, bs with
  | .single, b :: rest => if rest.isEmpty then none else some (.constant (b.toNat % range), rest)
  | _, bs => e.takeTable k n none bs

/-- The machines at the front of bytes, and the long lengths before them. -/
def takeSymbolTables (e : Edition) (bs : Bytes) : Option (Tables × LongLengths × Bytes) := do
  let (flags, _) ← takeNumber 1 bs
  let (header, rest) ← takeBytes (if flags / 2 % 2 = 1 then 3 else 2) bs
  let count := if flags / 2 % 2 = 1 then ofBigEndian header.tail else ofBigEndian header % 512
  let (_, rest) ← takeBytes count rest
  let lengths : LongLengths := ⟨bs.toArray, header.length, header.length + count⟩
  if rest.length < 3 then none
  let (literals, rest) ← e.takeSymbols literalSymbols 256 (flags / 64) rest
  let (distances, rest) ← e.takeSymbols distanceSymbols 32 (flags / 16) rest
  let (copies, rest) ← e.takeSymbols copySymbols 256 (flags / 4) rest
  some (⟨literals, distances, copies⟩, lengths, rest)

end Edition

/-! ### Steps -/

/-- What is known between two steps. -/
structure StepState where
  literal : CodeState
  distance : CodeState
  copy : CodeState
  /-- The last distance. -/
  last : Nat
  /-- The distance that is taken again where there are no literals. -/
  other : Nat
  lengths : LongLengths
  bits : LooseBits

namespace StepState

/-- The extra bits of the distance, the next states for literals and distances, and the bits after
them. The fourth format has the extra bits last, the fifth has them first. -/
def takeExtra (e : Edition) (t : Tables) (w : StepState) : Nat × CodeState × CodeState × LooseBits :=
  let count := w.distance.symbol - 1
  if e = .fourth then
    let (literal, s) := t.literals.next w.literal w.bits
    let (distance, s) := t.distances.next w.distance s
    let (extra, s) := s.take count
    (extra, literal, distance, s)
  else
    let (extra, s) := w.bits.take count
    let (distance, s) := t.distances.next w.distance s
    let (literal, s) := t.literals.next w.literal s
    (extra, literal, distance, s)

/-- The distance of a step. The highest codes do not go on where the others end. -/
def distanceOf (w : StepState) (extra : Nat) : Nat :=
  match w.distance.symbol with
  | 0 => if w.literal.symbol = 0 then w.other else w.last
  | code + 1 => (if 26 ≤ code then 1 else Nat.pow 2 code) + extra

/-- The next step, and what is known after it. -/
def next (e : Edition) (t : Tables) (w : StepState) : CopyStep × StepState :=
  let (literals, lengths) := w.lengths.ofSymbol e (e = .fifth) 63 w.literal.symbol
  let (extra, literal, distance, bits) := w.takeExtra e t
  let (copy, bits) := t.copies.next w.copy bits
  let (length, lengths) := lengths.ofSymbol e false 127 w.copy.symbol
  let d := w.distanceOf extra
  let other := if w.distance.symbol ≠ 0 ∨ literals = 0 then w.last else w.other
  (⟨literals, d, length + 4⟩, ⟨literal, distance, copy, d, other, lengths, bits⟩)

/-- So many steps after others. The bits must not have run out before a step, and in the fourth
format they have to end with the last one. -/
def run (e : Edition) (t : Tables) : Nat → StepState → Array CopyStep → Option (Array CopyStep)
  | 0, w, steps => if e = .fourth ∧ !w.bits.isExact then none else some steps
  | n + 1, w, steps =>
    if w.bits.isOver then none
    else
      let (step, w) := w.next e t
      run e t n w (steps.push step)

end StepState

namespace Edition

/-- The number of steps, and the bytes after it. In the fourth format it has two bytes. -/
def takeStepCount (e : Edition) (bs : Bytes) : Option (Nat × Bytes) :=
  if e = .fourth then if bs.length < 5 then none else takeNumber 2 bs
  else
    match bs with
    | [] => none
    | head :: bs =>
      let n := head.toNat
      if n < 128 then some (n, bs) else (takeNumber 1 bs).map fun p => (256 * (n - 128) + p.1, p.2)

/-- The steps that a section of the fourth or fifth format holds. -/
def readSymbolSteps (e : Edition) (bs : Bytes) : Option (Array CopyStep) := do
  let (count, rest) ← e.takeStepCount bs
  if e = .fifth ∧ bs.head? = some 0 then some #[]
  else
    let (t, lengths, rest) ← e.takeSymbolTables rest
    if e = .fifth ∧ count = 0 then some #[]
    else
      let s ← LooseBits.ofBytes? rest
      let (literal, s) := t.literals.start s
      let (distance, s) := t.distances.start s
      let (copy, s) := t.copies.start s
      let d := if e = .fourth then 4 else 1
      StepState.run e t count ⟨literal, distance, copy, d, d, lengths, s⟩ #[]

/-- The steps of a section, and what the next block may refer to. -/
def readSteps (e : Edition) (tables : Option Tables) (distances : Distances) (bs : Bytes) :
    Option Sequences :=
  match e with
  | .fourth | .fifth => (e.readSymbolSteps bs).map fun steps => ⟨steps, none, distances⟩
  | _ => e.readCodedSteps tables distances bs

end Edition

end Patchbay.Frame
