import Patchbay.Frame.CodeReader

/-! # Four streams

Many bytes under a code are split into four streams. The lengths of the first three stand before
them. Most of the time all four are read at the same time, in rounds (`Stream.run`). This does not
look at where a stream begins, as long as it is near the place that has been reached in the end.
-/

namespace Patchbay.Frame

/-- Four streams, of which the lengths of the first three are given before them. -/
def takeFour (bs : Bytes) : Option (List Bytes) := do
  if bs.length < 10 then none
  let (n₁, bs) ← takeNumber 2 bs
  let (n₂, bs) ← takeNumber 2 bs
  let (n₃, bs) ← takeNumber 2 bs
  let (s₁, bs) ← takeBytes n₁ bs
  let (s₂, bs) ← takeBytes n₂ bs
  let (s₃, s₄) ← takeBytes n₃ bs
  some [s₁, s₂, s₃, s₄]

/-- How many bytes four streams hold: the first three equally many, rounded up. -/
def quarters (count : Nat) : List Nat :=
  let part := (count + 3) / 4
  [part, part, part, count - 3 * part]

/-! ### One after the other -/

/-- Decodes so many bytes from four streams, each of which has to end with the last of its bytes. -/
def CodeReader.decodeEach? (r : CodeReader) (count : Nat) (streams : List Bytes) :
    Option (Array UInt8) :=
  ((quarters count).zip streams).foldlM (fun out p => r.decode? p.1 p.2 out) #[]

/-! ### All at the same time -/

/-- A stream of which something has been read. -/
structure Stream where
  /-- All bits from the beginning of the first stream on, or from before it. -/
  bits : LooseBits
  /-- Where the eight bytes begin that are at hand. -/
  place : Nat
  /-- Where the stream begins. -/
  start : Nat
  /-- How many bytes are still to come. -/
  left : Nat
  out : Array UInt8

namespace Stream

/-- Looks up single bytes or pairs so many times. -/
def lookUp (r : CodeReader) : Nat → Stream → Stream
  | 0, s => s
  | n + 1, s =>
    match r.look s.bits with
    | (first, none, length) =>
      lookUp r n
        { s with bits := s.bits.skip length, left := s.left - 1, out := s.out.push first }
    | (first, some second, length) =>
      lookUp r n
        { s with
          bits := s.bits.skip length, left := s.left - 2, out := (s.out.push first).push second }

/-- Looks up five times and moves on. -/
def round (r : CodeReader) (s : Stream) : Stream :=
  let s := lookUp r 5 s
  { s with place := (s.bits.stack.count + 7) / 8 - 8 }

/-- Rounds of all streams, until only so many bytes of the last one are left, but no more rounds
than that. -/
def rounds (r : CodeReader) (goal : Nat) : Nat → List Stream → List Stream
  | 0, streams => streams
  | n + 1, streams =>
    let streams := streams.map (round r)
    if streams.getLast?.all (·.left ≤ goal) then streams else rounds r goal n streams

/-- How many rounds there are at least before a stream has too few bytes left, or the first one
comes to the front. -/
def roundsLeft (r : CodeReader) (streams : List Stream) : Nat :=
  let most := if r.pairs.isSome then 10 else 5
  let first := streams.head?.elim 0 (·.place)
  streams.foldl (fun n s => min n (s.left / most)) (first / 7)

/-- Whether each stream is behind the one before it. -/
def areOrdered : List Stream → Bool
  | s :: t :: more => s.place ≤ t.place && areOrdered (t :: more)
  | _ => true

/-- Reads as long as there are rounds left and the streams are in order. The number bounds how often
the rounds are counted again. -/
def run (r : CodeReader) : Nat → List Stream → List Stream
  | 0, streams => streams
  | n + 1, streams =>
    let count := roundsLeft r streams
    if count = 0 ∨ !areOrdered streams then streams
    else run r n (rounds r ((streams.getLast?.elim 0 (·.left)) - 5 * count) count streams)

/-- Decodes the rest of a stream. What has been read so far must not reach far beyond its beginning.
-/
def finish? (r : CodeReader) (s : Stream) : Option (Array UInt8) :=
  if s.place + 8 < s.start then none else some (r.decodeMore s.left s.bits s.out).1

end Stream

namespace CodeReader

/-- The streams before anything has been read. -/
def openStreams (count : Nat) (bs : Bytes) (streams : List Bytes) : List Stream :=
  let lengths := streams.map List.length
  let place (i : Nat) := (lengths.take i).foldl (· + ·) 6
  (quarters count).zipIdx.map fun p =>
    ⟨.ofAll (bs.take (place (p.2 + 1))), place (p.2 + 1) - 8, place p.2, p.1, #[]⟩

/-- Decodes so many bytes from four streams. They are read at the same time if none is short and no
code is long. -/
def decodeFour? (r : CodeReader) (count : Nat) (bs : Bytes) : Option (Array UInt8) := do
  let streams ← takeFour bs
  if count < 6 ∨ count < 3 * ((count + 3) / 4) then none
  if r.code.log ≤ 11 ∧ 3 * ((count + 3) / 4) < count ∧ streams.all (8 ≤ ·.length) then
    let parts ← (Stream.run r count (openStreams count bs streams)).mapM (Stream.finish? r)
    some (parts.foldl (· ++ ·) #[])
  else r.decodeEach? count streams

end CodeReader

end Patchbay.Frame
