import Patchbay.Frame.Copying
import Patchbay.Frame.StateTable

/-! # Sequences

The second section of a compressed block: a list of steps, each of which takes some literals and
then copies earlier content. The numbers of a step are written as a code and extra bits; the codes
come from three machines, which run over the same bits (`Sequences.take`).
-/

namespace Patchbay.Frame

/-! ### Codes of lengths -/

/-- A code stands for a range of numbers, in which the extra bits choose. -/
structure CodeRange where
  base : Nat
  extra : Nat
  deriving Repr, DecidableEq, Inhabited

/-- Ranges with the given extra bits that follow each other without a gap. -/
def rangesFrom (base : Nat) : List Nat → List CodeRange
  | [] => []
  | extra :: more => ⟨base, extra⟩ :: rangesFrom (base + Nat.pow 2 extra) more

/-- The codes of the number of literals. -/
def literalRanges : Array CodeRange :=
  (rangesFrom 0 (List.replicate 16 0 ++
    [1, 1, 1, 1, 2, 2, 3, 3, 4, 6, 7, 8, 9, 10, 11, 12, 13, 14, 15, 16])).toArray

/-- The codes of the number of bytes that are copied. -/
def copyRanges : Array CodeRange :=
  (rangesFrom 3 (List.replicate 32 0 ++
    [1, 1, 1, 1, 2, 2, 3, 3, 4, 4, 5, 7, 8, 9, 10, 11, 12, 13, 14, 15, 16])).toArray

/-- The number that a code and its extra bits stand for, and the bits after them. -/
def takeLength (ranges : Array CodeRange) (code : Nat) (s : BitStack) : Option (Nat × BitStack) := do
  let range := ranges.getD code default
  let (n, s) ← s.take? range.extra
  some (range.base + n, s)

/-! ### Distances -/

/-- The last three distances, the latest first. -/
structure Distances where
  first : Nat
  second : Nat
  third : Nat
  deriving Repr, DecidableEq

namespace Distances

/-- The distances before the first block of a frame. -/
def initial : Distances := ⟨1, 4, 8⟩

/-- A distance that is none of the last three becomes the latest. -/
def push (d : Distances) (distance : Nat) : Distances := ⟨distance, d.first, d.second⟩

/-- The distance with a number below four; the last one is one less than the latest distance, and
has to be a distance. -/
def pick : Nat → Distances → Option Distances
  | 0, d => some d
  | 1, d => some ⟨d.second, d.first, d.third⟩
  | 2, d => some ⟨d.third, d.first, d.second⟩
  | _, d => if d.first - 1 = 0 then none else some (d.push (d.first - 1))

/-- The distances after one that a code and its extra bits stand for, and the bits after them. The
two lowest codes number the last distances, from the second one on where no literals are taken. -/
def take (d : Distances) (code : Nat) (noLiterals : Bool) (s : BitStack) :
    Option (Distances × BitStack) := do
  let (extra, s) ← s.take? code
  if 2 ≤ code then some (d.push (Nat.pow 2 code + extra - 3), s)
  else
    let d ← d.pick (code + extra + if noLiterals then 1 else 0)
    some (d, s)

end Distances

/-! ### Machines -/

/-- What is known of the codes of one kind of number. -/
structure CodeKind where
  /-- The largest code. -/
  maxCode : Nat
  /-- The size of the largest machine. -/
  maxLog : Nat
  /-- The machine for blocks that do not describe one. -/
  standard : StateTable

/-- Codes of the number of literals. -/
def literalCodes : CodeKind where
  maxCode := 35
  maxLog := 9
  standard := .ofDistribution <| .ofList 6
    ([4, 3] ++ List.replicate 11 2 ++ [1, 1, 1] ++ List.replicate 9 2 ++ [3, 2, 1, 1, 1, 1, 1]
      ++ List.replicate 4 (-1))

/-- Codes of distances. -/
def distanceCodes : CodeKind where
  maxCode := 31
  maxLog := 8
  standard := .ofDistribution <| .ofList 5
    (List.replicate 6 1 ++ [2, 2, 2] ++ List.replicate 15 1 ++ List.replicate 5 (-1))

/-- Codes of the number of bytes that are copied. -/
def copyCodes : CodeKind where
  maxCode := 52
  maxLog := 9
  standard := .ofDistribution <| .ofList 6
    ([1, 4, 3] ++ List.replicate 6 2 ++ List.replicate 37 1 ++ List.replicate 7 (-1))

/-- Where the machine of a block comes from. -/
inductive TableSource where
  | standard
  /-- There is only one code. -/
  | single
  | described
  /-- It is the machine of the last block. -/
  | again
  deriving Repr, DecidableEq

/-- The source that the lowest two bits of a number stand for. -/
def TableSource.ofCode (n : Nat) : TableSource :=
  match n % 4 with
  | 0 => standard
  | 1 => single
  | 2 => described
  | _ => again

/-- The machine for the codes of one kind, and the bytes after its description. -/
def CodeKind.takeTable (k : CodeKind) (source : TableSource) (last : Option StateTable)
    (bs : Bytes) : Option (StateTable × Bytes) :=
  match source with
  | .standard => some (k.standard, bs)
  | .single =>
    match bs with
    | [] => none
    | b :: rest => if k.maxCode < b.toNat then none else some (.constant b.toNat, rest)
  | .described => (Distribution.read? k.maxCode k.maxLog bs).map fun p => (.ofDistribution p.1, p.2)
  | .again => last.map fun t => (t, bs)

/-- The machines of a block. -/
structure Tables where
  literals : StateTable
  distances : StateTable
  copies : StateTable
  deriving Repr, DecidableEq

/-- The machines at the front of bytes; those of the last block can be taken again. -/
def Tables.take (last : Option Tables) (bs : Bytes) : Option (Tables × Bytes) := do
  let (modes, bs) ← takeNumber 1 bs
  if modes % 4 ≠ 0 then none
  let (literals, bs) ← literalCodes.takeTable (.ofCode (modes / 64)) (last.map literals) bs
  let (distances, bs) ← distanceCodes.takeTable (.ofCode (modes / 16)) (last.map distances) bs
  let (copies, bs) ← copyCodes.takeTable (.ofCode (modes / 4)) (last.map copies) bs
  some (⟨literals, distances, copies⟩, bs)

/-! ### Steps -/

/-- The steps of a block, and what the next block may refer to. -/
structure Sequences where
  steps : Array CopyStep
  tables : Option Tables
  distances : Distances

namespace Sequences

/-- The number of steps, and the bytes after it: one byte, or two, or three. -/
def takeCount : Bytes → Option (Nat × Bytes)
  | [] => none
  | head :: bs =>
    let n := head.toNat
    if n < 128 then some (n, bs)
    else if n < 255 then (takeNumber 1 bs).map fun p => (256 * (n - 128) + p.1, p.2)
    else (takeNumber 2 bs).map fun p => (p.1 + 32512, p.2)

/-- So many steps after others, where the machines are in the given states. The machines do not move
after the last step, with which the bits have to end. -/
def takeSteps (t : Tables) : Nat → (literal distance copy : CodeState) → Distances → BitStack →
    Array CopyStep → Option (Array CopyStep × Distances)
  | 0, _, _, _, d, s, steps => if s.isEmpty then some (steps, d) else none
  | n + 1, literal, distance, copy, d, s, steps => do
    let (d, s) ← d.take distance.symbol (literal.symbol = 0) s
    let (length, s) ← takeLength copyRanges copy.symbol s
    let (literals, s) ← takeLength literalRanges literal.symbol s
    let steps := steps.push ⟨literals, d.first, length⟩
    if n = 0 then takeSteps t n literal distance copy d s steps
    else
      let (literal, s) ← t.literals.next? literal s
      let (copy, s) ← t.copies.next? copy s
      let (distance, s) ← t.distances.next? distance s
      takeSteps t n literal distance copy d s steps

/-- The steps that a section holds. A section without steps ends with their number. -/
def read? (tables : Option Tables) (distances : Distances) (bs : Bytes) : Option Sequences := do
  let (count, bs) ← takeCount bs
  if count = 0 then if bs.isEmpty then some ⟨#[], tables, distances⟩ else none
  else
    let (t, bs) ← Tables.take tables bs
    let s ← BitStack.ofBytes? bs
    let (literal, s) ← t.literals.start? s
    let (distance, s) ← t.distances.start? s
    let (copy, s) ← t.copies.start? s
    let (steps, distances) ← takeSteps t count literal distance copy distances s #[]
    some ⟨steps, some t, distances⟩

end Sequences

end Patchbay.Frame
