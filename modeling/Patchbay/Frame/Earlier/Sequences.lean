import Patchbay.Frame.Earlier.Code
import Patchbay.Frame.Earlier.Edition
import Patchbay.Frame.Sequences

/-! # Sequences in the sixth and seventh format

The steps of a block are written much as in the present format. The bits may run out within the last
step, and the distances before it are used in another way (`Distances.takeEarlier`).
-/

namespace Patchbay.Frame

/-- Codes of distances in earlier formats. -/
def shortDistanceCodes : CodeKind := { distanceCodes with maxCode := 28 }

namespace Edition

/-- The source of a machine that the lowest two bits of a number stand for. -/
def source (e : Edition) (n : Nat) : TableSource :=
  match e, n % 4 with
  | .fourth, 1 => .standard
  | .fourth, 2 => .single
  | .fourth, _ => .described
  | _, 0 => .standard
  | _, 1 => .single
  | _, 2 => .again
  | _, _ => .described

/-- The machine for the codes of one kind, and the bytes after its description. -/
def takeTable (e : Edition) (k : CodeKind) (n : Nat) (last : Option StateTable) (bs : Bytes) :
    Option (StateTable × Bytes) :=
  if e.source n = .described ∧ bs.length < 4 then none else k.takeTable (e.source n) last bs

/-- The machines at the front of bytes, of which there are at least four. -/
def takeTables (e : Edition) (last : Option Tables) (bs : Bytes) : Option (Tables × Bytes) := do
  if bs.length < 4 then none
  let (modes, bs) ← takeNumber 1 bs
  let (literals, bs) ← e.takeTable literalCodes (modes / 64) (last.map (·.literals)) bs
  let (distances, bs) ← e.takeTable shortDistanceCodes (modes / 16) (last.map (·.distances)) bs
  let (copies, bs) ← e.takeTable copyCodes (modes / 4) (last.map (·.copies)) bs
  some (⟨literals, distances, copies⟩, bs)

/-! ### Steps -/

/-- The number that a code of a length and its extra bits stand for, and the bits after them. -/
def takeLength (ranges : Array CodeRange) (code : Nat) (s : LooseBits) : Nat × LooseBits :=
  let range := ranges.getD code default
  let (n, s) := s.take range.extra
  (range.base + n, s)

/-- The number that a code of a distance and its extra bits stand for, and the bits after them. In
the sixth format the highest codes do not go on where the others end. -/
def takeDistance (e : Edition) (code : Nat) (s : LooseBits) : Nat × LooseBits :=
  let base := if e = .sixth ∧ 27 ≤ code then 1 else Nat.pow 2 code - 1
  let (n, s) := s.take code
  (base + n, s)

/-- The distances after the one with a number. The lowest three numbers stand for the last
distances; the first two change places where no literals are taken. -/
def nextDistances (d : Distances) (n : Nat) (noLiterals : Bool) : Option Distances :=
  if 3 ≤ n then some (d.push (n - 2))
  else d.pick (if noLiterals ∧ n ≤ 1 then 1 - n else n)

/-- So many steps after others, where the machines are in the given states. The bits must not have
run out before a step. -/
def takeSteps (e : Edition) (t : Tables) : Nat → (literal distance copy : CodeState) → Distances →
    LooseBits → Array CopyStep → Option (Array CopyStep × Distances)
  | 0, _, _, _, d, _, steps => some (steps, d)
  | n + 1, literal, distance, copy, d, s, steps => do
    if s.isOver then none
    let (number, s) := e.takeDistance distance.symbol s
    let (length, s) := takeLength copyRanges copy.symbol s
    let (literals, s) := takeLength literalRanges literal.symbol s
    let d ← nextDistances d number (literal.symbol = 0)
    let (literal, s) := t.literals.next literal s
    let (copy, s) := t.copies.next copy s
    let (distance, s) := t.distances.next distance s
    takeSteps e t n literal distance copy d s (steps.push ⟨literals, d.first, length⟩)

/-- The distances before the first step of a block. The sixth format knows none from the block
before. -/
def firstDistances (e : Edition) (d : Distances) : Distances :=
  if e = .sixth then ⟨1, 1, 1⟩ else d

/-- The steps that a section of the sixth or seventh format holds. -/
def readCodedSteps (e : Edition) (tables : Option Tables) (distances : Distances) (bs : Bytes) :
    Option Sequences := do
  let (count, rest) ← Sequences.takeCount bs
  if bs.head? = some 0 then some ⟨#[], tables, distances⟩
  else
    let (t, rest) ← e.takeTables (if e = .sixth then none else tables) rest
    -- Machines that no step has used can be replaced, but not taken again.
    if count = 0 then some ⟨#[], tables.map fun _ => t, distances⟩
    else
      let s ← LooseBits.ofBytes? rest
      let (literal, s) := t.literals.start s
      let (distance, s) := t.distances.start s
      let (copy, s) := t.copies.start s
      let (steps, distances) ←
        e.takeSteps t count literal distance copy (e.firstDistances distances) s #[]
      some ⟨steps, some t, distances⟩

end Edition

end Patchbay.Frame
