import Patchbay.Frame.StateTable

/-! # Codes of bytes

Codes for bytes in which no code begins with another one. A code is given by the weights of the
bytes: a byte of weight `w > 0` has a code of `log + 1 - w` bits, so it takes `2 ^ (w - 1)` of the
`2 ^ log` numbers of `log` bits. The weight of the last byte is not written, because the weights
have to fill all the numbers.
-/

namespace Patchbay.Frame

/-! ### Weights -/

/-- The weights that two machines over the same table give in turn, until the bits run out: then the
other machine gives its last one. There is room for so many weights. -/
def alternate (t : StateTable) : Nat → CodeState → CodeState → BitStack → Option (List Nat)
  | 0, _, _, _ => none
  | 1, _, _, _ => none
  | room + 1, first, second, s =>
    match t.next? first s with
    | none => some [first.symbol, second.symbol]
    | some (first', s) => (alternate t room second first' s).map (first.symbol :: ·)

/-- The weights that are coded by a machine. -/
def codedWeights (bs : Bytes) : Option (List Nat) := do
  let (d, rest) ← Distribution.read? 255 6 bs
  -- Larger tables are not accepted, whatever their symbols are used for.
  if 88 < Nat.pow 2 d.log + (2 * d.shares.length + Nat.pow 2 d.log + 11) / 4 then none
  let t := StateTable.ofDistribution d
  let s ← BitStack.ofBytes? rest
  let (first, s) ← t.start? s
  let (second, s) ← t.start? s
  alternate t 255 first second s

/-- So many weights of four bits each, and what follows them. -/
def takeHalves (count : Nat) (bs : Bytes) : Option (List Nat × Bytes) := do
  let (packed, rest) ← takeBytes ((count + 1) / 2) bs
  some ((packed.flatMap fun b => [b.toNat / 16, b.toNat % 16]).take count, rest)

/-- The weights except the last one, and what follows them: either four bits each, or coded. -/
def takeWeights : Bytes → Option (List Nat × Bytes)
  | [] => none
  | head :: bs =>
    let n := head.toNat
    if 128 ≤ n then takeHalves (n - 127) bs
    else do
      let (coded, rest) ← takeBytes n bs
      some (← codedWeights coded, rest)

/-- How many of the numbers a weight takes. -/
def weightSize (w : Nat) : Nat := if w = 0 then 0 else Nat.pow 2 (w - 1)

/-- A code for bytes. -/
structure PrefixCode where
  /-- The length of the longest code. -/
  log : Nat
  /-- For each number of `log` bits the byte whose code it begins with, and the length of the code.
  -/
  entries : Array (UInt8 × Nat)
  deriving Repr, DecidableEq

namespace PrefixCode

/-- The weights with the last one, and the length of the longest code, which is limited. The weights
have to leave a power of two of the numbers to the last byte, and at least one pair of codes has the
full length. -/
def complete? (limit : Nat) (weights : List Nat) : Option (List Nat × Nat) :=
  let total := weights.foldl (fun n w => n + weightSize w) 0
  let log := total.log2 + 1
  let rest := Nat.pow 2 log - total
  let weights := weights ++ [rest.log2 + 1]
  let longest := weights.count 1
  if total = 0 ∨ limit < log ∨ rest ≠ Nat.pow 2 rest.log2 ∨ longest < 2 ∨ longest % 2 = 1 then none
  else some (weights, log)

/-- The code with the given weights. The numbers are given out by weight, and among equal weights by
byte. -/
def ofWeights (weights : List Nat) (log : Nat) : PrefixCode :=
  { log
    entries := ((List.range log).flatMap fun i =>
      (weights.zipIdx.filter (·.1 = i + 1)).flatMap fun e =>
        List.replicate (weightSize e.1) (UInt8.ofNat e.2, log - i)).toArray }

/-- The code whose weights, except the last one, are given. No code has more bits than the limit. -/
def ofWeights? (limit : Nat) (weights : List Nat) : Option PrefixCode :=
  (complete? limit weights).map fun p => ofWeights p.1 p.2

/-- The code at the front of bytes. -/
def read? (bs : Bytes) : Option (PrefixCode × Bytes) := do
  let (weights, rest) ← takeWeights bs
  some (← ofWeights? 12 weights, rest)

end PrefixCode

end Patchbay.Frame
