import Patchbay.Frame.Earlier.Edition
import Patchbay.Frame.PrefixCode

/-! # Codes of bytes in earlier formats

The weights of a code could also be a run of ones, and machines for weights could be larger. In the
older two formats the machines have to end in their first state.
-/

namespace Patchbay.Frame

/-- The weights that two machines over the same table give in turn, until the bits run out: then
both have to be in their first state. A machine that always moves stops there at once. There is room
for so many weights. -/
def settle (t : StateTable) (moves : Bool) : Nat → CodeState → CodeState → BitStack →
    Option (List Nat)
  | 0, first, second, s =>
    if s.isEmpty ∧ first.number = 0 ∧ second.number = 0 then some [] else none
  | room + 1, first, second, s =>
    if s.isEmpty ∧ (moves ∨ first.number = 0) then
      if first.number = 0 ∧ second.number = 0 then some [] else none
    else
      match t.next? first s with
      | none => none
      | some (first', s) => (settle t moves room second first' s).map (first.symbol :: ·)

namespace Distribution

/-- The distribution at the front of bytes, of which there are at least four. -/
def readLong? (maxSymbol maxLog : Nat) (bs : Bytes) : Option (Distribution × Bytes) :=
  if bs.length < 4 then none else read? maxSymbol maxLog bs

/-- Whether no symbol has half of the states. -/
def isEven (d : Distribution) : Bool := d.shares.all fun s => 2 * s.size < Nat.pow 2 d.log

end Distribution

namespace Edition

/-- The weights that are coded by a machine. -/
def codedWeights (e : Edition) (bs : Bytes) : Option (List Nat) := do
  let (d, rest) ← Distribution.readLong? 255 12 bs
  let t := StateTable.ofDistribution d
  match e with
  | .fourth | .fifth =>
    let s ← BitStack.ofBytes? rest
    let (first, s) ← t.start? s
    let (second, s) ← t.start? s
    settle t d.isEven 255 first second s
  | _ =>
    let s ← LooseBits.ofBytes? rest
    let (first, s) := t.start s
    let (second, s) := t.start s
    if s.isOver then some [first.symbol, second.symbol] else alternate t 255 first second s.stack

/-- The numbers of ones that the highest numbers stand for. -/
def runLengths : List Nat := [1, 2, 3, 4, 7, 8, 15, 16, 31, 32, 63, 64, 127, 128]

/-- The weights except the last one, and what follows them: a run of ones, or four bits each, or
coded. -/
def takeWeights (e : Edition) : Bytes → Option (List Nat × Bytes)
  | [] => none
  | head :: bs =>
    let n := head.toNat
    if 242 ≤ n then some (List.replicate (runLengths.getD (n - 242) 0) 1, bs)
    else if 128 ≤ n then takeHalves (n - 127) bs
    else do
      let (coded, rest) ← takeBytes n bs
      some (← e.codedWeights coded, rest)

/-- The code at the front of bytes. No code has more bits than the limit. -/
def takeCode (e : Edition) (limit : Nat) (bs : Bytes) : Option (PrefixCode × Bytes) := do
  let (weights, rest) ← e.takeWeights bs
  some (← PrefixCode.ofWeights? limit weights, rest)

end Edition

end Patchbay.Frame
