import Patchbay.Frame.Ring

/-! # Steps

What the steps of a compressed block do: each of them takes some literals and then copies what came
before. The literals that are left come last.
-/

namespace Patchbay.Frame

/-- A step: take literals, then copy what stands at a distance. -/
structure CopyStep where
  literals : Nat
  distance : Nat
  length : Nat
  deriving Repr, DecidableEq

/-- Where content is written. -/
structure Target where
  ring : Ring
  /-- How much content there may be at the end of the block. -/
  ceiling : Nat
  deriving Repr, DecidableEq

namespace Target

/-- Appends the literals of a step, from the given one on, and then the copy. -/
def step? (t : Target) (literals : Array UInt8) (start : Nat) (c : CopyStep)
    (out : Array UInt8) : Option (Nat × Array UInt8) :=
  let stop := start + c.literals
  if literals.size < stop ∨ t.ceiling < out.size + c.literals + c.length then none
  else
    (t.ring.copy? c.distance c.length (out ++ literals.extract start stop)).map fun out => (stop, out)

/-- Runs the steps of a block and appends the literals that are left. -/
def run? (t : Target) (literals : Array UInt8) (steps : Array CopyStep) (out : Array UInt8) :
    Option (Array UInt8) := do
  let (start, out) ← steps.foldlM (fun p c => t.step? literals p.1 c p.2) (0, out)
  let out := out ++ literals.extract start literals.size
  if t.ceiling < out.size then none else some out

/-- Appends bytes as they are. -/
def store? (t : Target) (bytes : Array UInt8) (out : Array UInt8) : Option (Array UInt8) :=
  if t.ceiling < out.size + bytes.size then none else some (out ++ bytes)

end Target

end Patchbay.Frame
