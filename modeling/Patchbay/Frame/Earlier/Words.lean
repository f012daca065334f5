import Patchbay.Frame.Earlier.Literals
import Patchbay.Frame.Copying

/-! # Words

In earlier formats content is written in words of eight bytes. The last word may reach beyond what
is to be written. This spoils the lap before, from which later steps may copy.
-/

namespace Patchbay.Frame

/-- The size of the words that hold so many bytes. -/
def roundUp (n : Nat) : Nat := (n + 7) / 8 * 8

/-- The least number of bytes that a step copies. -/
def Edition.minLength (e : Edition) : Nat :=
  match e with
  | .fourth | .fifth => 4
  | _ => 3

/-- How much is written to copy so many bytes where there is room for `left`: two words at least.
Close to the end of memory the last bytes are written one by one. -/
def Edition.copyExtent (e : Edition) (left n : Nat) : Nat :=
  if left < n + (16 - e.minLength) then max n (8 + roundUp (left - 16)) else max 16 (roundUp n)

/-- A block that is being written. -/
structure Draft where
  ring : Ring
  content : Array UInt8
  /-- How many literals have been taken. -/
  taken : Nat

namespace Draft

/-- Appends so many literals. At least one word is written. -/
def addLiterals (d : Draft) (l : PaddedLiterals) (n : Nat) : Draft :=
  let stop := d.taken + n
  let content := d.content ++ l.bytes.extract d.taken stop
  let beyond := max 8 (roundUp n) - n
  let spilt := ((l.bytes.extract stop (stop + beyond)).toList ++ l.padding).take beyond
  ⟨d.ring.spill content spilt, content, stop⟩

/-- Appends a copy. What comes from the lap before is not written in words. -/
def addCopy? (e : Edition) (distance n : Nat) (d : Draft) : Option Draft := do
  let before := d.ring.before d.content distance n
  let left := d.ring.stop - (d.content.size + before)
  let content ← d.ring.copy? distance n d.content
  let isExact := 0 < before ∧ (left < 8 ∨ n - before < e.minLength)
  let beyond := if isExact then 0 else e.copyExtent left (n - before) - (n - before)
  let spilt := (List.range beyond).map fun i =>
    content.getD (content.size - distance + i % distance) 0
  some ⟨d.ring.spill content spilt, content, d.taken⟩

/-- Appends what a step says. -/
def step? (e : Edition) (l : PaddedLiterals) (d : Draft) (c : CopyStep) : Option Draft :=
  if l.bytes.size < d.taken + c.literals ∨
      d.ring.stop < d.content.size + c.literals + max c.length 8 then none
  else (d.addLiterals l c.literals).addCopy? e c.distance c.length

/-- Runs the steps of a block and appends the literals that are left. -/
def run? (e : Edition) (l : PaddedLiterals) (steps : Array CopyStep) (d : Draft) :
    Option (Ring × Array UInt8) := do
  let d ← steps.foldlM (step? e l) d
  let content := d.content ++ l.bytes.extract d.taken l.bytes.size
  if d.ring.stop < content.size then none else some (d.ring, content)

end Draft

end Patchbay.Frame
