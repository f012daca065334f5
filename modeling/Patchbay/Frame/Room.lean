import Patchbay.Frame.Bytes

/-! # Rooms

How much memory frames are read with. Bytes come in portions of a fixed size, and what does not lie
in one portion has to be gathered first. Memory is kept from one frame to the next.
-/

namespace Patchbay.Frame

/-! ### Portions -/

/-- The size of the portions in which bytes come. -/
def portionSize : Nat := 131075

/-- How many bytes of the portion follow a place. -/
def portionRest (place : Nat) : Nat := portionSize - place % portionSize

/-- Whether the bytes between two places lie in one portion. -/
def isOnePortion (start stop : Nat) : Bool := stop - start ≤ portionRest start

/-! ### Memory -/

/-- How much memory there is for the bytes of a block and for content. -/
structure Room where
  input : Nat
  output : Nat
  deriving Repr, DecidableEq

namespace Room

/-- No memory. -/
protected def none : Room := ⟨0, 0⟩

/-- Memory for at least so much. If some of it is too small, all of it is replaced. -/
def renew (r : Room) (input output : Nat) : Room :=
  if r.input < input ∨ r.output < output then ⟨input, output⟩ else r

/-- Memory for at least so much. What is large enough stays. -/
def extend (r : Room) (input output : Nat) : Room := ⟨max r.input input, max r.output output⟩

/-- Whether so many bytes from a place on can be had at once. -/
def holds (r : Room) (place count : Nat) : Bool :=
  isOnePortion place (place + count) || count ≤ r.input

end Room

end Patchbay.Frame
