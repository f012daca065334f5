import Patchbay.Frame.Bytes

/-! # Rings

Content is read into memory of a fixed size. Where there is no room for one more block a new lap
begins at the front of the memory. Copies reach back to the beginning of the lap before
(`Ring.copy?`), but where the memory has been written again they give what stands there now.
-/

namespace Patchbay.Frame

/-- Appends so many bytes, each the one that stands at the distance before the end. -/
def copyBack (distance : Nat) : Nat → Array UInt8 → Array UInt8
  | 0, out => out
  | n + 1, out => copyBack distance n (out.push (out.getD (out.size - distance) 0))

/-- Writes bytes over others, from a place on. What reaches beyond the end is dropped. -/
def overwrite : Nat → Bytes → Array UInt8 → Array UInt8
  | _, [], out => out
  | place, b :: bs, out => overwrite (place + 1) bs (out.setIfInBounds place b)

/-- How content lies in memory. -/
structure Ring where
  /-- The size of the memory. -/
  size : Nat
  /-- How much content there was before this lap. -/
  lapStart : Nat
  /-- The lap before, as it stands in memory where this lap has not come yet. -/
  last : Array UInt8
  deriving Repr, DecidableEq

namespace Ring

/-- Memory before anything has been read. -/
def ofSize (size : Nat) : Ring := ⟨size, 0, #[]⟩

/-- How much content there can be in this lap. -/
def stop (r : Ring) : Nat := r.lapStart + r.size

/-- Where in memory the content ends. -/
def place (r : Ring) (out : Array UInt8) : Nat := out.size - r.lapStart

/-- The ring after some content. A new lap begins if `step` more bytes find no room. -/
def turn (r : Ring) (out : Array UInt8) (step : Nat) : Ring :=
  if r.lapStart < out.size ∧ r.stop < out.size + step then
    ⟨r.size, out.size, out.extract r.lapStart out.size⟩
  else r

/-- What stands in memory between two places. -/
def between (r : Ring) (out : Array UInt8) (start stop : Nat) : Array UInt8 :=
  out.extract (r.lapStart + start) (r.lapStart + min stop (r.place out)) ++
    r.last.extract (max start (r.place out)) stop

/-- How many bytes of a copy come from the lap before. -/
def before (r : Ring) (out : Array UInt8) (distance n : Nat) : Nat :=
  min n (distance - r.place out)

/-- Appends so many bytes that are copied from a distance. What comes from the lap before is taken
from memory at once. -/
def copy? (r : Ring) (distance n : Nat) (out : Array UInt8) : Option (Array UInt8) :=
  if r.place out + r.last.size < distance then none
  else
    let start := r.place out + r.last.size - distance
    let count := r.before out distance n
    some (copyBack distance (n - count) (out ++ r.between out start (start + count)))

/-- The ring after bytes have been written into memory behind the content. -/
def spill (r : Ring) (out : Array UInt8) (bs : Bytes) : Ring :=
  { r with last := overwrite (r.place out) bs r.last }

theorem size_turn (r : Ring) (out : Array UInt8) (step : Nat) : (r.turn out step).size = r.size := by
  unfold turn
  split <;> rfl

/-- After a turn there is room for `step` more bytes. -/
theorem le_stop_turn {r : Ring} {step : Nat} (h : step ≤ r.size) (out : Array UInt8) :
    out.size + step ≤ (r.turn out step).stop := by
  unfold turn
  split <;> simp only [stop] at * <;> omega

end Ring

end Patchbay.Frame
