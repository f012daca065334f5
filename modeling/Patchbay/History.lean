import Patchbay.Snapshot.Text

/-! # Undo history

A bounded list of recorded states of one patch, and which of them the patch is at. States are kept
as packed snapshots. `undo` and `redo` move to a neighbouring state and restore the patch from it;
the move is made even when the state turns out to be unreadable or to need an unknown kind.
-/

namespace Patchbay

/-- Recorded states of a patch. -/
structure History where
  /-- The recorded states, packed, the oldest first. -/
  entries : List Frame.Bytes
  /-- The index of the state that the patch is at. -/
  current : Nat
  /-- The largest number of states that are kept. -/
  capacity : Nat
  deriving Repr, DecidableEq

namespace History

/-- A history without states that keeps at most `capacity` of them, but always one. -/
def empty (capacity : Nat) : History := ⟨[], 0, max capacity 1⟩

instance : Inhabited History := ⟨empty 100⟩

/-- The number of recorded states. -/
def size (h : History) : Nat := h.entries.length

/-- Whether there is an earlier state. -/
def canUndo (h : History) : Bool := 0 < h.current

/-- Whether there is a later state. -/
def canRedo (h : History) : Bool := h.current + 1 < h.size

/-- Forgets all states. -/
def clear (h : History) : History := { h with entries := [], current := 0 }

/-- Drops the oldest states beyond the capacity. -/
def evict (h : History) : History :=
  let excess := h.size - h.capacity
  { h with entries := h.entries.drop excess, current := h.current - excess }

/-- Adds a state after the current one and moves to it; later states are forgotten, and the oldest
ones beyond the capacity. -/
def push (h : History) (state : Frame.Bytes) : History :=
  -- With no entries at all the first state becomes the current one.
  let kept := h.entries.take (h.current + 1)
  evict { h with entries := kept ++ [state], current := kept.length }

/-- Records the state of a patch. -/
def record (h : History) (p : Patch) : History := h.push p.snapshot.pack

/-- Restores a patch from the current state. -/
def apply (h : History) (p : Patch) : Except Error Patch := do
  match h.entries[h.current]? with
  | none => .error (.unreadable "there is no such state")
  | some state => p.restore (← Snapshot.unpack state)

/-- Moves to the state at an index and restores the patch from it. -/
def moveTo (h : History) (index : Nat) (p : Patch) : History × Except Error Patch :=
  let h := { h with current := index }
  -- The move stands even if the state cannot be restored.
  (h, h.apply p)

/-- Goes back to the state before. The answer is the patch as restored, none if there is no such
state, or the reason why it could not be restored. -/
def undo (h : History) (p : Patch) : History × Except Error (Option Patch) :=
  if h.canUndo then
    let (h, r) := h.moveTo (h.current - 1) p
    (h, r.map some)
  else (h, .ok none)

/-- Goes on to the state after. -/
def redo (h : History) (p : Patch) : History × Except Error (Option Patch) :=
  if h.canRedo then
    let (h, r) := h.moveTo (h.current + 1) p
    (h, r.map some)
  else (h, .ok none)

end History

end Patchbay
