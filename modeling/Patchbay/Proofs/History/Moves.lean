import Patchbay.Builtin.Source
import Patchbay.Proofs.Patch.Declared
import Patchbay.Proofs.Session.Basic

/-!
# Moves in a history

A move goes to a neighbouring state and restores the patch from it. The index is changed before the
state is unpacked, and is not changed back. So a move that fails leaves the patch and the states
alone, but the history is at a state that the patch is not in: the next move starts from there, and
leaves out the state that could not be restored.

## Key results

- `undo_eq` / `redo_eq`: what a move comes to
- `undo_error_iff` / `redo_error_iff`: a move fails where the patch refuses the state
- `failed_moves`: what a failed move changes, and what it leaves alone
-/

namespace Patchbay

namespace History

variable {h : History} {p : Patch} {e : Error} {state : Frame.Bytes}

/-- The index is that of a state, unless there are no states. -/
def Valid (h : History) : Prop := h.current < max h.size 1

instance (h : History) : Decidable h.Valid := inferInstanceAs (Decidable (_ < _))

theorem moveTo_eq {index : Nat} (hstate : h.entries[index]? = some state) :
    h.moveTo index p = ({ h with current := index }, p.restorePacked state) := by
  simp only [moveTo, apply, hstate]
  rfl

theorem undo_of_not_canUndo (hu : h.canUndo = false) : h.undo p = (h, .ok none) := by
  rw [undo, if_neg (by simp [hu])]

theorem redo_of_not_canRedo (hr : h.canRedo = false) : h.redo p = (h, .ok none) := by
  rw [redo, if_neg (by simp [hr])]

/-- A step back goes to the state before and restores the patch from it. -/
theorem undo_eq (hu : h.canUndo = true) (hstate : h.entries[h.current - 1]? = some state) :
    h.undo p = ({ h with current := h.current - 1 }, (p.restorePacked state).map some) := by
  rw [undo, if_pos hu, moveTo_eq hstate]

/-- A step forward goes to the state after and restores the patch from it. -/
theorem redo_eq (hr : h.canRedo = true) (hstate : h.entries[h.current + 1]? = some state) :
    h.redo p = ({ h with current := h.current + 1 }, (p.restorePacked state).map some) := by
  rw [redo, if_pos hr, moveTo_eq hstate]

/-- Where a step back is possible, there is a state to go to. -/
theorem Valid.exists_before (hv : h.Valid) (hu : h.canUndo = true) :
    ∃ state, h.entries[h.current - 1]? = some state := by
  have hlt : h.current - 1 < h.entries.length := by
    simp only [canUndo, decide_eq_true_eq] at hu
    simp only [Valid, size] at hv
    omega
  exact ⟨_, List.getElem?_eq_getElem hlt⟩

theorem exists_after (hr : h.canRedo = true) : ∃ state, h.entries[h.current + 1]? = some state := by
  simp only [canRedo, decide_eq_true_eq] at hr
  exact ⟨_, List.getElem?_eq_getElem hr⟩

theorem map_some_eq_error_iff {r : Except Error Patch} : r.map some = .error e ↔ r = .error e := by
  cases r <;> simp [Except.map]

/-- A step back fails where the patch refuses the state before. -/
theorem undo_error_iff (hv : h.Valid) (p : Patch) (e : Error) : (h.undo p).2 = .error e ↔
    h.canUndo = true ∧ ∃ state, h.entries[h.current - 1]? = some state ∧ p.Refuses state e := by
  cases hu : h.canUndo with
  | false => simp [undo_of_not_canUndo hu]
  | true =>
    obtain ⟨state, hstate⟩ := hv.exists_before hu
    simp [undo_eq hu hstate, hstate, map_some_eq_error_iff, Patch.restorePacked_eq_error_iff]

/-- A step forward fails where the patch refuses the state after. -/
theorem redo_error_iff (h : History) (p : Patch) (e : Error) : (h.redo p).2 = .error e ↔
    h.canRedo = true ∧ ∃ state, h.entries[h.current + 1]? = some state ∧ p.Refuses state e := by
  cases hr : h.canRedo with
  | false => simp [redo_of_not_canRedo hr]
  | true =>
    obtain ⟨state, hstate⟩ := exists_after hr
    simp [redo_eq hr hstate, hstate, map_some_eq_error_iff, Patch.restorePacked_eq_error_iff]

/-- A step back that fails has moved the index all the same. -/
theorem fst_undo_of_error (he : (h.undo p).2 = .error e) :
    h.canUndo = true ∧ (h.undo p).1 = { h with current := h.current - 1 } := by
  unfold undo at he ⊢
  split at he
  next hu =>
    rw [if_pos hu]
    exact ⟨hu, rfl⟩
  next => cases he

/-- A step forward that fails has moved the index all the same. -/
theorem fst_redo_of_error (he : (h.redo p).2 = .error e) :
    h.canRedo = true ∧ (h.redo p).1 = { h with current := h.current + 1 } := by
  unfold redo at he ⊢
  split at he
  next hr =>
    rw [if_pos hr]
    exact ⟨hr, rfl⟩
  next => cases he

end History

namespace Session

open History

/-- A move that fails has found a state that the patch refuses: it cannot be unpacked, or its text
cannot be read, or it has a node of an undeclared kind. The patch stays as it was, and so do the
states and the capacity. But the index stays at the state that was refused, so that after a failed
step back there is a state after the current one, and after a failed step forward one before it. -/
theorem failed_moves (s : Session) (hv : s.history.Valid) (e : Error) :
    ((s.history.undo s.patch).2 = .error e →
      (∃ state, s.history.entries[s.history.current - 1]? = some state ∧ s.patch.Refuses state e) ∧
        s.perform .undo =
          { s with history := { s.history with current := s.history.current - 1 } } ∧
        (s.perform .undo).history.canRedo = true ∧
        (s.perform .undo).history.canUndo = decide (1 < s.history.current)) ∧
    ((s.history.redo s.patch).2 = .error e →
      (∃ state, s.history.entries[s.history.current + 1]? = some state ∧ s.patch.Refuses state e) ∧
        s.perform .redo =
          { s with history := { s.history with current := s.history.current + 1 } } ∧
        (s.perform .redo).history.canUndo = true ∧
        (s.perform .redo).history.canRedo = decide (s.history.current + 2 < s.history.size)) := by
  have hafter : ∀ r : History × Except Error (Option Patch), r.2 = .error e →
      s.afterMove r = { s with history := r.1 } := by
    rintro ⟨h, r⟩ rfl
    rfl
  refine ⟨fun he => ?_, fun he => ?_⟩
  · obtain ⟨hu, hstate⟩ := (undo_error_iff hv _ _).1 he
    obtain ⟨_, hmoved⟩ := fst_undo_of_error he
    have hperform : s.perform .undo =
        { s with history := { s.history with current := s.history.current - 1 } } := by
      rw [← hmoved]
      exact hafter _ he
    simp only [canUndo, decide_eq_true_eq] at hu
    simp only [Valid] at hv
    refine ⟨hstate, hperform, ?_, ?_⟩
    · simp only [hperform, canRedo, size, decide_eq_true_eq] at hv ⊢
      omega
    · simp only [hperform, canUndo, decide_eq_decide]
      omega
  · obtain ⟨hr, hstate⟩ := (redo_error_iff _ _ _).1 he
    obtain ⟨_, hmoved⟩ := fst_redo_of_error he
    have hperform : s.perform .redo =
        { s with history := { s.history with current := s.history.current + 1 } } := by
      rw [← hmoved]
      exact hafter _ he
    refine ⟨hstate, hperform, ?_, ?_⟩
    · simp only [hperform, canUndo, decide_eq_true_eq]
      omega
    · rw [hperform]
      rfl

/-- A patch with a node at a place that is no number. -/
def misplaced : Patch :=
  ((Session.start true .base 100).performAll
    [.declare Builtin.number, .insert "number" "n" ⟨0.0 / 0.0, 0⟩]).patch

/-- A node stands at a place that is no number, the state is recorded, and so is another one after
the node was moved. -/
def lost : Session :=
  (Session.start true .base 100).performAll
    [.declare Builtin.number, .insert "number" "n" ⟨0.0 / 0.0, 0⟩, .record,
      .edit "n" (.move ⟨1, 0⟩), .record]

theorem reachable_lost : lost.Reachable :=
  Session.Reaches.performAll (.start true .base 100) (by decide +kernel)

/-- The state before holds no number where the node is, so it cannot be read. -/
theorem exists_undo_lost :
    ∃ reason, (lost.history.undo lost.patch).2 = .error (.unreadable reason) := by
  have hread : (Snapshot.ofText misplaced.snapshot.toText).isOk = false := by decide +kernel
  cases htext : Snapshot.ofText misplaced.snapshot.toText with
  | ok s => simp [htext, Except.isOk, Except.toBool] at hread
  | error e =>
    obtain ⟨reason, rfl⟩ := Snapshot.exists_of_ofText_eq_error htext
    have hstate : lost.history.entries[lost.history.current - 1]? = some misplaced.snapshot.pack :=
      rfl
    have hrefuses : lost.patch.Refuses misplaced.snapshot.pack (.unreadable reason) :=
      .unreadable ((Snapshot.unpack_pack _).trans htext)
    exact ⟨reason, (undo_error_iff (by decide +kernel) _ _).2
      ⟨by decide +kernel, _, hstate, hrefuses⟩⟩

/-- After the step back has failed, the history is at the state that was refused, while the patch is
at the other one. -/
theorem index_moved_lost : lost.Reachable ∧
    (∃ reason, (lost.history.undo lost.patch).2 = .error (.unreadable reason)) ∧
      (lost.history.undo lost.patch).1 ≠ lost.history ∧
      (lost.history.canUndo = true ∧ (lost.history.undo lost.patch).1.canUndo = false) ∧
      lost.history.canRedo = false ∧ (lost.history.undo lost.patch).1.canRedo = true := by
  obtain ⟨reason, he⟩ := exists_undo_lost
  have hmoved := (fst_undo_of_error he).2
  have hcan : lost.history.canUndo = true := by decide +kernel
  refine ⟨reachable_lost, ⟨reason, he⟩, fun hsame => ?_, ⟨hcan, ?_⟩, by decide +kernel, ?_⟩
  · have hcannot : (lost.history.undo lost.patch).1.canUndo = false := by
      rw [hmoved]
      decide +kernel
    rw [hsame, hcan] at hcannot
    cases hcannot
  · rw [hmoved]
    decide +kernel
  · rw [hmoved]
    decide +kernel

/-- Nothing else has changed. -/
theorem failed_moves_lost : lost.history.Valid ∧ ∃ reason,
    (lost.history.undo lost.patch).2 = .error (.unreadable reason) ∧
      (lost.perform .undo).patch = lost.patch ∧
      (lost.perform .undo).history.entries = lost.history.entries ∧
      (lost.perform .undo).history.current = 0 := by
  have hvalid : lost.history.Valid := by decide +kernel
  obtain ⟨reason, he⟩ := exists_undo_lost
  obtain ⟨_, hperform, _⟩ := (failed_moves lost hvalid (.unreadable reason)).1 he
  refine ⟨hvalid, reason, he, ?_, ?_, ?_⟩
  · rw [hperform]
  · rw [hperform]
  · rw [hperform]
    decide +kernel

end Session

end Patchbay
