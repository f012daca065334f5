import Patchbay.Proofs.History.Timeline

/-!
# Which recorded states can be restored

Recording a state never fails: a snapshot is written whatever it holds. A move in the history reads
it again, and that can fail. So a state may be recorded that no move ever leads back to, and this
shows only when it is wanted. Which states these are can be told when they are recorded
(`Snapshot.Restorable`); it depends neither on the history nor on the patch that is to be restored,
as long as that declares the kinds of the state.

## Key results

- `Patch.restorePacked_pack`: what a packed snapshot is restored to
- `Timeline.exists_record`: the states of a history are those that were recorded
- `moves_restore`: when a move leads back to a recorded state
- `undo_lost`: a move to a state with a coordinate that is no number
-/

namespace Patchbay

/-- The snapshot can be read again from its text. -/
def Snapshot.Restorable (s : Snapshot) : Prop := s.Readable ∧ s.toRaw.depth ≤ Json.depthLimit

namespace Patch

variable {p : Patch} {s : Snapshot}

/-- A packed snapshot whose kinds are declared is restored if the snapshot can be read, and is
unreadable otherwise. -/
theorem restorePacked_pack (hkinds : ∀ n ∈ s.nodes, p.kinds.contains n.kind = true) :
    (s.Restorable → ∃ q, p.restorePacked s.pack = .ok q) ∧
      (¬ s.Restorable → ∃ reason, p.restorePacked s.pack = .error (.unreadable reason)) := by
  constructor
  · intro hs
    obtain ⟨t, ht⟩ := s.exists_ofText_iff.2 hs
    have hunpack : Snapshot.unpack s.pack = .ok t := s.unpack_pack.trans ht
    rw [restorePacked_of_unpack hunpack]
    exact exists_restore_of_unpack hkinds hunpack
  · intro hs
    cases hread : Snapshot.ofText s.toText with
    | ok t => exact absurd (s.exists_ofText_iff.1 ⟨t, hread⟩) hs
    | error e =>
      obtain ⟨reason, rfl⟩ := Snapshot.exists_of_ofText_eq_error hread
      refine ⟨reason, ?_⟩
      rw [restorePacked, Snapshot.unpack_pack, hread]
      rfl

end Patch

/-! ### States of a timeline -/

namespace Timeline

open History

variable {most : Nat} {s : Snapshot}

/-- A use adds the snapshot that it records, if any, and no other state. -/
theorem mem_states_trace {t : Timeline Snapshot} (u : Use) (h : s ∈ (u.trace most t).states) :
    s ∈ t.states ∨ ∃ p, u = .record p ∧ s = p.snapshot := by
  cases u with
  | record p =>
    rw [Use.trace, states_record, List.mem_append] at h
    rcases h with h | h
    · exact .inl (List.mem_of_mem_take (List.mem_of_mem_drop h))
    · exact .inr ⟨p, rfl, List.mem_singleton.1 h⟩
  | undo p =>
    cases hback : t.back? with
    | none => exact .inl (by simpa [Use.trace, hback] using h)
    | some u => exact .inl ((of_back? hback).1 ▸ by simpa [Use.trace, hback] using h)
  | redo p =>
    cases hforth : t.forth? with
    | none => exact .inl (by simpa [Use.trace, hforth] using h)
    | some u => exact .inl ((of_forth? hforth).1 ▸ by simpa [Use.trace, hforth] using h)
  | clear => cases h

/-- The states of a history are those that were recorded. -/
theorem exists_record {t : Timeline Snapshot} (us : List Use)
    (h : s ∈ (us.foldl (Use.trace most) t).states) :
    s ∈ t.states ∨ ∃ p, .record p ∈ us ∧ s = p.snapshot := by
  induction us generalizing t with
  | nil => exact .inl h
  | cons u us ih =>
    rcases ih h with h | ⟨p, hp, hs⟩
    · refine (mem_states_trace u h).imp_right fun ⟨p, hu, hs⟩ => ?_
      exact ⟨p, hu ▸ List.mem_cons_self, hs⟩
    · exact .inr ⟨p, List.mem_cons_of_mem _ hp, hs⟩

end Timeline

namespace History

/-- What a move answers that leads to a timeline, if there is one to lead to: where the patch
declares the kinds of the state there, it is restored if the state is restorable, and otherwise the
state is unreadable. -/
def Restores (p : Patch) (answer : Except Error (Option Patch))
    (target : Option (Timeline Snapshot)) : Prop :=
  ∀ u ∈ target, ∃ s, u.current? = some s ∧
    ((∀ n ∈ s.nodes, p.kinds.contains n.kind = true) →
      (s.Restorable → ∃ q, answer = .ok (some q)) ∧
        (¬ s.Restorable → ∃ reason, answer = .error (.unreadable reason)))

/-- A move restores the state that it leads to. -/
theorem restores_of_packed {p : Patch} {answer : Except Error (Option Patch)}
    {target : Option (Timeline Snapshot)}
    (hanswer : ∀ u ∈ target, ∃ s, u.current? = some s ∧
      answer = (p.restorePacked s.pack).map some) : Restores p answer target := by
  intro u hu
  obtain ⟨s, hcurrent, rfl⟩ := hanswer u hu
  refine ⟨s, hcurrent, fun hkinds => ?_⟩
  obtain ⟨hread, hunreadable⟩ := Patch.restorePacked_pack hkinds
  refine ⟨fun hs => ?_, fun hs => ?_⟩
  · obtain ⟨q, hq⟩ := hread hs
    exact ⟨q, by rw [hq]; rfl⟩
  · obtain ⟨reason, hreason⟩ := hunreadable hs
    exact ⟨reason, by rw [hreason]; rfl⟩

/-- When a recorded state is restored. After any use of a history its states are snapshots that were
recorded, and a step back or forward restores the one that it leads to, on any patch that declares
its kinds, if all its floating-point numbers can be read again and it nests no deeper than texts may.
Otherwise the state is unreadable, although it was recorded. -/
theorem moves_restore (capacity : Nat) (us : List Use) :
    let h := us.foldl History.use (.empty capacity)
    let t := us.foldl (Use.trace (max capacity 1)) .empty
    (∀ s ∈ t.states, ∃ p, .record p ∈ us ∧ s = p.snapshot) ∧
      ∀ p, Restores p (h.undo p).2 t.back? ∧ Restores p (h.redo p).2 t.forth? := by
  intro h t
  have hs : h.Shows (max capacity 1) t :=
    (Shows.empty capacity).uses (Nat.lt_of_lt_of_le Nat.zero_lt_one (Nat.le_max_right _ _)) us
  refine ⟨fun s hmem => ?_, fun p => ⟨?_, ?_⟩⟩
  · exact (Timeline.exists_record us hmem).resolve_left List.not_mem_nil
  · refine restores_of_packed fun u hu => ?_
    obtain ⟨s, hcurrent⟩ := Timeline.exists_current? (.inl hu)
    exact ⟨s, hcurrent, congrArg Prod.snd (hs.undo_eq hu hcurrent p)⟩
  · refine restores_of_packed fun u hu => ?_
    obtain ⟨s, hcurrent⟩ := Timeline.exists_current? (.inr hu)
    exact ⟨s, hcurrent, congrArg Prod.snd (hs.redo_eq hu hcurrent p)⟩

/-- A patch with one node. -/
def single : Patch :=
  ((Session.start true .base 2).performAll
    [.declare Builtin.number, .insert "number" "n" .origin]).patch

/-- The state of a new patch is restored, on a patch that has a node. -/
theorem moves_restore_single :
    let h := ([.record (.empty true), .record single] : List Use).foldl use (.empty 2)
    (Patch.empty true).snapshot.Restorable ∧ ∃ q, (h.undo single).2 = .ok (some q) := by
  intro h
  have hrestorable : (Patch.empty true).snapshot.Restorable :=
    ⟨fun n hn => absurd hn List.not_mem_nil, by decide +kernel⟩
  obtain ⟨-, hmoves⟩ := moves_restore 2 [.record (.empty true), .record single]
  obtain ⟨s, hcurrent, hanswer⟩ := (hmoves single).1 _ rfl
  obtain rfl := Option.some.inj hcurrent
  exact ⟨hrestorable, (hanswer fun n hn => by cases hn).1 hrestorable⟩

end History

namespace Session

/-- The first of the two states was recorded, and its kind is still declared, but the step back to it
fails. -/
theorem undo_lost :
    lost.Reachable ∧ lost.history.size = 2 ∧ lost.history.canUndo = true ∧
      lost.patch.kinds.contains "number" = true ∧
      ∃ reason, (lost.history.undo lost.patch).2 = .error (.unreadable reason) :=
  ⟨reachable_lost, by decide +kernel, by decide +kernel, by decide +kernel, exists_undo_lost⟩

end Session

end Patchbay
