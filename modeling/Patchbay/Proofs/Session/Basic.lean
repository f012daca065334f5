import Patchbay.History

/-!
# Sessions

A session is the life of one patch and its undo history: kinds are declared, nodes come and go,
wires are made, and whole states are restored, in any order. `Session.perform` says what one
operation does, `Session.Reaches` which sessions a sequence of operations leads to. What is claimed
of every patch that a program can get hold of is claimed of the patches of reachable sessions.

An operation that fails leaves the patch as it was.

## Key results

- `Session.Reaches.invariant`: what holds at the start and is kept by each operation holds in every
  session that is reached
-/

namespace Patchbay

/-- What can be done with a patch and its history. -/
inductive Operation where
  | declare (kind : Kind)
  /-- The rules of types are shared by all ports, and can be changed while ports use them. -/
  | setRule (type : PortType) (target : String) (rule : Rule)
  | removeRule (type : PortType) (target : String)
  | insert (kind id : String) (position : Position)
  /-- Any change that can be made to a node from outside. -/
  | edit (id : String) (e : NodeEdit)
  | remove (id : String)
  | connect (wire : Wire)
  | disconnect (node port : String) (side : Side)
  /-- Tells the hook of a node of an event, made up or not. -/
  | notify (id : String) (event : WireEvent)
  | clear
  | restore (snapshot : Snapshot)
  | record
  | undo
  | redo
  | forget

namespace Operation

/-- A node is inserted under an id that no node has; ids are drawn at random, and never twice. -/
def Fresh (p : Patch) : Operation → Prop
  | insert _ id _ => id ∉ p.ids
  | _ => True

instance (p : Patch) (op : Operation) : Decidable (op.Fresh p) := by
  cases op <;> unfold Fresh <;> infer_instance

end Operation

/-- A patch, its history, and what it has told about its wires. -/
structure Session where
  patch : Patch
  history : History
  /-- The numbers that `connect` has given so far, the latest last. -/
  given : List WireId

namespace Session

/-- A new patch without nodes, and a history without states. -/
def start (supportsFlow : Bool) (conversions : Conversions) (capacity : Nat) : Session where
  patch := .empty supportsFlow conversions
  history := .empty capacity
  given := []

/-- The session with another patch, if there is one. -/
def accept (s : Session) : Except Error Patch → Session
  | .ok p => { s with patch := p }
  | .error _ => s

/-- The session after a move in its history. -/
def afterMove (s : Session) : History × Except Error (Option Patch) → Session
  | (h, .ok (some p)) => { s with patch := p, history := h }
  | (h, _) => { s with history := h }

/-- What an operation does. -/
def perform (s : Session) : Operation → Session
  | .declare kind => s.accept (s.patch.declare kind)
  | .setRule type target rule =>
    let rules := s.patch.conversions.setRule type target rule
    { s with patch := s.patch.withGraph { s.patch.toGraph with conversions := rules } }
  | .removeRule type target =>
    let rules := s.patch.conversions.removeRule type target
    { s with patch := s.patch.withGraph { s.patch.toGraph with conversions := rules } }
  | .insert kind id position => s.accept (s.patch.insert kind id position)
  | .edit id e => { s with patch := s.patch.edit id e }
  | .remove id => { s with patch := (s.patch.remove id).2 }
  | .connect wire =>
    let r := s.patch.connect wire
    { s with patch := r.2, given := s.given ++ r.1.toList }
  | .disconnect node port side => { s with patch := (s.patch.disconnect node port side).2 }
  | .notify id event => { s with patch := (s.patch.tell id event).2 }
  | .clear => { s with patch := s.patch.clear }
  | .restore snapshot => s.accept (s.patch.restore snapshot)
  | .record => { s with history := s.history.record s.patch }
  | .undo => s.afterMove (s.history.undo s.patch)
  | .redo => s.afterMove (s.history.redo s.patch)
  | .forget => { s with history := s.history.clear }

/-- Several operations, one after the other. -/
def performAll (s : Session) (ops : List Operation) : Session := ops.foldl perform s

/-- The sessions that operations lead to, as far as they are allowed where they are performed. -/
inductive Reaches (allowed : Session → Operation → Prop) : Session → Prop where
  | start (supportsFlow : Bool) (conversions : Conversions) (capacity : Nat) :
    Reaches allowed (start supportsFlow conversions capacity)
  | step {s : Session} (op : Operation) :
    Reaches allowed s → allowed s op → Reaches allowed (s.perform op)

/-- The sessions that any sequence of operations leads to. -/
def Reachable : Session → Prop := Reaches fun s op => op.Fresh s.patch

variable {allowed : Session → Operation → Prop} {s : Session}

/-- What holds at the start and is kept by every allowed operation holds wherever they lead. -/
theorem Reaches.invariant (inv : Session → Prop)
    (hstart : ∀ flow conversions capacity, inv (.start flow conversions capacity))
    (hstep : ∀ s op, inv s → allowed s op → inv (s.perform op)) (h : Reaches allowed s) :
    inv s := by
  induction h with
  | start flow conversions capacity => exact hstart flow conversions capacity
  | step op _ hop ih => exact hstep _ op ih hop

/-- Where fewer operations are allowed, no more sessions are reached. -/
theorem Reaches.mono {allowed' : Session → Operation → Prop} (h : Reaches allowed s)
    (hmono : ∀ s op, allowed s op → allowed' s op) : Reaches allowed' s := by
  induction h with
  | start flow conversions capacity => exact .start flow conversions capacity
  | step op _ hop ih => exact .step op ih (hmono _ op hop)

/-- A list of operations that are allowed one after the other. -/
def AllowedAll (allowed : Session → Operation → Prop) (s : Session) : List Operation → Prop
  | [] => True
  | op :: ops => allowed s op ∧ AllowedAll allowed (s.perform op) ops

instance AllowedAll.decidable [∀ s op, Decidable (allowed s op)] :
    (s : Session) → (ops : List Operation) → Decidable (AllowedAll allowed s ops)
  | _, [] => .isTrue trivial
  | s, op :: ops =>
    have := AllowedAll.decidable (s.perform op) ops
    inferInstanceAs (Decidable (_ ∧ _))

/-- What is asked of the operations alone can be looked at apart. -/
theorem AllowedAll.and {ops : List Operation} {P : Operation → Prop}
    (h : AllowedAll allowed s ops) (hP : ∀ op ∈ ops, P op) :
    AllowedAll (fun s op => allowed s op ∧ P op) s ops := by
  induction ops generalizing s with
  | nil => trivial
  | cons op ops ih =>
    exact ⟨⟨h.1, hP op List.mem_cons_self⟩,
      ih h.2 fun op hop => hP op (List.mem_cons_of_mem _ hop)⟩

theorem Reaches.performAll {ops : List Operation} (h : Reaches allowed s)
    (hops : AllowedAll allowed s ops) : Reaches allowed (s.performAll ops) := by
  induction ops generalizing s with
  | nil => exact h
  | cons op ops ih => exact ih (.step op h hops.1) hops.2

theorem performAll_snoc (s : Session) (ops : List Operation) (op : Operation) :
    s.performAll (ops ++ [op]) = (s.performAll ops).perform op :=
  List.foldl_append ..

/-- The operations of a list are allowed if the first ones are, and the last one after them. -/
theorem AllowedAll.snoc_iff {ops : List Operation} {op : Operation} :
    AllowedAll allowed s (ops ++ [op]) ↔
      AllowedAll allowed s ops ∧ allowed (s.performAll ops) op := by
  induction ops generalizing s with
  | nil => exact ⟨fun h => ⟨trivial, h.1⟩, fun h => ⟨h.2, trivial⟩⟩
  | cons first ops ih => exact (and_congr_right fun _ => ih).trans and_assoc.symm

/-- A patch that is accepted took the place of the one before, or nothing happened. -/
theorem accept_cases (s : Session) (r : Except Error Patch) :
    s.accept r = s ∨ ∃ p, r = .ok p ∧ s.accept r = { s with patch := p } := by
  cases r with
  | error e => exact .inl rfl
  | ok p => exact .inr ⟨p, rfl, rfl⟩

theorem patch_accept (s : Session) (r : Except Error Patch) :
    (s.accept r).patch = s.patch ∨ r = .ok (s.accept r).patch := by
  cases r with
  | error e => exact .inl rfl
  | ok p => exact .inr rfl

/-- After a move in the history the patch is as before or as restored. -/
theorem patch_afterMove (s : Session) (r : History × Except Error (Option Patch)) :
    (s.afterMove r).patch = s.patch ∨ r.2 = .ok (some (s.afterMove r).patch) := by
  obtain ⟨_, _ | _ | _⟩ := r
  · exact .inl rfl
  · exact .inl rfl
  · exact .inr rfl

@[simp]
theorem given_accept (s : Session) (r : Except Error Patch) : (s.accept r).given = s.given := by
  cases r <;> rfl

@[simp]
theorem given_afterMove (s : Session) (r : History × Except Error (Option Patch)) :
    (s.afterMove r).given = s.given := by
  obtain ⟨_, _ | _ | _⟩ := r <;> rfl

end Session

namespace History

variable {h : History} {p q : Patch}

theorem restore_of_apply (hq : h.apply p = .ok q) : ∃ s, p.restore s = .ok q := by
  unfold apply at hq
  split at hq
  next => cases hq
  next state _ =>
    cases hs : Snapshot.unpack state with
    | error e =>
      rw [hs] at hq
      cases hq
    | ok s =>
      rw [hs] at hq
      exact ⟨s, hq⟩

theorem restore_of_moveTo {index : Nat} (hq : (h.moveTo index p).2.map some = .ok (some q)) :
    ∃ s, p.restore s = .ok q := by
  obtain ⟨r, hr, hrq⟩ : ∃ r, (h.moveTo index p).2 = .ok r ∧ r = q := by
    cases hr : (h.moveTo index p).2 with
    | error e =>
      rw [hr] at hq
      cases hq
    | ok r =>
      rw [hr] at hq
      exact ⟨r, rfl, Option.some.inj (Except.ok.inj hq)⟩
  exact restore_of_apply (hrq ▸ hr)

/-- A step back restores the patch from some snapshot. -/
theorem restore_of_undo (hq : (h.undo p).2 = .ok (some q)) : ∃ s, p.restore s = .ok q := by
  unfold undo at hq
  split at hq
  next => exact restore_of_moveTo hq
  next => cases hq

/-- A step forward restores the patch from some snapshot. -/
theorem restore_of_redo (hq : (h.redo p).2 = .ok (some q)) : ∃ s, p.restore s = .ok q := by
  unfold redo at hq
  split at hq
  next => exact restore_of_moveTo hq
  next => cases hq

end History

end Patchbay
