import Patchbay.Proofs.Folds
import Patchbay.Proofs.Patch.Sound
import Patchbay.Snapshot.Text

/-!
# When snapshots can be restored

All kinds are looked up before anything is done, and inserting nodes declares and forgets none. So a
snapshot is restored completely or not at all, and what decides are the kinds of its nodes. This
holds of any patch, whatever its hooks do.

## Key results

- `restore_eq_error_iff`: restoring fails for the first node of an undeclared kind only
- `restorePacked_eq_error_iff`: why a packed snapshot cannot be restored
-/

namespace Patchbay

namespace Patch

open Patchbay.Graph

variable {p q : Patch}

/-- The first node of a snapshot whose kind is not declared. -/
def firstUndeclared? (p : Patch) (s : Snapshot) : Option NodeState :=
  s.nodes.find? fun n => !p.kinds.contains n.kind

theorem firstUndeclared?_eq_none_iff (p : Patch) (s : Snapshot) :
    p.firstUndeclared? s = none ↔ ∀ n ∈ s.nodes, p.kinds.contains n.kind = true := by
  simp [firstUndeclared?]

/-- A node of a declared kind can always be inserted, and the kinds stay. -/
theorem exists_insert {kind : String} (h : p.kinds.contains kind = true) (id : String)
    (position : Position) : ∃ q, p.insert kind id position = .ok q ∧ q.kinds = p.kinds := by
  obtain ⟨d, hd⟩ := Option.isSome_iff_exists.1 h
  unfold insert
  rw [hd]
  exact ⟨_, rfl, kinds_put p.toGraph _⟩

theorem exists_restoreNode {s : NodeState} (h : p.kinds.contains s.kind = true) :
    ∃ q, p.restoreNode s = .ok q ∧ q.kinds = p.kinds := by
  obtain ⟨r, hr, hkinds⟩ := exists_insert h s.id s.position
  refine ⟨r.fill s, ?_, (r.trimmed_fill s).kinds.trans hkinds⟩
  unfold restoreNode fill
  rw [hr]
  rfl

/-- Where all kinds are declared, a snapshot is restored. -/
theorem exists_restore {s : Snapshot} (h : ∀ n ∈ s.nodes, p.kinds.contains n.kind = true) :
    ∃ q, p.restore s = .ok q := by
  obtain ⟨r, hr, _⟩ := exists_foldlM (fun q => q.kinds = p.kinds) (b := p.clear) rfl
    fun q n hn hq => by
      obtain ⟨q', hq', hkinds⟩ := exists_restoreNode (p := q) (s := n) (hq ▸ h n hn)
      exact ⟨q', hq', hkinds.trans hq⟩
  refine ⟨s.wires.foldl restoreWire r, ?_⟩
  have hnone := (p.firstUndeclared?_eq_none_iff s).2 h
  unfold firstUndeclared? at hnone
  unfold restore
  rw [hnone]
  dsimp only
  rw [hr]
  rfl

/-- Restoring fails where the kind of a node is not declared, and reports the first such node. -/
theorem restore_eq_error_iff (p : Patch) (s : Snapshot) (e : Error) :
    p.restore s = .error e ↔ ∃ n, p.firstUndeclared? s = some n ∧ e = .kindNotFound n.kind := by
  cases hfirst : p.firstUndeclared? s with
  | none =>
    obtain ⟨q, hq⟩ := exists_restore ((p.firstUndeclared?_eq_none_iff s).1 hfirst)
    simp [hq]
  | some n =>
    have hrestore : p.restore s = .error (.kindNotFound n.kind) := by
      unfold firstUndeclared? at hfirst
      unfold restore
      rw [hfirst]
    rw [hrestore]
    simp [eq_comm]

/-! ### Packed snapshots -/

/-- Restores a patch from a packed snapshot. -/
def restorePacked (p : Patch) (state : Frame.Bytes) : Except Error Patch :=
  Snapshot.unpack state >>= p.restore

theorem restorePacked_of_unpack {state : Frame.Bytes} {s : Snapshot}
    (h : Snapshot.unpack state = .ok s) : p.restorePacked state = p.restore s := by
  rw [restorePacked, h]
  rfl

/-- Why a packed snapshot cannot be restored: it is no frame, or its text spells no snapshot, or one
with a node of an undeclared kind. -/
inductive Refuses (p : Patch) (state : Frame.Bytes) : Error → Prop where
  | unpackable {reason : String} : Snapshot.unpack state = .error (.unpackable reason) →
    Refuses p state (.unpackable reason)
  | unreadable {reason : String} : Snapshot.unpack state = .error (.unreadable reason) →
    Refuses p state (.unreadable reason)
  | undeclared {s : Snapshot} {n : NodeState} : Snapshot.unpack state = .ok s →
    p.firstUndeclared? s = some n → Refuses p state (.kindNotFound n.kind)

theorem restorePacked_eq_error_iff (p : Patch) (state : Frame.Bytes) (e : Error) :
    p.restorePacked state = .error e ↔ p.Refuses state e := by
  constructor
  · intro h
    cases hstate : Snapshot.unpack state with
    | error e' =>
      rw [restorePacked, hstate] at h
      obtain rfl := Except.error.inj h
      obtain ⟨reason, rfl | rfl⟩ := Snapshot.exists_of_unpack_eq_error hstate
      · exact .unreadable hstate
      · exact .unpackable hstate
    | ok s =>
      rw [restorePacked_of_unpack hstate] at h
      obtain ⟨n, hn, rfl⟩ := (p.restore_eq_error_iff s e).1 h
      exact .undeclared hstate hn
  · rintro (hstate | hstate | ⟨hstate, hn⟩)
    · rw [restorePacked, hstate]
      rfl
    · rw [restorePacked, hstate]
      rfl
    · rw [restorePacked_of_unpack hstate, restore_eq_error_iff]
      exact ⟨_, hn, rfl⟩

end Patch

end Patchbay
