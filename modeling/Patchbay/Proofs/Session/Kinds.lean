import Patchbay.Proofs.Patch.Kinds
import Patchbay.Proofs.Patch.Telling
import Patchbay.Proofs.Session.Sound

/-!
# Kinds stay as they are declared

What is asked of the kinds of a patch only has to be asked of those that are declared in the
session.

## Key results

- `sameKinds_perform`: operations other than declarations and changes of rules leave the kinds alone
- `kindsFrom_of_reaches`: what holds of all declared kinds holds of the kinds of the patch
- `KindsFrom.keepsChanges`: hooks keep to the change if those of all declared kinds do
-/

namespace Patchbay

namespace Operation

/-- The operation is neither a declaration nor a change of rules. -/
def KeepsKinds : Operation → Prop
  | declare _ | setRule _ _ _ | removeRule _ _ => False
  | _ => True

/-- Whatever kind is declared has a property. -/
def Declares (P : Kind → Prop) : Operation → Prop
  | declare kind => P kind
  | _ => True

end Operation

namespace Session

open Patch

variable {s : Session}

theorem sameKinds_accept {r : Except Error Patch} (h : ∀ q, r = .ok q → s.patch.SameKinds q) :
    s.patch.SameKinds (s.accept r).patch := by
  obtain hsame | ⟨q, hq, hsame⟩ := s.accept_cases r
  · exact hsame.symm ▸ .refl _
  · exact hsame.symm ▸ h q hq

theorem sameKinds_afterMove (hs : s.patch.Sound) {r : History × Except Error (Option Patch)}
    (h : ∀ q, r.2 = .ok (some q) → ∃ t, s.patch.restore t = .ok q) :
    s.patch.SameKinds (s.afterMove r).patch := by
  obtain hsame | hok := s.patch_afterMove r
  · exact hsame.symm ▸ .refl _
  · obtain ⟨t, ht⟩ := h _ hok
    exact sameKinds_restore hs ht

/-- Operations on nodes and wires leave kinds, behaviour and conversions alone. -/
theorem sameKinds_perform (hs : s.patch.Sound) {op : Operation} (hop : op.KeepsKinds) :
    s.patch.SameKinds (s.perform op).patch := by
  cases op with
  | declare | setRule | removeRule => exact hop.elim
  | insert kind id position => exact sameKinds_accept fun q hq => sameKinds_insert hs hq
  | edit id e => exact (s.patch.trimmed_edit id e).sameKinds
  | remove id => exact s.patch.sameKinds_remove id
  | connect w => exact sameKinds_connect hs w
  | disconnect node port side => exact (s.patch.trimmed_disconnect node port side).sameKinds
  | notify id event => exact (s.patch.trimmed_tell id event).sameKinds
  | clear => exact ⟨rfl, rfl, rfl⟩
  | restore t => exact sameKinds_accept fun q hq => sameKinds_restore hs hq
  | record => exact .refl _
  | undo => exact sameKinds_afterMove hs fun q hq => History.restore_of_undo hq
  | redo => exact sameKinds_afterMove hs fun q hq => History.restore_of_redo hq
  | forget => exact .refl _

/-- All kinds of the patch are as declared by kinds with a property. -/
def KindsFrom (P : Kind → Prop) (s : Session) : Prop :=
  ∀ id d, s.patch.kinds.find? id = some d →
    ∃ k, P k ∧ d = k.declaration ∧ s.patch.behaviour id = k.behaviour

theorem KindsFrom.of_sameKinds {P : Kind → Prop} {s' : Session} (hs : s.KindsFrom P)
    (h : s.patch.SameKinds s'.patch) : s'.KindsFrom P := by
  intro id d hd
  rw [h.kinds] at hd
  rw [h.behaviour]
  exact hs id d hd

/-- Nodes have the hooks of the kinds that were declared. -/
theorem KindsFrom.keepsChanges {P : Kind → Prop} (h : s.KindsFrom P) (hs : s.patch.Sound)
    (hP : ∀ k, P k → k.KeepsChange) : s.patch.KeepsChanges := by
  intro id hook hhook
  obtain ⟨kind, hkind, hhook⟩ := Option.bind_eq_some_iff.1 hhook
  obtain ⟨n, hn, rfl⟩ := Option.map_eq_some_iff.1 hkind
  obtain ⟨d, hd⟩ := Option.isSome_iff_exists.1 (hs.declared id n hn)
  obtain ⟨k, hk, _, hbehaviour⟩ := h n.kind d hd
  rw [hbehaviour] at hhook
  exact hP k hk hook hhook

theorem kindsFrom_declare {P : Kind → Prop} (hs : s.KindsFrom P) {k : Kind} (hk : P k) :
    (s.perform (.declare k)).KindsFrom P := by
  intro id d hd
  obtain hsame | ⟨q, hq, hsame⟩ := s.accept_cases (s.patch.declare k)
  · rw [perform, hsame] at hd ⊢
    exact hs id d hd
  · rw [perform, hsame] at hd ⊢
    obtain ⟨hgraph, hbehaviour⟩ := declare_cases hq
    have hkinds : q.kinds = s.patch.kinds.insert k.declaration.id k.declaration := by
      rw [hgraph]
      rfl
    replace hd : q.kinds.find? id = some d := hd
    show ∃ k, P k ∧ d = k.declaration ∧ q.behaviour id = k.behaviour
    rw [hkinds, Table.find?_insert] at hd
    rw [hbehaviour]
    dsimp only
    split at hd
    -- The new kind takes the place of an older one with its id.
    next hid => exact ⟨k, hk, (Option.some.inj hd).symm, if_pos hid⟩
    next hid =>
      rw [if_neg hid]
      exact hs id d hd

/-- Where kinds with a property are declared, all kinds are as declared by such kinds. -/
theorem kindsFrom_of_reaches {P : Kind → Prop}
    (h : Reaches (fun s op => op.Fresh s.patch ∧ op.Declares P) s) : s.KindsFrom P := by
  have hboth : s.Wired ∧ s.KindsFrom P := by
    refine Reaches.invariant (fun s => s.Wired ∧ s.KindsFrom P) ?_ ?_ h
    · exact fun flow conversions capacity =>
      ⟨wired_start flow conversions capacity, fun _ _ h => by cases h⟩
    · rintro s op ⟨hwired, hkinds⟩ ⟨hfresh, hdeclares⟩
      refine ⟨wired_perform hwired hfresh, ?_⟩
      cases op with
      | declare k => exact kindsFrom_declare hkinds hdeclares
      | setRule | removeRule => exact hkinds
      | _ => exact hkinds.of_sameKinds (sameKinds_perform hwired.sound trivial)
  exact hboth.2

end Session

end Patchbay
