import Patchbay.Proofs.Patch.Sound

/-!
# Operations that leave the kinds alone

Only declarations change kinds and their behaviour, and only changes of rules change how values are
converted; nodes and wires come and go without touching either.

## Key results

- `sameKinds_insert` / `sameKinds_connect` / `sameKinds_remove` / `sameKinds_restore`: operations on
  nodes and wires leave kinds, behaviour and conversions alone
-/

namespace Patchbay

/-- The patch `q` has the kinds of `p`, with the same behaviour and conversions. -/
structure Patch.SameKinds (p q : Patch) : Prop where
  conversions : q.conversions = p.conversions
  kinds : q.kinds = p.kinds
  behaviour : q.behaviour = p.behaviour

namespace Patch

variable {p q : Patch}

theorem SameKinds.refl (p : Patch) : p.SameKinds p := ⟨rfl, rfl, rfl⟩

theorem SameKinds.trans {r : Patch} (h₁ : p.SameKinds q) (h₂ : q.SameKinds r) : p.SameKinds r where
  conversions := h₂.conversions.trans h₁.conversions
  kinds := h₂.kinds.trans h₁.kinds
  behaviour := h₂.behaviour.trans h₁.behaviour

theorem Trimmed.sameKinds (h : p.Trimmed q) : p.SameKinds q :=
  ⟨h.conversions, h.kinds, h.behaviour⟩

theorem sameKinds_put (p : Patch) (n : Node) : p.SameKinds (p.withGraph (p.toGraph.put n)) where
  conversions := Graph.conversions_put p.toGraph n
  kinds := Graph.kinds_put p.toGraph n
  behaviour := rfl

theorem sameKinds_insert (hp : p.Sound) {kind id : String} {position : Position}
    (h : p.insert kind id position = .ok q) : p.SameKinds q := by
  obtain ⟨n, _, _, rfl⟩ := insert_cases hp.keyed h
  exact p.sameKinds_put n

theorem sameKinds_connect (hp : p.Sound) (w : Wire) : p.SameKinds (p.connect w).2 := by
  obtain ⟨q, hq, h⟩ | ⟨q, hq, _, _, _, _, h⟩ := connect_cases hp w
  · rw [h]
    exact hq.sameKinds
  · rw [h]
    exact hq.sameKinds.trans ⟨rfl, rfl, rfl⟩

theorem sameKinds_remove (p : Patch) (id : String) : p.SameKinds (p.remove id).2 := by
  unfold remove
  split
  next => exact .refl p
  next node _ => exact (p.trimmed_unwired id node).sameKinds.trans ⟨rfl, rfl, rfl⟩

theorem sameKinds_restoreWire (hp : p.Sound) (w : Wire) : p.SameKinds (p.restoreWire w) := by
  have h := sameKinds_connect hp w
  unfold restoreWire
  split
  next heq => rwa [heq] at h
  next heq =>
    rw [heq] at h
    exact h.trans ⟨rfl, rfl, rfl⟩

theorem sameKinds_restoreNode (hp : p.Sound) {s : NodeState} (h : p.restoreNode s = .ok q) :
    p.SameKinds q := by
  obtain ⟨r, hr, rfl⟩ := restoreNode_cases h
  exact (sameKinds_insert hp hr).trans (r.trimmed_fill s).sameKinds

theorem sameKinds_restore (hp : p.Sound) {s : Snapshot} (h : p.restore s = .ok q) :
    p.SameKinds q := by
  obtain ⟨r, hfold, rfl⟩ := restore_cases h
  obtain ⟨hr, _, hsame⟩ := foldlM_keeps
    (fun r => r.Sound ∧ r.wires = ∅ ∧ p.SameKinds r) hfold ⟨sound_clear hp, rfl, ⟨rfl, rfl, rfl⟩⟩
    fun r n r' _ hr hone => by
      obtain ⟨hs, hw, hsame⟩ := hr
      obtain ⟨hs', hw', _⟩ := sound_restoreNode hs hw hone
      exact ⟨hs', hw', hsame.trans (sameKinds_restoreNode hs hone)⟩
  have hwires : ∀ r : Patch, r.Sound ∧ p.SameKinds r → ∀ w ∈ s.wires,
      (r.restoreWire w).Sound ∧ p.SameKinds (r.restoreWire w) := by
    rintro r ⟨hs, hsame⟩ w _
    exact ⟨(sound_restoreWire hs w).1, hsame.trans (sameKinds_restoreWire hs w)⟩
  exact (List.foldlRecOn (motive := fun r : Patch => r.Sound ∧ p.SameKinds r) s.wires restoreWire
    ⟨hr, hsame⟩ hwires).2

end Patch

end Patchbay
