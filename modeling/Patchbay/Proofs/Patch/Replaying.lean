import Patchbay.Proofs.Check.Faultless
import Patchbay.Proofs.Patch.Declared
import Patchbay.Proofs.Patch.RoundTrip
import Patchbay.Proofs.Patch.Telling

/-!
# Making the wires of a snapshot again

Where no two wires lead into one input, making a wire never takes another one away. So whatever the
hooks do, every wire of such a list is made or dropped, and both kinds keep their order.

## Key results

- `connect_of_free`: what comes of a wire into a free input
- `accounts_restore`: a snapshot whose kinds are declared is restored, and each of its wires is made
  or dropped
-/

namespace Patchbay

/-- What became of the wires of a list: those that are marked were made, in their order, and the
others were dropped. -/
structure Patch.Accounts (p : Patch) (fates : List (Wire × Bool)) (q : Patch) : Prop where
  made : q.wires.entries.map (·.2) = (fates.filter (·.2)).map (·.1)
  dropped : q.dropped = p.dropped ++ (fates.filter (!·.2)).map (·.1)

namespace Patch

open Patchbay.Graph

variable {p q r : Patch} {fates : List (Wire × Bool)} {w : Wire}

theorem accounts_nil (hw : q.wires = ∅) (hd : q.dropped = p.dropped) : p.Accounts [] q where
  made := by
    rw [hw]
    rfl
  dropped := by
    rw [hd]
    simp

/-- A wire is made after all others. -/
theorem Accounts.addWire (h : p.Accounts fates q) (hr : r.Sound) (hwires : r.wires = q.wires)
    (hdropped : r.dropped = q.dropped) : p.Accounts (fates ++ [(w, true)]) (r.addWire w) where
  made := by
    have hlast : ∀ e ∈ r.wires.entries, compare e.1 r.nextWire = .lt := fun e he =>
      Nat.compare_eq_lt.2 (hr.below e.1 e.2 (Table.mem_entries_iff.1 he))
    show (r.wires.insert r.nextWire w).entries.map _ = _
    rw [Table.entries_insert_of_lt hlast, hwires, List.map_append, h.made]
    simp
  dropped := by
    show r.dropped = _
    rw [hdropped, h.dropped]
    simp

/-- A wire is dropped after all others. -/
theorem Accounts.note (h : p.Accounts fates q) (hwires : r.wires = q.wires)
    (hdropped : r.dropped = q.dropped) :
    p.Accounts (fates ++ [(w, false)]) (r.note (.droppedWire w)) where
  made := by
    show r.wires.entries.map _ = _
    rw [hwires, h.made]
    simp
  dropped := by
    have hnote : (r.note (.droppedWire w)).dropped = r.dropped ++ [w] := by
      simp [Patch.dropped, Patch.note]
    rw [hnote, hdropped, h.dropped]
    simp

/-- The list was made completely iff no wire is without a mark. -/
theorem Accounts.complete_iff (h : p.Accounts fates q) :
    (q.wires.entries.map (·.2) = fates.map (·.1) ∧ q.dropped = p.dropped) ↔
      ∀ e ∈ fates, e.2 = true := by
  rw [h.made, h.dropped]
  constructor
  · rintro ⟨_, hdropped⟩ e he
    rw [List.append_right_eq_self, List.map_eq_nil_iff, List.filter_eq_nil_iff] at hdropped
    simpa using hdropped e he
  · intro hall
    have hmade : fates.filter (·.2) = fates := List.filter_eq_self.2 hall
    have hdropped : fates.filter (!·.2) = [] :=
      List.filter_eq_nil_iff.2 fun e he => by simp [hall e he]
    rw [hmade, hdropped]
    simp

/-- Only wires of the list were made. -/
theorem Accounts.mem (h : p.Accounts fates q) {i : WireId} {v : Wire}
    (hv : q.wires.find? i = some v) : v ∈ fates.map (·.1) := by
  have hmem : v ∈ q.wires.entries.map (·.2) :=
    List.mem_map.2 ⟨(i, v), Table.mem_entries_iff.2 hv, rfl⟩
  rw [h.made] at hmem
  exact ((List.filter_sublist).map _).subset hmem

/-- Where a list feeds no input twice, the input of its next wire is free. -/
theorem Accounts.free (h : p.Accounts fates q) {ws rest : List Wire}
    (hws : ws = fates.map (·.1) ++ w :: rest)
    (hsingle : ∀ node port, ws.countP (·.endsAt node port .input) ≤ 1) :
    q.wireAt? w.target w.targetPort .input = none := by
  refine (wireAt?_eq_none_iff _ _ _ _).2 fun i v hv => ?_
  have hcount := hsingle w.target w.targetPort
  have hself : w.endsAt w.target w.targetPort .input = true :=
    (endsAt_input _ _ _).2 ⟨rfl, rfl⟩
  -- A wire that was made before would be the second one that leads there.
  rw [hws, List.countP_append, List.countP_cons, if_pos hself] at hcount
  have hnone : (fates.map (·.1)).countP (·.endsAt w.target w.targetPort .input) = 0 := by omega
  simpa using List.countP_eq_zero.1 hnone v (h.mem hv)

/-! ### Any hooks -/

/-- A wire into a free input is made, or it is not; no other wire is taken away. -/
theorem connect_of_free (w : Wire)
    (hfree : p.wireAt? w.target w.targetPort .input = none) :
    ∃ q, p.Trimmed q ∧ q.wires = p.wires ∧
      (p.connect w = (none, q) ∨ p.connect w = (some q.nextWire, q.addWire w)) := by
  unfold connect freeInput
  rw [hfree]
  dsimp only
  split
  next =>
    rw [if_neg Bool.false_ne_true]
    cases p.typesOf? w with
    | none => exact ⟨p, .refl p, rfl, .inl rfl⟩
    | some st =>
      -- The ends are told, and one of them may refuse.
      refine ⟨(p.announce (.created w st.1.id st.2.id)).2, p.trimmed_announce _,
        p.wires_announce _, ?_⟩
      dsimp only
      cases (p.announce (.created w st.1.id st.2.id)).1 with
      | true => exact .inl (if_pos rfl)
      | false => exact .inr (if_neg Bool.false_ne_true)
  next => exact ⟨p, .refl p, rfl, .inl rfl⟩

/-- The next wire of a list is made or dropped. -/
theorem accounts_restoreWire (hq : q.Sound) (h : p.Accounts fates q)
    (hfree : q.wireAt? w.target w.targetPort .input = none) :
    ∃ made, p.Accounts (fates ++ [(w, made)]) (q.restoreWire w) := by
  obtain ⟨r, hr, hwires, hconnect⟩ := connect_of_free w hfree
  unfold restoreWire
  rcases hconnect with hconnect | hconnect
  · rw [hconnect]
    exact ⟨false, h.note hwires hr.dropped⟩
  · rw [hconnect]
    exact ⟨true, h.addWire (hq.trimmed hr.toTrimmed) hwires hr.dropped⟩

/-- Where a list feeds no input twice, each of its wires is made or dropped. -/
theorem accounts_restoreWires (hp : p.Sound) (hw : p.wires = ∅) {ws : List Wire}
    (hsingle : ∀ node port, ws.countP (·.endsAt node port .input) ≤ 1) :
    ∃ fates, fates.map (·.1) = ws ∧ p.Accounts fates (ws.foldl restoreWire p) := by
  -- The wires that were looked at are a first part of the list.
  have hrest : ∀ (rest : List Wire) {fates : List (Wire × Bool)} {q : Patch}, q.Sound →
      p.Accounts fates q → ws = fates.map (·.1) ++ rest →
        ∃ fates, fates.map (·.1) = ws ∧ p.Accounts fates (rest.foldl restoreWire q) := by
    intro rest
    induction rest with
    | nil =>
      intro fates q _ h hws
      exact ⟨fates, by rw [hws, List.append_nil], h⟩
    | cons w rest ih =>
      intro fates q hq h hws
      obtain ⟨made, hnext⟩ := accounts_restoreWire hq h (h.free hws hsingle)
      refine ih (sound_restoreWire hq w).1 hnext ?_
      rw [hws]
      simp
  exact hrest ws hp (accounts_nil hw rfl) rfl

/-- A snapshot that feeds no input twice is restored where its kinds are declared, and each of its
wires is made or dropped. -/
theorem accounts_restore (hp : p.Sound) {s : Snapshot}
    (hkinds : ∀ n ∈ s.nodes, p.kinds.contains n.kind = true)
    (hsingle : ∀ node port, s.wires.countP (·.endsAt node port .input) ≤ 1) :
    ∃ q fates, p.restore s = .ok q ∧ fates.map (·.1) = s.wires ∧ p.Accounts fates q := by
  obtain ⟨q, hq⟩ := exists_restore hkinds
  obtain ⟨r, hfold, rfl⟩ := restore_cases hq
  -- The nodes come without wires, and drop none.
  obtain ⟨hr, hempty, hdropped⟩ := foldlM_keeps
    (fun r => r.Sound ∧ r.wires = ∅ ∧ r.dropped = p.dropped) hfold ⟨sound_clear hp, rfl, rfl⟩
    fun r n r' _ hr hone => by
      obtain ⟨hs, hw, hd⟩ := hr
      obtain ⟨hs', hw', _⟩ := sound_restoreNode hs hw hone
      exact ⟨hs', hw', (dropped_restoreNode hs hone).trans hd⟩
  obtain ⟨fates, hfates, haccounts⟩ := accounts_restoreWires hr hempty hsingle
  refine ⟨_, fates, hq, hfates, haccounts.made, ?_⟩
  rw [haccounts.dropped, hdropped]

end Patch

end Patchbay
