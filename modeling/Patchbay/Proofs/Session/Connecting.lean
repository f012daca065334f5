import Patchbay.Proofs.Patch.Connecting
import Patchbay.Proofs.Session.Sound

/-!
# New wires in a session

In a session wires are made one at a time, and while snapshots are restored. A wire that is made has
a number above all that were given in either way, and what else becomes of the patch is known
exactly. Its ports were looked at before the wire in its place was taken away; what the hooks did to
the ports then is looked at again only as far as types go.

## Key results

- `issued_of_find?`: every wire has a number that it was given
- `connect_of_reachable`: when a wire is made, under which number, and what has changed
- `created_of_connect`: what is known of the ports of a wire when it is about to be made
- `portless_shied`: a wire is made at a port that takes none
-/

namespace Patchbay

namespace Patch

variable {p r : Patch} {i : WireId}

/-- The numbers that wires get while they are restored one after the other. -/
def numbersGiven (p : Patch) : List Wire → List WireId
  | [] => []
  | w :: ws => (p.connect w).1.toList ++ (p.restoreWire w).numbersGiven ws

/-- The numbers that wires get while a snapshot is restored. -/
def restoreNumbers (p : Patch) (t : Snapshot) : List WireId :=
  match t.nodes.foldlM restoreNode p.clear with
  | .ok r => r.numbersGiven t.wires
  | .error _ => []

/-- A wire that is dropped leaves a notice behind, and nothing else. -/
theorem toGraph_restoreWire (p : Patch) (w : Wire) :
    (p.restoreWire w).toGraph = (p.connect w).2.toGraph := by
  unfold restoreWire
  split
  next h => rw [h]
  next h =>
    rw [h]
    rfl

/-- All numbers given are below the next one. -/
theorem lt_of_mem_numbersGiven (hp : p.Sound) {ws : List Wire} (hi : i ∈ p.numbersGiven ws) :
    i < (ws.foldl restoreWire p).nextWire := by
  induction ws generalizing p with
  | nil => cases hi
  | cons w ws ih =>
    have hsound := (sound_restoreWire hp w).1
    rcases List.mem_append.1 hi with hi | hi
    · have hlt := ((nextWire_connect hp w).2 i (Option.mem_toList.1 hi)).2
      rw [← toGraph_restoreWire] at hlt
      exact Nat.lt_of_lt_of_le hlt (sound_restoreWires hsound ws).2
    · exact ih hsound hi

/-- A wire that is there after wires were restored was there before, or has been given its number.
-/
theorem mem_numbersGiven (hp : p.Sound) {ws : List Wire} {v : Wire}
    (hv : (ws.foldl restoreWire p).wires.find? i = some v) :
    p.wires.find? i = some v ∨ i ∈ p.numbersGiven ws := by
  induction ws generalizing p with
  | nil => exact .inl hv
  | cons w ws ih =>
    rcases ih (sound_restoreWire hp w).1 hv with hv | hi
    · rw [toGraph_restoreWire] at hv
      rcases (find?_connect hp w i v).1 hv with ⟨hmade, _⟩ | ⟨hold, _⟩
      · exact .inr (List.mem_append_left _ (Option.mem_toList.2 hmade))
      · exact .inl hold
    · exact .inr (List.mem_append_right _ hi)

theorem mem_restoreNumbers (hp : p.Sound) {t : Snapshot} {q : Patch} (h : p.restore t = .ok q)
    {v : Wire} (hv : q.wires.find? i = some v) : i ∈ p.restoreNumbers t := by
  obtain ⟨r, hfold, rfl⟩ := restore_cases h
  obtain ⟨hsound, hnone, _⟩ := sound_restoreNodes hp hfold
  rw [restoreNumbers, hfold]
  refine (mem_numbersGiven hsound hv).resolve_left fun hold => ?_
  rw [hnone] at hold
  cases hold

theorem lt_of_mem_restoreNumbers (hp : p.Sound) {t : Snapshot} {q : Patch}
    (h : p.restore t = .ok q) (hi : i ∈ p.restoreNumbers t) : i < q.nextWire := by
  obtain ⟨r, hfold, rfl⟩ := restore_cases h
  rw [restoreNumbers, hfold] at hi
  exact lt_of_mem_numbersGiven (sound_restoreNodes hp hfold).1 hi

end Patch

namespace Session

open Patch

variable {s : Session}

/-- The number was given to some wire in the course of the session, which may be gone long since: by
`connect`, or while the patch was restored, by `restore`, `undo` or `redo`. -/
inductive Issued : WireId → Session → Prop where
  | connected {s : Session} {w : Wire} {i : WireId} :
    s.Reachable → (s.patch.connect w).1 = some i → Issued i (s.perform (.connect w))
  | restored {s : Session} {op : Operation} {t : Snapshot} {i : WireId} :
    s.Reachable → op.Fresh s.patch → s.patch.restore t = .ok (s.perform op).patch →
    i ∈ s.patch.restoreNumbers t → Issued i (s.perform op)
  | later {s : Session} {op : Operation} {i : WireId} :
    Issued i s → op.Fresh s.patch → Issued i (s.perform op)

/-- The numbers that were given are below the next one. -/
theorem Issued.lt_nextWire {i : WireId} (h : Issued i s) : s.Reachable ∧ i < s.patch.nextWire := by
  induction h with
  | @connected s w i hs hi =>
    exact ⟨.step _ hs trivial, ((nextWire_connect (wired_of_reachable hs).sound w).2 i hi).2⟩
  | restored hs hop hrestore hi =>
    exact ⟨.step _ hs hop, lt_of_mem_restoreNumbers (wired_of_reachable hs).sound hrestore hi⟩
  | later _ hop ih =>
    obtain ⟨hs, hi⟩ := ih
    have hfollows := follows_perform (wired_of_reachable hs).sound hop
    exact ⟨.step _ hs hop, Nat.lt_of_lt_of_le hi hfollows.nextWire⟩

/-- What wires an operation leaves behind: such as were there, the one that it makes, and those that
it restores. -/
theorem find?_perform_cases (hs : s.patch.Sound) {op : Operation} {i : WireId} {v : Wire}
    (hv : (s.perform op).patch.wires.find? i = some v) :
    s.patch.wires.find? i = some v ∨ (∃ w, op = .connect w ∧ (s.patch.connect w).1 = some i) ∨
      ∃ t, s.patch.restore t = .ok (s.perform op).patch ∧ i ∈ s.patch.restoreNumbers t := by
  -- A step in the history restores the patch from some snapshot.
  have hmove : ∀ r : History × Except Error (Option Patch),
      (∀ q, r.2 = .ok (some q) → ∃ t, s.patch.restore t = .ok q) →
      (s.afterMove r).patch.wires.find? i = some v → s.patch.wires.find? i = some v ∨
        ∃ t, s.patch.restore t = .ok (s.afterMove r).patch ∧ i ∈ s.patch.restoreNumbers t := by
    intro r hr hv
    rcases s.patch_afterMove r with hsame | hok
    · exact .inl (hsame ▸ hv)
    · obtain ⟨t, ht⟩ := hr _ hok
      exact .inr ⟨t, ht, mem_restoreNumbers hs ht hv⟩
  cases op with
  | declare k =>
    rcases s.patch_accept (s.patch.declare k) with hsame | hok
    · exact .inl (hsame ▸ hv)
    · have hgraph := (declare_cases hok).1
      exact .inl ((congrArg (fun g : Graph => g.wires.find? i) hgraph).symm.trans hv)
  | insert kind id position =>
    rcases s.patch_accept (s.patch.insert kind id position) with hsame | hok
    · exact .inl (hsame ▸ hv)
    · obtain ⟨n, _, _, hq⟩ := insert_cases hs.keyed hok
      have hwires : (s.perform (.insert kind id position)).patch.wires = s.patch.wires :=
        (congrArg (·.wires) hq).trans (Graph.wires_put s.patch.toGraph n)
      exact .inl (hwires ▸ hv)
  | restore t =>
    rcases s.patch_accept (s.patch.restore t) with hsame | hok
    · exact .inl (hsame ▸ hv)
    · exact .inr (.inr ⟨t, hok, mem_restoreNumbers hs hok hv⟩)
  | undo => exact (hmove _ (fun q hq => History.restore_of_undo hq) hv).imp_right .inr
  | redo => exact (hmove _ (fun q hq => History.restore_of_redo hq) hv).imp_right .inr
  | connect w =>
    rcases (find?_connect hs w i v).1 hv with ⟨hmade, _⟩ | ⟨hold, _⟩
    · exact .inr (.inl ⟨w, rfl, hmade⟩)
    · exact .inl hold
  | edit id e => exact .inl ((s.patch.trimmed_edit id e).wires i v hv)
  | disconnect node port side =>
    exact .inl ((s.patch.trimmed_disconnect node port side).wires i v hv)
  | notify id event => exact .inl ((s.patch.trimmed_tell id event).wires i v hv)
  | remove id => exact .inl (wires_of_remove hv)
  | clear => cases hv
  | setRule | removeRule | record | forget => exact .inl hv

/-- Every wire has a number that it was given. -/
theorem issued_of_find? (h : s.Reachable) {i : WireId} {v : Wire}
    (hv : s.patch.wires.find? i = some v) : Issued i s := by
  induction h generalizing v with
  | start flow conversions capacity => cases hv
  | step op hs hop ih =>
    rcases find?_perform_cases (wired_of_reachable hs).sound hv with
      hold | ⟨w, rfl, hmade⟩ | ⟨t, hrestore, hi⟩
    · exact .later (ih hold) hop
    · exact .connected hs hmade
    · exact .restored hs hop hrestore hi

/-- In every session, whatever the hooks of its kinds make of an event and of the node that is told
of it: a wire is made iff it can be made at first, the wire in its place is let go, its types still
fit then, and the event is not cancelled once the source and then the target have been told. Its
number is above all that were given before, those of the wires that are there among them. The wires
are those before, without the one in its place if that was let go, and with the new one if it was
made. The nodes and their order are the same, no node has changed that was not told of one of the
two wires, and nothing happens at all where the wire cannot be made at first. -/
theorem connect_of_reachable (h : s.Reachable) (w : Wire) :
    ((s.patch.connect w).1.isSome = true ↔ s.patch.Connectable w ∧ ∃ r a b,
      s.patch.Freed w.target w.targetPort r ∧ r.Joins w a b ∧
        ¬ r.Vetoed (.created w a.type.id b.type.id)) ∧
    (∀ j, (s.patch.connect w).1 = some j → ∀ i, Issued i s → i < j) ∧
    (∀ i v, s.patch.wires.find? i = some v → Issued i s) ∧
    (∀ i v, (s.patch.connect w).2.wires.find? i = some v ↔
      (s.patch.connect w).1 = some i ∧ v = w ∨
        s.patch.wires.find? i = some v ∧ ¬ s.patch.Replaces w i v) ∧
    (s.patch.connect w).2.ids = s.patch.ids ∧
    (∃ ns, (s.patch.connect w).2.journal = s.patch.journal ++ ns ∧
      (∀ n ∈ ns, s.patch.Heard w n) ∧
      ∀ id, (∀ e g, .told id e g ∉ ns) → (s.patch.connect w).2.node? id = s.patch.node? id) ∧
    (¬ s.patch.Connectable w → s.patch.connect w = (none, s.patch)) := by
  have hsound := (wired_of_reachable h).sound
  obtain ⟨ns, hjournal, hids, hnode, hheard⟩ := s.patch.heard_connect w
  refine ⟨s.patch.isSome_connect_iff w, fun j hj i hi => ?_, fun i v => issued_of_find? h,
    find?_connect hsound w, hids, ⟨ns, hjournal, hheard, hnode⟩, fun hnot => ?_⟩
  · rw [((nextWire_connect hsound w).2 j hj).1]
    exact hi.lt_nextWire.2
  · have hattempt := s.patch.attempt_connect w
    generalize s.patch.connect w = a at hattempt ⊢
    cases hattempt with
    | refused => rfl
    | _ => contradiction

/-- A kind whose nodes take no wire any more once they have lost one that led to them. -/
def shy : Kind where
  declaration :=
    { Declaration.plain "shy" "example" with
      inputs := [("in", .any "In")]
      outputs := [("out", .any "Out")] }
  behaviour :=
    { onUpdate := some fun event node _ =>
        match event.change with
        | .created _ _ _ => (event, [])
        | .removed _ w =>
          if w.target = node.id then
            (event, [.addPort "in" .input { Port.any "In" with hasPort := false }])
          else (event, []) }

/-- Three nodes, and a wire from the first to the third. -/
def shied : List Operation :=
  [.declare shy, .insert "shy" "a" .origin, .insert "shy" "b" .origin, .insert "shy" "c" .origin,
    .connect ⟨"a", "out", "c", "in"⟩]

theorem reachable_shied : ((start true .base 10).performAll shied).Reachable :=
  Reaches.performAll (.start true .base 10) (by decide +kernel)

theorem issued_shied : Issued 0 ((start true .base 10).performAll shied) := by
  have hreach : ((start true .base 10).performAll shied.dropLast).Reachable :=
    Reaches.performAll (.start true .base 10) (by decide +kernel)
  exact .connected hreach (by decide +kernel)

/-- A kind whose nodes say the opposite of what they hear. -/
def contrary : Kind where
  declaration :=
    { Declaration.plain "contrary" "example" with
      inputs := [("in", .any "In")]
      outputs := [("out", .any "Out")] }
  behaviour := { onUpdate := some fun e _ _ => ({ e with cancelled := !e.cancelled }, []) }

/-- Two contrary nodes. -/
def defied : List Operation :=
  [.declare contrary, .insert "contrary" "a" .origin, .insert "contrary" "b" .origin]

theorem reachable_defied : ((start true .base 10).performAll defied).Reachable :=
  Reaches.performAll (.start true .base 10) (by decide +kernel)

/-- The wire from the second node takes the place of the one from the first, under a new number. A
wire between contrary nodes is made though its source cancels it, since its target takes that back.
-/
theorem connect_shied :
    (((start true .base 10).performAll shied).patch.connect ⟨"b", "out", "c", "in"⟩).1 = some 1 ∧
      0 < 1 ∧
      (((start true .base 10).performAll shied).patch.connect
        ⟨"b", "out", "c", "in"⟩).2.wires.find? 0 = none ∧
      (((start true .base 10).performAll shied).patch.connect
        ⟨"b", "out", "c", "in"⟩).2.ids = ((start true .base 10).performAll shied).patch.ids ∧
      (((start true .base 10).performAll defied).patch.passedOn
        (.created ⟨"a", "out", "b", "in"⟩ PortType.anyId PortType.anyId)).1.cancelled = true ∧
      (((start true .base 10).performAll defied).patch.connect
        ⟨"a", "out", "b", "in"⟩).2.wires.find? 0 = some ⟨"a", "out", "b", "in"⟩ := by
  have hmade : (((start true .base 10).performAll shied).patch.connect
      ⟨"b", "out", "c", "in"⟩).1 = some 1 := by decide +kernel
  have h := connect_of_reachable reachable_shied ⟨"b", "out", "c", "in"⟩
  have hdefied := connect_of_reachable reachable_defied ⟨"a", "out", "b", "in"⟩
  refine ⟨hmade, h.2.1 1 hmade 0 issued_shied, by decide +kernel, h.2.2.2.2.1,
    by decide +kernel, ?_⟩
  exact (hdefied.2.2.2.1 0 _).2 (.inl ⟨by decide +kernel, rfl⟩)

/-- Whatever hooks make of events: when a wire is made, and when one of its ends is told that it is
about to be made, its ports are there, its input port is free, and values can pass between the two.
The source is told of this wire and these types, in the patch as it is then, and the target of what
the source has left of that. The ports take wires but for one case: that the node has been told just
before that it loses the wire in the place of the new one. -/
theorem created_of_connect (p : Patch) (w : Wire) :
    ∃ ns ms, (p.connect w).2.journal = p.journal ++ (ns ++ ms) ∧
      (∀ n ∈ ns, p.Released w.target w.targetPort n) ∧
      ((p.connect w).1.isSome = true ∨ ms ≠ [] →
        ∃ r s t, p.Ready w r s t ∧ ms = r.tidings (.created w s.type.id t.type.id) ∧
          ∀ x e g, .told x e g ∈ ms → (x = w.source ∨ p.hook? w.source = none) →
            e = .ofChange (.created w s.type.id t.type.id) ∧ g = r.toGraph) := by
  have hattempt := p.attempt_connect w
  generalize p.connect w = a at hattempt ⊢
  cases hattempt with
  | refused => exact ⟨[], [], by simp, by simp, by simp⟩
  | kept i v _ hfound =>
    refine ⟨_, [], ?_, fun n => .told hfound, by simp⟩
    rw [List.append_nil]
    exact (informed_detach (Graph.of_wireAt? hfound).1).journal
  | mismatched _ hfreed =>
    obtain ⟨ns, hinformed, hreleased⟩ := hfreed.informed
    refine ⟨ns, [], ?_, hreleased, by simp⟩
    rw [List.append_nil]
    exact hinformed.journal
  | vetoed hw hfreed hjoins | made hw hfreed hjoins =>
    obtain ⟨ns, hinformed, hreleased⟩ := hfreed.informed
    refine ⟨ns, _, (hinformed.trans (informed_announce _ _)).journal, hreleased, fun _ => ?_⟩
    refine ⟨_, _, _, hfreed.ready hw hjoins, rfl, fun x e g hmem hx => ?_⟩
    exact first_of_mem_tidings (c := .created w _ _) hw.1 hmem (hfreed.trimmed.hook? _ ▸ hx)

/-- The wire from the second node is ready when it is made. -/
theorem created_shied :
    (((start true .base 10).performAll shied).patch.connect
        ⟨"b", "out", "c", "in"⟩).1.isSome = true ∧
      ∃ r s t, ((start true .base 10).performAll shied).patch.Ready
        ⟨"b", "out", "c", "in"⟩ r s t := by
  have hmade : (((start true .base 10).performAll shied).patch.connect
      ⟨"b", "out", "c", "in"⟩).1.isSome = true := by decide +kernel
  obtain ⟨_, _, _, _, h⟩ := created_of_connect ((start true .base 10).performAll shied).patch
    ⟨"b", "out", "c", "in"⟩
  obtain ⟨r, s, t, hready, _⟩ := h (.inl hmade)
  exact ⟨hmade, r, s, t, hready⟩

/-- It is made though its input port takes no wires any more: the third node has closed the port
when it lost the wire from the first, and the ends of the new wire are told of it while the port is
closed. -/
theorem portless_shied : ((start true .base 10).performAll shied).Reachable ∧
    (((start true .base 10).performAll shied).patch.connect ⟨"b", "out", "c", "in"⟩).1 = some 1 ∧
    ((((start true .base 10).performAll shied).patch.connect
      ⟨"b", "out", "c", "in"⟩).2.port? "c" "in" .input).map (·.hasPort) = some false ∧
    ((((start true .base 10).performAll shied).patch.connect
      ⟨"b", "out", "c", "in"⟩).2.journal.any fun
        | .told "b" e g =>
          e.change = .created ⟨"b", "out", "c", "in"⟩ PortType.anyId PortType.anyId &&
            (g.port? "c" "in" .input).any (!·.hasPort)
        | _ => false) = true :=
  ⟨reachable_shied, by decide +kernel, by decide +kernel, by decide +kernel⟩

end Session

end Patchbay
