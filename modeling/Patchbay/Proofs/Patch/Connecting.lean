import Patchbay.Proofs.Patch.Telling

/-!
# Attempts to make a wire

An attempt to make a wire can end in five ways, and `Attempt` lists them: the wire is refused at
once, the wire in its place is kept, the types of its ports do not fit any more once that wire is
gone, one of its ends refuses, or it is made. In between the hooks of up to four nodes run, and may
edit their nodes; `Freed` says what the patch has become when the input port is free. All that is
claimed of `connect` is read off these cases.

## Key results

- `attempt_connect`: `connect` ends in one of the five ways
- `isSome_connect_iff`: when a wire is made
- `find?_connect`: what has become of the wires
- `heard_connect`: what nodes were told, and that all others are as before
-/

namespace Patchbay

namespace Graph

/-- The wire leads from the port `s` to the port `t`, and values can pass. -/
structure Joins (g : Graph) (w : Wire) (s t : Port) : Prop where
  source : g.port? w.source w.sourcePort .output = some s
  target : g.port? w.target w.targetPort .input = some t
  fits : g.conversions.canConnect s.type t.type = true

/-- The wire leads to another node, and both its ports are there, take wires, and have types between
which values can pass. -/
def Connectable (g : Graph) (w : Wire) : Prop :=
  w.source ≠ w.target ∧ ∃ s t, g.Joins w s t ∧ s.hasPort = true ∧ t.hasPort = true

variable {g : Graph} {w : Wire} {s t s' t' : Port}

theorem Joins.unique (h : g.Joins w s t) (h' : g.Joins w s' t') : s = s' ∧ t = t' :=
  ⟨Option.some.inj (h.source.symm.trans h'.source), Option.some.inj (h.target.symm.trans h'.target)⟩

/-- The types of the ports that a wire joins. -/
theorem Joins.typesOf?_eq (h : g.Joins w s t) : g.typesOf? w = some (s.type, t.type) := by
  simp [typesOf?, h.source, h.target, h.fits]

theorem exists_joins_of_typesOf? {a b : PortType} (h : g.typesOf? w = some (a, b)) :
    ∃ s t, g.Joins w s t ∧ s.type = a ∧ t.type = b := by
  unfold typesOf? at h
  cases hs : g.port? w.source w.sourcePort .output with
  | none => simp [hs] at h
  | some s =>
    cases ht : g.port? w.target w.targetPort .input with
    | none => simp [hs, ht] at h
    | some t =>
      simp only [hs, ht, Option.bind_eq_bind, Option.bind_some] at h
      split at h
      next hfits =>
        obtain ⟨ha, hb⟩ := Prod.mk.inj (Option.some.inj h)
        exact ⟨s, t, ⟨hs, ht, hfits⟩, ha, hb⟩
      next => cases h

theorem not_joins_of_typesOf? (h : g.typesOf? w = none) (s t : Port) : ¬ g.Joins w s t := by
  intro hjoins
  rw [hjoins.typesOf?_eq] at h
  cases h

/-- The checks of a new wire, in other words. -/
theorem admits_iff_connectable (g : Graph) (w : Wire) : g.admits w = true ↔ g.Connectable w := by
  rw [admits_iff, Connectable, Option.isSome_iff_exists]
  refine and_congr_right fun _ => ⟨?_, ?_⟩
  · rintro ⟨⟨hs, ht⟩, types, htypes⟩
    obtain ⟨s, t, hjoins, _⟩ := exists_joins_of_typesOf? htypes
    refine ⟨s, t, hjoins, ?_, ?_⟩
    · simpa [takesWire, hjoins.source] using hs
    · simpa [takesWire, hjoins.target] using ht
  · rintro ⟨s, t, hjoins, hs, ht⟩
    refine ⟨⟨?_, ?_⟩, _, hjoins.typesOf?_eq⟩
    · simpa [takesWire, hjoins.source] using hs
    · simpa [takesWire, hjoins.target] using ht

end Graph

namespace Patch

open Patchbay.Graph

variable {p q r : Patch} {w : Wire} {node port : String}

/-! ### Freeing an input port -/

/-- The patch `r` is `p` with an input port that no wire leads to: there is none, or it was detached
and its ends have not refused. -/
inductive Freed (p : Patch) (node port : String) : Patch → Prop where
  | already : p.wireAt? node port .input = none → Freed p node port p
  | detached (i : WireId) (v : Wire) : p.wireAt? node port .input = some (i, v) →
    ¬ (p.cut i).Vetoed (.removed i v) → Freed p node port ((p.cut i).announce (.removed i v)).2

theorem Freed.unique (h : p.Freed node port q) (h' : p.Freed node port r) : q = r := by
  cases h with
  | already hnone =>
    cases h' with
    | already => rfl
    | detached i v hfound => cases hnone.symm.trans hfound
  | detached i v hfound =>
    cases h' with
    | already hnone => cases hnone.symm.trans hfound
    | detached j u hfound' =>
      obtain ⟨rfl, rfl⟩ := Prod.mk.inj (Option.some.inj (hfound.symm.trans hfound'))
      rfl

theorem Freed.trimmed (h : p.Freed node port r) : p.Trimmed r := by
  cases h with
  | already => exact .refl p
  | detached i v => exact (p.trimmed_cut i).trans (trimmed_announce _ _)

/-- The wire at an input port is let go by its ends, or it is kept. -/
theorem freeInput_cases (p : Patch) (node port : String) :
    (∃ r, p.Freed node port r ∧ p.freeInput node port = (false, r)) ∨
      ∃ i v, p.wireAt? node port .input = some (i, v) ∧ (p.cut i).Vetoed (.removed i v) ∧
        p.freeInput node port = (true, (p.detach i v).2) := by
  unfold freeInput
  cases hfound : p.wireAt? node port .input with
  | none => exact .inl ⟨p, .already hfound, rfl⟩
  | some e =>
    obtain ⟨i, v⟩ := e
    by_cases h : (p.cut i).Vetoed (.removed i v)
    · exact .inr ⟨i, v, rfl, h, Prod.ext (detach_of_vetoed h).1 rfl⟩
    · exact .inl ⟨_, .detached i v hfound h, detach_of_not_vetoed h⟩

/-! ### How an attempt ends -/

/-- The ways in which an attempt to make a wire may end. -/
inductive Attempt (p : Patch) (w : Wire) : Option WireId × Patch → Prop where
  /-- The wire is refused before anything happens. -/
  | refused : ¬ p.Connectable w → Attempt p w (none, p)
  /-- The ends of the wire that leads to the input port keep it. -/
  | kept (i : WireId) (v : Wire) : p.Connectable w →
    p.wireAt? w.target w.targetPort .input = some (i, v) → (p.cut i).Vetoed (.removed i v) →
    Attempt p w (none, (p.detach i v).2)
  /-- The hooks that were told of the old wire have changed types. -/
  | mismatched {r : Patch} : p.Connectable w → p.Freed w.target w.targetPort r →
    (∀ s t, ¬ r.Joins w s t) → Attempt p w (none, r)
  /-- The ends of the new wire refuse it. -/
  | vetoed {r : Patch} {s t : Port} : p.Connectable w → p.Freed w.target w.targetPort r →
    r.Joins w s t → r.Vetoed (.created w s.type.id t.type.id) →
    Attempt p w (none, (r.announce (.created w s.type.id t.type.id)).2)
  | made {r : Patch} {s t : Port} : p.Connectable w → p.Freed w.target w.targetPort r →
    r.Joins w s t → ¬ r.Vetoed (.created w s.type.id t.type.id) →
    Attempt p w (some p.nextWire, (r.announce (.created w s.type.id t.type.id)).2.addWire w)

/-- An attempt to make a wire ends in one of these ways. -/
theorem attempt_connect (p : Patch) (w : Wire) : p.Attempt w (p.connect w) := by
  unfold connect
  split
  next hadmits =>
    have hconnectable := (p.admits_iff_connectable w).1 hadmits
    obtain ⟨r, hfreed, hfree⟩ | ⟨i, v, hfound, hvetoed, hfree⟩ :=
      p.freeInput_cases w.target w.targetPort
    · rw [hfree]
      simp only [Bool.false_eq_true, ↓reduceIte]
      cases htypes : r.typesOf? w with
      | none => exact .mismatched hconnectable hfreed (not_joins_of_typesOf? htypes)
      | some types =>
        obtain ⟨s, t, hjoins, hs, ht⟩ :=
          exists_joins_of_typesOf? (a := types.1) (b := types.2) htypes
        dsimp only
        rw [← hs, ← ht]
        cases hveto : (r.announce (.created w s.type.id t.type.id)).1 with
        | true =>
          exact .vetoed hconnectable hfreed hjoins ((announce_eq_true_iff _ _).1 hveto)
        | false =>
          have hnext : (r.announce (.created w s.type.id t.type.id)).2.nextWire = p.nextWire :=
            (trimmed_announce _ _).nextWire.trans hfreed.trimmed.nextWire
          simp only [Bool.false_eq_true, ↓reduceIte, hnext]
          exact .made hconnectable hfreed hjoins ((announce_eq_false_iff _ _).1 hveto)
    · rw [hfree]
      exact .kept i v hconnectable hfound hvetoed
  next hadmits =>
    exact .refused fun hconnectable => hadmits ((p.admits_iff_connectable w).2 hconnectable)

/-- A wire is made iff it can be made at first, the ends of the wire in its place let that go, its
types still fit then, and its own ends do not refuse. -/
theorem isSome_connect_iff (p : Patch) (w : Wire) :
    (p.connect w).1.isSome = true ↔ p.Connectable w ∧ ∃ r s t,
      p.Freed w.target w.targetPort r ∧ r.Joins w s t ∧
        ¬ r.Vetoed (.created w s.type.id t.type.id) := by
  have hattempt := p.attempt_connect w
  generalize p.connect w = a at hattempt ⊢
  constructor
  · intro hmade
    cases hattempt with
    | made hconnectable hfreed hjoins hvetoed =>
      exact ⟨hconnectable, _, _, _, hfreed, hjoins, hvetoed⟩
    | _ => cases hmade
  · rintro ⟨hconnectable, r, s, t, hfreed, hjoins, hvetoed⟩
    cases hattempt with
    | refused hnot => exact absurd hconnectable hnot
    | kept i v _ hfound hkept =>
      cases hfreed with
      | already hnone => cases hnone.symm.trans hfound
      | detached j u hfound' hfree =>
        obtain ⟨rfl, rfl⟩ := Prod.mk.inj (Option.some.inj (hfound.symm.trans hfound'))
        exact absurd hkept hfree
    | mismatched _ hfreed' hnot =>
      obtain rfl := hfreed.unique hfreed'
      exact absurd hjoins (hnot s t)
    | vetoed _ hfreed' hjoins' hvetoed' =>
      obtain rfl := hfreed.unique hfreed'
      obtain ⟨rfl, rfl⟩ := hjoins.unique hjoins'
      exact absurd hvetoed' hvetoed
    | made => rfl

/-! ### The wires and nodes afterwards -/

/-- A wire gives way to one that can be made: it leads to the same input port, and its ends let it
go. -/
structure Replaces (p : Patch) (w : Wire) (i : WireId) (v : Wire) : Prop where
  connectable : p.Connectable w
  found : p.wireAt? w.target w.targetPort .input = some (i, v)
  free : ¬ (p.cut i).Vetoed (.removed i v)

/-- Where the input port of a wire that can be made is freed, the wires that do not give way are
left. -/
theorem Freed.find?_iff (h : p.Freed w.target w.targetPort r) (hw : p.Connectable w) (i : WireId)
    (v : Wire) : r.wires.find? i = some v ↔ p.wires.find? i = some v ∧ ¬ p.Replaces w i v := by
  cases h with
  | already hnone =>
    refine ⟨fun hv => ⟨hv, fun hreplaces => ?_⟩, fun hv => hv.1⟩
    cases hnone.symm.trans hreplaces.found
  | detached j u hfound hfree =>
    rw [wires_announce]
    refine (iff_of_eq (congrArg (· = some v) (p.wires.find?_erase j i))).trans ?_
    by_cases hi : i = j
    · subst hi
      rw [if_pos rfl]
      refine ⟨fun hv => (by cases hv), fun ⟨hv, hnot⟩ => absurd ?_ hnot⟩
      obtain rfl := Option.some.inj ((of_wireAt? hfound).1.symm.trans hv)
      exact ⟨hw, hfound, hfree⟩
    · rw [if_neg hi]
      refine ⟨fun hv => ⟨hv, fun hreplaces => hi ?_⟩, fun hv => hv.1⟩
      exact (Prod.mk.inj (Option.some.inj (hreplaces.found.symm.trans hfound))).1

/-- The wires are those that were there and did not give way, and the new one if it was made. -/
theorem find?_connect (hp : p.Sound) (w : Wire) (i : WireId) (v : Wire) :
    (p.connect w).2.wires.find? i = some v ↔
      (p.connect w).1 = some i ∧ v = w ∨ p.wires.find? i = some v ∧ ¬ p.Replaces w i v := by
  have hattempt := p.attempt_connect w
  generalize p.connect w = a at hattempt ⊢
  cases hattempt with
  | refused hnot =>
    have hreplaces : ¬ p.Replaces w i v := fun h => hnot h.connectable
    simp [hreplaces]
  | kept j u _ hfound hkept =>
    have hreplaces : ¬ p.Replaces w i v := by
      intro h
      obtain ⟨rfl, rfl⟩ := Prod.mk.inj (Option.some.inj (hfound.symm.trans h.found))
      exact h.free hkept
    simp [wires_detach_of_vetoed (of_wireAt? hfound).1 hkept, hreplaces]
  | mismatched hw hfreed => simp [hfreed.find?_iff hw]
  | vetoed hw hfreed => simp [hfreed.find?_iff hw]
  | @made r s t hw hfreed =>
    have hnext : (r.announce (.created w s.type.id t.type.id)).2.nextWire = p.nextWire :=
      (trimmed_announce _ _).nextWire.trans hfreed.trimmed.nextWire
    have hfresh : ¬ p.wires.find? p.nextWire = some v :=
      fun hv => Nat.lt_irrefl _ (hp.below _ v hv)
    show ((r.announce _).2.wires.insert _ w).find? i = some v ↔ _
    rw [Table.find?_insert, hnext, wires_announce]
    by_cases hi : i = p.nextWire
    · subst hi
      simp [hfresh, eq_comm]
    · simp [hi, Ne.symm hi, hfreed.find?_iff hw]

/-! ### What nodes are told -/

/-- An end of the wire at an input port is told that this wire is taken away: the source exactly so,
the target as the source has left it. -/
inductive Released (p : Patch) (node port : String) : Notice → Prop where
  | told {i : WireId} {v : Wire} {n : Notice} : p.wireAt? node port .input = some (i, v) →
    n ∈ (p.cut i).tidings (.removed i v) → Released p node port n

/-- What nodes may be told while a wire is made: the ends of the wire in its place, that this is
taken away, and the ends of the wire itself, that it is made. -/
inductive Heard (p : Patch) (w : Wire) : Notice → Prop where
  | removed {n : Notice} : p.Released w.target w.targetPort n → Heard p w n
  /-- By then the input port is free, and the wire fits. -/
  | created {r : Patch} {s t : Port} {n : Notice} : p.Connectable w →
    p.Freed w.target w.targetPort r → r.Joins w s t →
    n ∈ r.tidings (.created w s.type.id t.type.id) → Heard p w n

/-- While a port is freed, only the ends of the wire that led there are told anything. -/
theorem Freed.informed (h : p.Freed node port r) :
    ∃ ns, p.Informed ns r ∧ ∀ n ∈ ns, p.Released node port n := by
  cases h with
  | already => exact ⟨[], .refl p, fun n hn => by cases hn⟩
  | detached i v hfound hfree =>
    have hinformed := informed_detach (of_wireAt? hfound).1
    rw [detach_of_not_vetoed hfree] at hinformed
    exact ⟨_, hinformed, fun n => .told hfound⟩

/-- The same, when the ends of the new wire have been told as well. -/
theorem Freed.informed_announce (h : p.Freed w.target w.targetPort r) (hw : p.Connectable w)
    (hjoins : r.Joins w s t) :
    ∃ ns, p.Informed ns (r.announce (.created w s.type.id t.type.id)).2 ∧
      ∀ n ∈ ns, p.Heard w n := by
  obtain ⟨ns, hinformed, hreleased⟩ := h.informed
  refine ⟨_, hinformed.trans (Patch.informed_announce r _), fun n hn => ?_⟩
  refine (List.mem_append.1 hn).elim (fun hn => ?_) (.created hw h hjoins)
  exact .removed (hreleased n hn)

/-- The node has a hook that is told when an input port is freed: it is an end of the wire there. -/
def Concerned (p : Patch) (node port x : String) : Prop :=
  ∃ i v, p.wireAt? node port .input = some (i, v) ∧ (x = v.source ∨ x = v.target) ∧
    (p.hook? x).isSome

/-- While a port is freed, only nodes that are told so can change. -/
theorem Freed.node?_cases (h : p.Freed node port r) (x : String) :
    r.node? x = p.node? x ∨ p.Concerned node port x := by
  obtain ⟨ns, hinformed, hreleased⟩ := h.informed
  by_cases htold : ∃ e g, .told x e g ∈ ns
  · obtain ⟨e, g, hmem⟩ := htold
    cases hreleased _ hmem with
    | @told i v _ hfound hn =>
      obtain ⟨y, _, _, hy, hx, hh, _⟩ := exists_of_mem_tidings hn
      obtain rfl : x = y := (Notice.told.inj hy).1
      exact .inr ⟨i, v, hfound, hx, (p.trimmed_cut i).hook? x ▸ hh⟩
  · exact .inl (hinformed.node? x fun e g hmem => htold ⟨e, g, hmem⟩)

/-- The wire is about to be made in the patch `r`, whose input port is free: its ports are there,
and values can pass between them. Each of them took wires before, and so it does now, unless its
node was told that the port was freed. -/
structure Ready (p : Patch) (w : Wire) (r : Patch) (s t : Port) : Prop where
  connectable : p.Connectable w
  freed : p.Freed w.target w.targetPort r
  joins : r.Joins w s t
  source : s.hasPort = true ∨ p.Concerned w.target w.targetPort w.source
  target : t.hasPort = true ∨ p.Concerned w.target w.targetPort w.target

/-- What was seen of the ports before holds of those that no hook has changed since. -/
theorem Freed.ready (h : p.Freed w.target w.targetPort r) (hw : p.Connectable w)
    (hjoins : r.Joins w s t) : p.Ready w r s t := by
  have ⟨_, s₀, t₀, hjoins₀, hs₀, ht₀⟩ := hw
  refine ⟨hw, h, hjoins, ?_, ?_⟩
  · refine (h.node?_cases w.source).imp_left fun hsame => ?_
    have hs := hjoins.source
    rw [port?_congr hsame, hjoins₀.source] at hs
    exact Option.some.inj hs ▸ hs₀
  · refine (h.node?_cases w.target).imp_left fun hsame => ?_
    have ht := hjoins.target
    rw [port?_congr hsame, hjoins₀.target] at ht
    exact Option.some.inj ht ▸ ht₀

/-- Making a wire leaves the nodes in their order, and changes none but those that are told of it or
of the wire in its place. -/
theorem heard_connect (p : Patch) (w : Wire) : ∃ ns, (p.connect w).2.journal = p.journal ++ ns ∧
    (p.connect w).2.ids = p.ids ∧
    (∀ id, (∀ e g, .told id e g ∉ ns) → (p.connect w).2.node? id = p.node? id) ∧
    ∀ n ∈ ns, p.Heard w n := by
  -- But for the new wire, which is neither a node nor a notice, the patch is one that was informed.
  suffices ∃ ns q, p.Informed ns q ∧ (∀ n ∈ ns, p.Heard w n) ∧
      (p.connect w).2.journal = q.journal ∧ (p.connect w).2.nodes = q.nodes by
    obtain ⟨ns, q, hinformed, hheard, hjournal, hnodes⟩ := this
    refine ⟨ns, hjournal.trans hinformed.journal, ?_, fun id hid => ?_, hheard⟩
    · exact (congrArg (List.map Node.id) hnodes).trans hinformed.trimmed.ids
    · exact (congrArg (List.find? fun n : Node => n.id = id) hnodes).trans (hinformed.node? id hid)
  have hattempt := p.attempt_connect w
  generalize p.connect w = a at hattempt ⊢
  cases hattempt with
  | refused => exact ⟨[], p, .refl p, fun n hn => (by cases hn), rfl, rfl⟩
  | kept i v _ hfound hkept =>
    have hinformed := informed_detach (of_wireAt? hfound).1
    exact ⟨_, _, hinformed, fun n hn => .removed (.told hfound hn), rfl, rfl⟩
  | mismatched _ hfreed =>
    obtain ⟨ns, hinformed, hreleased⟩ := hfreed.informed
    exact ⟨ns, _, hinformed, fun n hn => .removed (hreleased n hn), rfl, rfl⟩
  | vetoed hconnectable hfreed hjoins | made hconnectable hfreed hjoins =>
    obtain ⟨ns, hinformed, hheard⟩ := hfreed.informed_announce hconnectable hjoins
    exact ⟨ns, _, hinformed, hheard, rfl, rfl⟩

end Patch

end Patchbay
