import Patchbay.Proofs.Patch.Regular

/-!
# Making wires in regular patches

Where a wire is made, a reroute at its target takes the type of its source. No older wire has to fit
that type: the reroute was not fed, so the wires out of it were not settled, and they are older than
the wire that feeds it now.

## Key results

- `connect_eq`: a wire that is admitted to a free input is made
- `regular_connect` / `regular_restore`: making wires keeps a patch regular
-/

namespace Patchbay

namespace Patch

open Patchbay.Graph

variable {p q : Patch}

/-- A reroute has an output. -/
theorem Regular.isSome_typeOf?_out (hp : p.Regular) {id : String} (hr : p.reroutes id = true) :
    (p.typeOf? id "out" .output).isSome := by
  obtain ⟨ha, _⟩ | ⟨a, b, _, hb, _⟩ := hp.conforming.port?_like hp.sound id "out" .output
  · rw [hp.tame.startOf?_eq hp.sound hr] at ha
    cases ha
  · simp [typeOf?, hb]

theorem of_typesOf? {w : Wire} {s t : PortType} (h : p.typesOf? w = some (s, t)) :
    p.typeOf? w.source w.sourcePort .output = some s ∧
      p.typeOf? w.target w.targetPort .input = some t ∧ p.conversions.canConnect s t = true := by
  rw [typesOf?_eq] at h
  cases hs : p.typeOf? w.source w.sourcePort .output with
  | none => simp [hs] at h
  | some s' =>
    cases ht : p.typeOf? w.target w.targetPort .input with
    | none => simp [hs, ht] at h
    | some t' =>
      simp only [hs, ht, Option.bind_some] at h
      split at h
      next hcan =>
        obtain ⟨rfl, rfl⟩ := Prod.mk.inj (Option.some.inj h)
        exact ⟨rfl, rfl, hcan⟩
      next => cases h

/-- The ends of a new wire are told; then a reroute at its target has the type of its source. -/
theorem Regular.announce_created (hp : p.Regular) {w : Wire} (hloop : w.source ≠ w.target)
    {s t : PortType} (hst : p.typesOf? w = some (s, t)) :
    ∃ q, p.announce (.created w s.id t.id) = (false, q) ∧
      p.Adopted w.target (if p.reroutes w.target then some s else none) q := by
  obtain ⟨q, hq, hadopted⟩ :=
    announce_eq hp.sound hp.tame (c := .created w s.id t.id) (w := w) rfl hloop
  refine ⟨q, hq, ?_⟩
  have hs : p.newType (.created w s.id t.id) = some s := (of_typesOf? hst).1
  rw [hs] at hadopted
  cases hr : p.reroutes w.target with
  | false => simpa [hr] using hadopted
  | true =>
    -- A wire into a reroute leads to the input that the hook looks at.
    have hin : w.targetPort = "in" := hp.eq_reroutePort hr (typesOf?_isSome hst).2
    simpa [hr, hin] using hadopted

/-- A reroute at a free input is not fed. -/
theorem Regular.not_fed (hp : p.Regular) {node port : String}
    (hfree : p.wireAt? node port .input = none) (hport : (p.port? node port .input).isSome)
    (hr : p.reroutes node = true) {i : WireId} {v : Wire} (hv : p.wires.find? i = some v) :
    v.target ≠ node := by
  rintro rfl
  have hin : v.targetPort = port :=
    (hp.eq_reroutePort hr (hp.sound.target i v hv)).trans (hp.eq_reroutePort hr hport).symm
  have hnot := (wireAt?_eq_none_iff _ _ _ _).1 hfree i v hv
  rw [(endsAt_input _ _ _).2 ⟨rfl, hin⟩] at hnot
  cases hnot

/-- The patch `q` is `p` after both ends were told of a wire that can be made between them; the type
at its source is `s`. -/
structure Agreed (p : Patch) (w : Wire) (s : PortType) (q : Patch) : Prop where
  loopless : w.source ≠ w.target
  isOpen : p.Open w
  types : ∃ t, p.typesOf? w = some (s, t)
  free : p.wireAt? w.target w.targetPort .input = none
  adopted : p.Adopted w.target (if p.reroutes w.target then some s else none) q

namespace Agreed

variable {w : Wire} {s : PortType}

theorem conforming (hp : p.Regular) (h : p.Agreed w s q) : q.Conforming :=
  hp.conforming.adopt h.adopted fun hsome => by
    split at hsome
    next hr => exact hr
    next => cases hsome

theorem sound (hp : p.Regular) (h : p.Agreed w s q) : q.Sound :=
  hp.sound.trimmed h.adopted.trimmed.toTrimmed

/-- All but a reroute that the wire leads to keep their types. -/
theorem typeOf?_eq (h : p.Agreed w s q) {id : String} (hid : id = w.target → p.reroutes id = false)
    (name : String) (side : Side) : q.typeOf? id name side = p.typeOf? id name side := by
  by_cases heq : id = w.target
  · have hadopted := h.adopted
    rw [← heq, hid heq, if_neg (by simp)] at hadopted
    exact hadopted.typeOf?_none id name side
  · exact h.adopted.typeOf?_of_ne heq name side

/-- A reroute that the wire leads to was not fed. -/
theorem target_ne (hp : p.Regular) (h : p.Agreed w s q) (hr : p.reroutes w.target = true)
    {i : WireId} {v : Wire} (hv : p.wires.find? i = some v) : v.target ≠ w.target := by
  obtain ⟨t, ht⟩ := h.types
  exact hp.not_fed h.free (typesOf?_isSome ht).2 hr hv

/-- The wires are the old ones and the new one. -/
theorem wires_cases (h : p.Agreed w s q) {i : WireId} {v : Wire}
    (hv : (q.addWire w).wires.find? i = some v) :
    i = p.nextWire ∧ v = w ∨ p.wires.find? i = some v := by
  rw [← h.adopted.trimmed.nextWire, ← h.adopted.wires]
  exact wires_addWire_cases hv

/-- The new wire fits. -/
theorem fits_new (hp : p.Regular) (h : p.Agreed w s q) : q.Fits w := by
  obtain ⟨t, ht⟩ := h.types
  have hsource := h.typeOf?_eq fun heq => absurd heq h.loopless
  unfold Fits
  rw [h.adopted.reroutes, hsource]
  cases hr : p.reroutes w.target with
  | true =>
    have hadopted := h.adopted
    rw [hr, if_pos rfl] at hadopted
    obtain ⟨u, hu⟩ := Option.isSome_iff_exists.1 (hp.isSome_typeOf?_out hr)
    rw [if_pos rfl, hadopted.typeOf?_self.1, hu, (of_typesOf? ht).1]
    rfl
  | false =>
    have htarget : ∀ name side, q.typeOf? w.target name side = p.typeOf? w.target name side :=
      h.typeOf?_eq fun _ => hr
    rw [if_neg (by simp), typesOf?_congr h.adopted.trimmed.conversions (hsource _ _) (htarget _ _),
      ht]
    rfl

/-- What was settled for an old wire was so before the new one. -/
theorem settled (hp : p.Regular) (h : p.Agreed w s q) {i : WireId} {v : Wire}
    (hv : p.wires.find? i = some v) {id : String} (hsettled : (q.addWire w).Settled i id) :
    p.Settled i id := by
  rcases hsettled with hr | ⟨j, x, hx, hxt, hj⟩
  · exact .inl ((h.adopted.reroutes id).symm.trans hr)
  · rcases h.wires_cases hx with ⟨rfl, _⟩ | hx
    · exact absurd hj (Nat.not_lt_of_gt (hp.sound.below i v hv))
    · exact .inr ⟨j, x, hx, hxt, hj⟩

/-- An old wire that was settled still fits. -/
theorem fits_old (hp : p.Regular) (h : p.Agreed w s q) {i : WireId} {v : Wire}
    (hv : p.wires.find? i = some v) (hsettled : p.Settled i v.source) : q.Fits v := by
  -- Had the source been the reroute that is fed now, the wire would not have been settled.
  have hsource : v.source = w.target → p.reroutes v.source = false := fun heq => by
    rcases hsettled with hr | ⟨j, x, hx, hxt, _⟩
    · exact hr
    · cases hr : p.reroutes v.source with
      | false => rfl
      | true => exact absurd (hxt.trans heq) (h.target_ne hp (heq ▸ hr) hx)
  have htarget : v.target = w.target → p.reroutes v.target = false := fun heq => by
    cases hr : p.reroutes v.target with
    | false => rfl
    | true => exact absurd heq (h.target_ne hp (heq ▸ hr) hv)
  exact (hp.fits i v hv hsettled).congr h.adopted.trimmed.conversions (h.adopted.reroutes _)
    (h.typeOf?_eq hsource) (h.typeOf?_eq htarget)

/-- A wire that both ends were told of keeps a patch regular. -/
theorem regular (hp : p.Regular) (h : p.Agreed w s q) : (q.addWire w).Regular := by
  have hs := h.sound hp
  have hc := h.conforming hp
  have htrim := h.adopted.trimmed
  constructor
  case sound =>
    obtain ⟨t, ht⟩ := h.types
    obtain ⟨hports, hportt⟩ := typesOf?_isSome ht
    refine sound_addWire hs h.loopless (htrim.isSome_port? hports) (htrim.isSome_port? hportt) ?_
    -- The input was free before the ends were told, and telling them makes no wires.
    have hfree := (wireAt?_eq_none_iff _ _ _ _).1 h.free
    exact (wireAt?_eq_none_iff _ _ _ _).2 fun i v hv => hfree i v (htrim.wires i v hv)
  case tame => exact hp.tame.of_kinds htrim.kinds htrim.behaviour
  case conforming => exact hc
  case isOpen =>
    intro i v hv
    show q.Open v
    refine hp.conforming.open_congr hp.sound hc hs htrim.kinds (htrim.kindOf? _)
      (htrim.kindOf? _) ?_
    rcases h.wires_cases hv with ⟨_, rfl⟩ | hv
    · exact h.isOpen
    · exact hp.isOpen i v hv
  case fits =>
    intro i v hv hsettled
    show q.Fits v
    rcases h.wires_cases hv with ⟨_, rfl⟩ | hv
    · exact h.fits_new hp
    · exact h.fits_old hp hv (h.settled hp hv hsettled)

end Agreed

/-- A wire that fits a free input is made, once both ends were told. -/
theorem connect_eq (hp : p.Regular) {w : Wire} (hw : p.admits w = true)
    (hfree : p.wireAt? w.target w.targetPort .input = none) :
    ∃ s q, p.Agreed w s q ∧ p.connect w = (some q.nextWire, q.addWire w) := by
  obtain ⟨hloop, hopen, htypes⟩ := (admits_iff _ _).1 hw
  obtain ⟨⟨s, t⟩, hst⟩ := Option.isSome_iff_exists.1 htypes
  obtain ⟨q, hq, hadopted⟩ := hp.announce_created hloop hst
  refine ⟨s, q, ⟨hloop, hopen, ⟨t, hst⟩, hfree, hadopted⟩, ?_⟩
  simp only [connect, hw, freeInput, hfree, hst, hq, if_pos]
  rfl

theorem regular_connect (hp : p.Regular) (w : Wire) : (p.connect w).2.Regular := by
  unfold connect
  split
  next hw =>
    obtain ⟨hloop, hopen, _⟩ := (admits_iff _ _).1 hw
    obtain ⟨q, hq, hreg, htrim, hfree⟩ := regular_freeInput hp w.target w.targetPort
    rw [hq]
    dsimp only
    rw [if_neg (by simp)]
    -- Types may have changed when the input was freed.
    cases hst : q.typesOf? w with
    | none => exact hreg
    | some st =>
      obtain ⟨s, t⟩ := st
      obtain ⟨r, hr, hadopted⟩ := hreg.announce_created hloop hst
      have hopen := hp.conforming.open_congr hp.sound hreg.conforming hreg.sound htrim.kinds
        (htrim.kindOf? _) (htrim.kindOf? _) hopen
      simp only [hr]
      exact Agreed.regular hreg ⟨hloop, hopen, ⟨t, hst⟩, hfree, hadopted⟩
  next => exact hp

/-! ### Restoring snapshots -/

theorem regular_note (hp : p.Regular) (n : Notice) : (p.note n).Regular :=
  ⟨hp.sound, hp.tame, hp.conforming, hp.isOpen, hp.fits⟩

theorem regular_clear (hp : p.Regular) : p.clear.Regular :=
  regular_of_wires_eq_empty (sound_clear hp.sound) hp.tame (fun _ _ _ h => by cases h) rfl

theorem retains_setValue (p : Patch) (id name : String) (side : Side) (v : Value) :
    p.retains id (.setValue name side v) = true := by
  unfold NodeEdit.setValue retains
  cases p.port? id name side <;> simp

theorem regular_restoreValues (hp : p.Regular) (id : String) (side : Side) (values : PortValues) :
    (p.restoreValues id side values).Regular := by
  refine List.foldlRecOn values.entries _ hp fun q hq e _ => ?_
  split
  · exact regular_edit hq (retains_setValue q id e.1 side e.2)
  · exact regular_note hq _

theorem regular_restoreNode (hp : p.Regular) (hw : p.wires = ∅) {s : NodeState}
    (h : p.restoreNode s = .ok q) : q.Regular ∧ q.wires = ∅ := by
  refine ⟨?_, (sound_restoreNode hp.sound hw h).2.1⟩
  obtain ⟨r, hr, rfl⟩ := restoreNode_cases h
  have hinputs := regular_restoreValues (regular_insert hp (.inr hw) hr) s.id .input s.inputs
  have houtputs := regular_restoreValues hinputs s.id .output s.outputs
  unfold fill
  exact regular_edit houtputs (e := .setData s.data) rfl

theorem regular_restoreWire (hp : p.Regular) (w : Wire) : (p.restoreWire w).Regular := by
  have hreg := regular_connect hp w
  unfold restoreWire
  split
  next h => rwa [h] at hreg
  next h =>
    rw [h] at hreg
    exact regular_note hreg _

/-- What any snapshot is restored to is regular. -/
theorem regular_restore (hp : p.Regular) {s : Snapshot} (h : p.restore s = .ok q) :
    q.Regular := by
  obtain ⟨r, hfold, rfl⟩ := restore_cases h
  obtain ⟨hr, _⟩ := foldlM_keeps (fun r => r.Regular ∧ r.wires = ∅) hfold
    ⟨regular_clear hp, rfl⟩ fun r n r' _ hr hone => regular_restoreNode hr.1 hr.2 hone
  exact List.foldlRecOn s.wires restoreWire hr fun _ hreg w _ => regular_restoreWire hreg w

end Patch

end Patchbay
