import Patchbay.Proofs.Patch.Rewiring
import Patchbay.Proofs.Patch.RoundTrip

/-!
# Reroutes that nothing feeds

In a regular patch the two ports of a reroute have one type, which is that of the wire into it, and
they take anything while there is no such wire. It takes a look at every way in which a wire can
go: a reroute only hears of wires that are detached, so none may be dropped at its input while it
stays (`Regular.untouched_detachPorts`).

What this says about wires is that only a reroute that was fed late can be the source of a wire
whose types do not fit: when the wire was made, the reroute gave anything, and no one has asked
since.

## Key results

- `relaxed_connect` / `relaxed_remove` / `relaxed_restore`: all operations keep a patch relaxed
- `Relaxed.fits_or_fedLater`: the types of a wire fit, or its source was fed after it was made
-/

namespace Patchbay

namespace Patch

open Patchbay.Graph

variable {p q : Patch}

/-- A reroute that no wire leads to. -/
def Idle (p : Patch) (id : String) : Prop :=
  p.reroutes id = true ∧ ∀ i w, p.wires.find? i = some w → w.target ≠ id

/-- A regular patch whose reroutes have one type at both ports, the one for anything while they are
idle. -/
structure Relaxed (p : Patch) : Prop extends p.Regular where
  level : ∀ id, p.reroutes id = true → p.typeOf? id "in" .input = p.typeOf? id "out" .output
  rest : ∀ id, p.Idle id → p.typeOf? id "out" .output = some .any

/-- Where each reroute has started anew, or is as before and not fed any less, a patch stays
relaxed. -/
theorem Relaxed.transfer (hp : p.Relaxed) (hq : q.Regular)
    (h : ∀ id, q.reroutes id = true →
      (q.typeOf? id "in" .input = some .any ∧ q.typeOf? id "out" .output = some .any) ∨
      p.reroutes id = true ∧ (q.Idle id → p.Idle id) ∧
        ∀ name side, q.typeOf? id name side = p.typeOf? id name side) : q.Relaxed := by
  refine ⟨hq, fun id hr => ?_, fun id hidle => ?_⟩
  · rcases h id hr with ⟨hin, hout⟩ | ⟨hr, _, htype⟩
    · rw [hin, hout]
    · rw [htype, htype]
      exact hp.level id hr
  · rcases h id hidle.1 with ⟨_, hout⟩ | ⟨_, hwas, htype⟩
    · exact hout
    · rw [htype]
      exact hp.rest id (hwas hidle)

/-- Without reroutes there is nothing to show. -/
theorem Regular.relaxed (hp : p.Regular) (h : ∀ id, p.reroutes id = false) : p.Relaxed where
  toRegular := hp
  level := fun id hr => by simp [h id] at hr
  rest := fun id hidle => by simp [h id, Idle] at hidle

/-- A node that is a reroute is there. -/
theorem node?_of_reroutes {id : String} (h : p.reroutes id = true) : ∃ n, p.node? id = some n := by
  cases hn : p.node? id with
  | none => simp [reroutes, kindOf?, hn] at h
  | some n => exact ⟨n, rfl⟩

theorem relaxed_of_nodes_eq_nil (hp : p.Regular) (hn : p.nodes = []) : p.Relaxed := by
  refine hp.relaxed fun id => ?_
  cases hr : p.reroutes id with
  | false => rfl
  | true =>
    obtain ⟨n, hnode⟩ := node?_of_reroutes hr
    rw [Graph.node?, hn] at hnode
    cases hnode

theorem relaxed_note (hp : p.Relaxed) (n : Notice) : (p.note n).Relaxed :=
  ⟨regular_note hp.toRegular n, hp.level, hp.rest⟩

theorem relaxed_clear (hp : p.Relaxed) : p.clear.Relaxed :=
  relaxed_of_nodes_eq_nil (regular_clear hp.toRegular) rfl

theorem relaxed_edit (hp : p.Relaxed) {id : String} {e : NodeEdit} (he : p.retains id e = true) :
    (p.edit id e).Relaxed := by
  have htrim := p.trimmed_edit id e
  have hr : ∀ j, (p.edit id e).reroutes j = p.reroutes j :=
    fun j => reroutes_congr htrim.behaviour (htrim.kindOf? j)
  refine hp.transfer (regular_edit hp.toRegular he) fun j hj => .inr ⟨?_, ?_, ?_⟩
  · rwa [hr] at hj
  · exact fun hidle => ⟨hr j ▸ hidle.1, hidle.2⟩
  · exact typeOf?_edit he j

/-! ### New nodes -/

/-- A reroute that has just been inserted gives and takes anything. -/
theorem typeOf?_ofDeclaration_reroute {id : String} {position : Position}
    (hn : p.node? id = some (.ofDeclaration Builtin.reroute.declaration id position)) :
    p.typeOf? id "in" .input = some .any ∧ p.typeOf? id "out" .output = some .any := by
  simp only [typeOf?, port?, hn, Option.bind_eq_bind, Option.bind_some, Node.port?_ofDeclaration]
  exact ⟨rfl, rfl⟩

/-- A node may be inserted under a new id, or anywhere as long as there are no wires. -/
theorem relaxed_insert (hp : p.Relaxed) {kind id : String} {position : Position}
    (hid : id ∉ p.ids ∨ p.wires = ∅) (h : p.insert kind id position = .ok q) : q.Relaxed := by
  have hq := regular_insert hp.toRegular hid h
  obtain ⟨d, hd, rfl⟩ := hp.toRegular.insert_cases h
  have hk := p.sameKinds_put (.ofDeclaration d id position)
  have hnode := p.toGraph.node?_put (.ofDeclaration d id position)
  have hwires := wires_put p.toGraph (.ofDeclaration d id position)
  refine hp.transfer hq fun j hj => ?_
  by_cases hji : j = id
  · left
    have hnew : (p.withGraph (p.toGraph.put (.ofDeclaration d id position))).node? j =
        some (.ofDeclaration d id position) := (hnode j).trans (if_pos hji)
    -- The new node is a reroute, so that its declaration is that of reroutes.
    have hreroute := (hq.tame.reroute hq.sound hnew hj).1
    rw [hk.kinds] at hreroute
    obtain rfl := Option.some.inj (hd.symm.trans hreroute)
    subst hji
    exact typeOf?_ofDeclaration_reroute hnew
  · right
    have hold := (hnode j).trans (if_neg hji)
    have hr := reroutes_congr (q := p.withGraph (p.toGraph.put (.ofDeclaration d id position)))
      hk.behaviour (kindOf?_congr hold)
    refine ⟨hr ▸ hj, fun hidle => ⟨hr ▸ hidle.1, fun i w hw => ?_⟩, typeOf?_congr hold⟩
    exact hidle.2 i w ((congrArg (Table.find? · i) hwires).trans hw)

/-! ### Detaching wires -/

/-- A reroute that is detached from takes anything again; all others keep their types. -/
theorem relaxed_detach (hp : p.Relaxed) {id : WireId} {w : Wire}
    (hw : p.wires.find? id = some w) :
    ∃ q, p.detach id w = (false, q) ∧ q.Relaxed ∧ q.wires = p.wires.erase id := by
  obtain ⟨q, hq, hreg, hwires⟩ := regular_detach hp.toRegular hw
  obtain ⟨q', hq', hadopted⟩ := detach_eq hp.sound hp.tame hw
  obtain rfl : q' = q := by
    rw [hq] at hq'
    exact (Prod.mk.inj hq').2.symm
  refine ⟨q', hq, hp.transfer hreg fun j hj => ?_, hwires⟩
  have hr : p.reroutes j = true := hadopted.reroutes j ▸ hj
  by_cases hjw : j = w.target
  · left
    subst hjw
    have hin : w.targetPort = "in" :=
      hp.toRegular.eq_reroutePort hr (hp.sound.target id w hw)
    rw [if_pos ⟨hr, hin⟩] at hadopted
    obtain ⟨houtput, hinput⟩ := hadopted.typeOf?_self
    -- Both ports are there, and now have the type that was taken.
    obtain ⟨t, ht⟩ := Option.isSome_iff_exists.1 (hp.toRegular.isSome_typeOf?_out hr)
    have hlevel := hp.level w.target hr
    exact ⟨hinput.trans (by rw [show (p.cut id).typeOf? _ _ _ = p.typeOf? _ _ _ from rfl, hlevel,
        ht, Option.map_some]),
      houtput.trans (by rw [show (p.cut id).typeOf? _ _ _ = p.typeOf? _ _ _ from rfl, ht,
        Option.map_some])⟩
  · right
    refine ⟨hr, fun hidle => ⟨hr, fun i v hv => ?_⟩, hadopted.typeOf?_of_ne hjw⟩
    by_cases hi : i = id
    · subst hi
      obtain rfl := Option.some.inj (hw.symm.trans hv)
      exact Ne.symm hjw
    · exact hidle.2 i v (by rw [hwires, Table.find?_erase, if_neg hi, hv])

theorem relaxed_freeInput (hp : p.Relaxed) (node port : String) :
    (p.freeInput node port).2.Relaxed := by
  unfold freeInput
  cases hw : p.wireAt? node port .input with
  | none => exact hp
  | some e =>
    obtain ⟨q, hq, hrelaxed, _⟩ := relaxed_detach hp (of_wireAt? hw).1
    simpa only [hq] using hrelaxed

theorem relaxed_disconnect (hp : p.Relaxed) (node port : String) (side : Side) :
    (p.disconnect node port side).2.Relaxed := by
  unfold disconnect
  cases hw : p.wireAt? node port side with
  | none => exact hp
  | some e =>
    obtain ⟨q, hq, hrelaxed, _⟩ := relaxed_detach hp (of_wireAt? hw).1
    simpa only [hq] using hrelaxed

theorem relaxed_detachAll (hp : p.Relaxed) (ids : List WireId) : (p.detachAll ids).Relaxed := by
  refine List.foldlRecOn ids _ hp fun q hq id _ => ?_
  split
  next w hw =>
    obtain ⟨r, hr, hrelaxed, _⟩ := relaxed_detach hq hw
    rwa [hr]
  next => exact hq

theorem relaxed_detachPorts (hp : p.Relaxed) (node : String) (side : Side) (ports : List String) :
    (p.detachPorts node side ports).Relaxed :=
  List.foldlRecOn ports _ hp fun _ hq _ _ => relaxed_detachAll hq _

/-! ### Removing nodes -/

/-- What is detached is gone. -/
theorem Regular.find?_detachAll (hp : p.Regular) {ids : List WireId} {i : WireId} (hi : i ∈ ids) :
    (p.detachAll ids).wires.find? i = none := by
  induction ids generalizing p with
  | nil => cases hi
  | cons id ids ih =>
    rw [detachAll, List.foldl_cons]
    cases hw : p.wires.find? id with
    | none =>
      dsimp only
      rcases List.mem_cons.1 hi with rfl | hi
      · -- A wire that is not there does not come back.
        refine Option.eq_none_iff_forall_ne_some.2 fun v hv => ?_
        cases hw.symm.trans ((p.trimmed_detachAll ids).wires i v hv)
      · exact ih hp hi
    | some w =>
      obtain ⟨q, hq, hreg, hwires⟩ := regular_detach hp hw
      simp only [hq]
      rcases List.mem_cons.1 hi with rfl | hi
      · refine Option.eq_none_iff_forall_ne_some.2 fun v hv => ?_
        have hv := (q.trimmed_detachAll ids).wires i v hv
        rw [hwires, Table.find?_erase, if_pos rfl] at hv
        cases hv
      · exact ih hreg hi

/-- No wire is left at the ports of a list after they were detached. -/
theorem Regular.not_endsAt_detachPorts (hp : p.Regular) {node : String} {side : Side}
    {ports : List String} {port : String} (hport : port ∈ ports) {i : WireId} {w : Wire}
    (hw : (p.detachPorts node side ports).wires.find? i = some w) :
    w.endsAt node port side = false := by
  induction ports generalizing p with
  | nil => cases hport
  | cons name ports ih =>
    rw [detachPorts, List.foldl_cons] at hw
    rcases List.mem_cons.1 hport with rfl | hport
    · cases hends : w.endsAt node port side with
      | false => rfl
      | true =>
        -- A wire that is still there was on the list of those to detach.
        have hw := (trimmed_detachPorts _ node side ports).wires i w hw
        have hold := (p.trimmed_detachAll _).wires i w hw
        have hmem : (i, w) ∈ p.wiresAt node port side :=
          List.mem_filter.2 ⟨Table.mem_entries_iff.2 hold, hends⟩
        rw [hp.find?_detachAll (List.mem_map_of_mem hmem)] at hw
        cases hw
    · exact ih (regular_detachAll hp _) hport hw

/-- No wire touches a node whose ports were detached on both sides. -/
theorem Regular.untouched_detachPorts (hp : p.Regular) {id : String} {n : Node}
    (hn : p.node? id = some n) {i : WireId} {w : Wire}
    (hw : ((p.detachPorts id .input (n.portNames .input)).detachPorts id .output
      (n.portNames .output)).wires.find? i = some w) : w.touches id = false := by
  have hfirst := (trimmed_detachPorts _ id .output (n.portNames .output)).wires i w hw
  have hold := (p.trimmed_detachPorts id .input (n.portNames .input)).wires i w hfirst
  have hname : ∀ {name side}, (p.port? id name side).isSome → name ∈ n.portNames side := by
    intro name side h
    simp only [port?, hn, Option.bind_eq_bind, Option.bind_some] at h
    exact Node.mem_portNames h
  have hreg := regular_detachPorts hp id .input (n.portNames .input)
  simp only [Wire.touches, Bool.or_eq_false_iff, decide_eq_false_iff_not]
  refine ⟨fun hs => ?_, fun ht => ?_⟩
  · have hend := hreg.not_endsAt_detachPorts (hname (hs ▸ hp.sound.source i w hold)) hw
    simp [Wire.endsAt, hs] at hend
  · have hend := hp.not_endsAt_detachPorts (hname (ht ▸ hp.sound.target i w hold)) hfirst
    simp [Wire.endsAt, ht] at hend

theorem relaxed_remove (hp : p.Relaxed) (id : String) : (p.remove id).2.Relaxed := by
  have hreg := regular_remove hp.toRegular id
  unfold remove at hreg ⊢
  cases hn : p.node? id with
  | none => exact hp
  | some n =>
    rw [hn] at hreg
    dsimp only at hreg ⊢
    have hdetached := relaxed_detachPorts (relaxed_detachPorts hp id .input (n.portNames .input)) id
      .output (n.portNames .output)
    have huntouched := fun i w => @Regular.untouched_detachPorts p hp.toRegular id n hn i w
    generalize (p.detachPorts id .input (n.portNames .input)).detachPorts id .output
      (n.portNames .output) = r at hreg hdetached huntouched ⊢
    -- Nothing is left to drop.
    have hdrop : r.dropWires id = r := by
      have hempty : r.wiresWith (·.touches id) = [] := by
        refine List.filter_eq_nil_iff.2 fun e he => ?_
        simp [huntouched e.1 e.2 (Table.mem_entries_iff.1 he)]
      simp [dropWires, hempty]
    rw [hdrop] at hreg ⊢
    refine hdetached.transfer hreg fun j hj => .inr ?_
    have hne : j ≠ id := by
      rintro rfl
      obtain ⟨m, hm⟩ := node?_of_reroutes hj
      cases ((node?_without r.toGraph j j).trans (if_pos rfl)).symm.trans hm
    have hnode : (r.withGraph (r.toGraph.without id)).node? j = r.node? j :=
      (node?_without r.toGraph id j).trans (if_neg hne)
    have hr := reroutes_congr (p := r) (q := r.withGraph (r.toGraph.without id)) rfl
      (kindOf?_congr hnode)
    exact ⟨hr ▸ hj, fun hidle => ⟨hr ▸ hidle.1, hidle.2⟩, typeOf?_congr hnode⟩

/-! ### Making wires -/

/-- A new wire leaves both ports of a reroute at its end with the type of its source. -/
theorem Agreed.relaxed {w : Wire} {s : PortType} (hp : p.Relaxed) (h : p.Agreed w s q) :
    (q.addWire w).Relaxed := by
  have hreg := h.regular hp.toRegular
  have hadopted := h.adopted
  have hr : ∀ id, (q.addWire w).reroutes id = p.reroutes id := hadopted.reroutes
  have hnew : (q.addWire w).wires.find? q.nextWire = some w :=
    (q.wires.find?_insert q.nextWire q.nextWire w).trans (if_pos rfl)
  have hother : ∀ id, id ≠ w.target → ∀ name side,
      (q.addWire w).typeOf? id name side = p.typeOf? id name side :=
    fun id hid => hadopted.typeOf?_of_ne hid
  refine ⟨hreg, fun id hid => ?_, fun id hidle => ?_⟩
  · by_cases heq : id = w.target
    · subst heq
      rw [hr] at hid
      rw [if_pos hid] at hadopted
      obtain ⟨hout, hin⟩ := hadopted.typeOf?_self
      show q.typeOf? _ _ _ = q.typeOf? _ _ _
      rw [hout, hin, hp.level w.target hid]
    · rw [hother id heq, hother id heq]
      exact hp.level id (hr id ▸ hid)
  · -- The wire feeds the node that it leads to, so an idle reroute is another one.
    have hne : id ≠ w.target := Ne.symm (hidle.2 _ w hnew)
    rw [hother id hne]
    refine hp.rest id ⟨hr id ▸ hidle.1, fun i v hv => hidle.2 i v ?_⟩
    have hlt := hp.sound.below i v hv
    refine (q.wires.find?_insert q.nextWire i w).trans ?_
    rw [if_neg (by rw [hadopted.trimmed.nextWire]; exact Nat.ne_of_lt hlt), hadopted.wires, hv]

theorem relaxed_connect (hp : p.Relaxed) (w : Wire) : (p.connect w).2.Relaxed := by
  have hfreed := relaxed_freeInput hp w.target w.targetPort
  obtain ⟨q, hq, _, htrim, hfree⟩ := regular_freeInput hp.toRegular w.target w.targetPort
  rw [hq] at hfreed
  dsimp only at hfreed
  unfold connect
  split
  next hw =>
    obtain ⟨hloop, hopen, _⟩ := (admits_iff _ _).1 hw
    rw [hq]
    dsimp only
    rw [if_neg (by simp)]
    -- Types may have changed when the input was freed.
    cases hst : q.typesOf? w with
    | none => exact hfreed
    | some st =>
      obtain ⟨s, t⟩ := st
      obtain ⟨r, hr, hadopted⟩ := hfreed.toRegular.announce_created hloop hst
      have hopen := hp.conforming.open_congr hp.sound hfreed.conforming hfreed.sound htrim.kinds
        (htrim.kindOf? _) (htrim.kindOf? _) hopen
      simp only [hr]
      exact Agreed.relaxed hfreed ⟨hloop, hopen, ⟨t, hst⟩, hfree, hadopted⟩
  next => exact hp

/-! ### Restoring snapshots -/

theorem relaxed_restoreValues (hp : p.Relaxed) (id : String) (side : Side) (values : PortValues) :
    (p.restoreValues id side values).Relaxed := by
  refine List.foldlRecOn values.entries _ hp fun q hq e _ => ?_
  split
  · exact relaxed_edit hq (retains_setValue q id e.1 side e.2)
  · exact relaxed_note hq _

theorem relaxed_restoreNode (hp : p.Relaxed) (hw : p.wires = ∅) {s : NodeState}
    (h : p.restoreNode s = .ok q) : q.Relaxed ∧ q.wires = ∅ := by
  refine ⟨?_, (sound_restoreNode hp.sound hw h).2.1⟩
  obtain ⟨r, hr, rfl⟩ := restoreNode_cases h
  have hinputs := relaxed_restoreValues (relaxed_insert hp (.inr hw) hr) s.id .input s.inputs
  have houtputs := relaxed_restoreValues hinputs s.id .output s.outputs
  unfold fill
  exact relaxed_edit houtputs (e := .setData s.data) rfl

theorem relaxed_restoreWire (hp : p.Relaxed) (w : Wire) : (p.restoreWire w).Relaxed := by
  have hrelaxed := relaxed_connect hp w
  unfold restoreWire
  split
  next h => rwa [h] at hrelaxed
  next h =>
    rw [h] at hrelaxed
    exact relaxed_note hrelaxed _

/-- What any snapshot is restored to is relaxed. -/
theorem relaxed_restore (hp : p.Relaxed) {s : Snapshot} (h : p.restore s = .ok q) :
    q.Relaxed := by
  obtain ⟨r, hfold, rfl⟩ := restore_cases h
  obtain ⟨hr, _⟩ := foldlM_keeps (fun r => r.Relaxed ∧ r.wires = ∅) hfold
    ⟨relaxed_clear hp, rfl⟩ fun r n r' _ hr hone => relaxed_restoreNode hr.1 hr.2 hone
  exact List.foldlRecOn s.wires restoreWire hr fun _ hrelaxed w _ => relaxed_restoreWire hrelaxed w

/-! ### Types at the ends of wires -/

/-- A wire into the node was made after the wire under a number. -/
def FedLater (p : Patch) (i : WireId) (id : String) : Prop :=
  ∃ j v, p.wires.find? j = some v ∧ v.target = id ∧ i < j

/-- A wire joins ports whose types fit, or it leads out of a reroute that was only fed after the
wire was made. -/
theorem Relaxed.fits_or_fedLater (hp : p.Relaxed) {i : WireId} {w : Wire}
    (hw : p.wires.find? i = some w) :
    (p.typesOf? w).isSome ∨ p.reroutes w.source = true ∧ p.FedLater i w.source := by
  obtain ⟨s, hs⟩ := typeOf?_of_takesWire (hp.isOpen i w hw).1
  obtain ⟨t, ht⟩ := typeOf?_of_takesWire (hp.isOpen i w hw).2
  have hfit : p.conversions.canConnect s t = true → (p.typesOf? w).isSome := fun hcan => by
    rw [typesOf?_eq, hs, ht, Option.bind_some, Option.bind_some, if_pos hcan]
    rfl
  by_cases hsettled : p.Settled i w.source
  · left
    have hfits := hp.fits i w hw hsettled
    unfold Fits at hfits
    split at hfits
    next hr =>
      -- A reroute has the type of what feeds it, at its input as well.
      have hin : w.targetPort = "in" := hp.toRegular.eq_reroutePort hr (hp.sound.target i w hw)
      have hst : some s = some t := by rw [← hs, ← ht, hin, hp.level w.target hr, hfits]
      obtain rfl := Option.some.inj hst
      exact hfit (by simp [Conversions.canConnect, Conversions.compatibility,
        Compatibility.isCompatible])
    next => exact hfits
  · have hr : p.reroutes w.source = true := by
      cases hr : p.reroutes w.source with
      | true => rfl
      | false => exact absurd (.inl hr) hsettled
    by_cases hidle : p.Idle w.source
    · left
      have hout : w.sourcePort = "out" := hp.toRegular.eq_reroutePort hr (hp.sound.source i w hw)
      have hany := hp.rest w.source hidle
      rw [← hout, hs] at hany
      obtain rfl := Option.some.inj hany
      exact hfit (p.conversions.canConnect_of_isAny_source t rfl)
    · -- It is fed after all, by a wire that is not older.
      right
      obtain ⟨j, v, hv, hvt⟩ : ∃ j v, p.wires.find? j = some v ∧ v.target = w.source :=
        Classical.byContradiction fun hno => hidle ⟨hr, fun j v hv hvt => hno ⟨j, v, hv, hvt⟩⟩
      refine ⟨hr, j, v, hv, hvt, Nat.lt_of_le_of_ne (Nat.le_of_not_lt fun hlt => ?_) ?_⟩
      · exact hsettled (.inr ⟨j, v, hv, hvt, hlt⟩)
      · rintro rfl
        obtain rfl := Option.some.inj (hw.symm.trans hv)
        exact hp.sound.loopless i w hw hvt.symm

end Patch

end Patchbay
