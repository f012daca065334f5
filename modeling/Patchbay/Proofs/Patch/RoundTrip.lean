import Mathlib.Data.List.Forall2
import Patchbay.Proofs.Patch.Rewiring

/-!
# Restoring what a snapshot was made of

The nodes of a snapshot come back at once; its wires are made again one after the other. All the
while the patch that comes about mirrors the old one (`Mirrors`): its nodes have the same states,
and its wires are those that were made again so far. Its reroutes may have other types than in the
old patch, but then they take anything, so that no wire is refused for it.

## Key results

- `Mirrors.restoreWire`: the next wire can be made, and is the next one of the mirror
- `restore_snapshot`: a snapshot of a regular patch is restored to a patch with the same snapshot
-/

namespace Patchbay

namespace Conversions

/-- A port of a type that takes anything takes anything. -/
theorem canConnect_of_isAny_target (c : Conversions) (s : PortType) {t : PortType}
    (h : t.isAny = true) : c.canConnect s t = true := by
  unfold canConnect compatibility
  split
  · rfl
  · rfl

/-- A port of a type that gives anything goes anywhere. -/
theorem canConnect_of_isAny_source (c : Conversions) {s : PortType} (t : PortType)
    (h : s.isAny = true) : c.canConnect s t = true := by
  unfold canConnect compatibility
  split
  · rfl
  · split
    · rfl
    · split
      · rfl
      · rfl
      · rfl

end Conversions

/-- The state of a node does not hold the types of its ports. -/
theorem NodeState.ofNode_setType (n : Node) (name : String) (side : Side) (t : PortType) :
    NodeState.ofNode (NodeEdit.apply n (.setType name side t)) = .ofNode n := by
  have hvalues : ∀ ps : Table String Port,
      (ps.modify name fun a => { a with type := t }).filterMap (·.value) =
        ps.filterMap (·.value) := by
    intro ps
    refine Table.ext_find? fun j => ?_
    rw [Table.find?_filterMap, Table.find?_filterMap, Table.find?_modify]
    split
    · cases ps.find? j <;> rfl
    · rfl
  cases side <;> simp only [NodeEdit.setType, NodeEdit.apply, Node.revisePort] <;> split <;>
    simp only [NodeState.ofNode, hvalues]

@[simp]
theorem NodeState.ofNode_adopt (n : Node) (t : Option PortType) :
    NodeState.ofNode (n.adopt t) = .ofNode n := by
  cases t with
  | none => rfl
  | some t => exact (ofNode_setType _ "out" .output t).trans (ofNode_setType n "in" .input t)

namespace Graph

/-- A node is found under its id. -/
theorem node?_of_mem {g : Graph} (hg : g.ids.Nodup) {n : Node} (hn : n ∈ g.nodes) :
    g.node? n.id = some n := by
  unfold node?
  unfold ids at hg
  generalize g.nodes = ns at hg hn
  induction ns with
  | nil => cases hn
  | cons m ms ih =>
    obtain ⟨hm, hms⟩ := List.nodup_cons.1 hg
    rcases List.mem_cons.1 hn with rfl | hn
    · simp
    · have hne : m.id ≠ n.id := fun heq => hm (List.mem_map.2 ⟨n, hn, heq.symm⟩)
      rw [List.find?_cons_of_neg (by simpa using hne)]
      exact ih hms hn

/-- Graphs that list the same ids, and under each id a node of the same state, have the same states.
-/
theorem states_eq {g h : Graph} (hg : g.ids.Nodup) (hids : h.ids = g.ids)
    (hstate : ∀ id, (h.node? id).map NodeState.ofNode = (g.node? id).map .ofNode) :
    h.nodes.map NodeState.ofNode = g.nodes.map .ofNode := by
  -- The states in their order are those found under the ids in their order.
  have hfound : ∀ {k : Graph}, k.ids.Nodup →
      k.ids.map (fun id => (k.node? id).map NodeState.ofNode) =
        (k.nodes.map NodeState.ofNode).map some := by
    intro k hk
    rw [ids, List.map_map, List.map_map]
    refine List.map_congr_left fun n hn => ?_
    simp only [Function.comp_apply, node?_of_mem hk hn, Option.map_some]
  have hsome : (h.nodes.map NodeState.ofNode).map some = (g.nodes.map .ofNode).map some := by
    rw [← hfound (hids ▸ hg), ← hfound hg, hids]
    exact List.map_congr_left fun id _ => hstate id
  exact (List.map_inj_right fun _ _ => Option.some.inj).1 hsome

end Graph

namespace Patch

open Patchbay.Graph

variable {p q : Patch}

/-! ### The patch that comes about -/

/-- The patch `r` mirrors `p`, as far as the wires of a list have been made again. -/
structure Mirrors (p : Patch) (done : List (WireId × Wire)) (r : Patch) : Prop where
  regular : r.Regular
  sameKinds : p.SameKinds r
  ids : r.ids = p.ids
  state : ∀ id, (r.node? id).map NodeState.ofNode = (p.node? id).map .ofNode
  wires : r.wires.entries.map (·.2) = done.map (·.2)
  /-- A reroute gives anything, or it is fed again and has the type it had. -/
  output : ∀ id t, p.reroutes id = true → r.typeOf? id "out" .output = some t →
    t.isAny = true ∨
      p.typeOf? id "out" .output = some t ∧ ∃ e ∈ done, e.2.target = id
  /-- A reroute that is not fed takes anything. -/
  input : ∀ id t, p.reroutes id = true → (∀ e ∈ done, e.2.target ≠ id) →
    r.typeOf? id "in" .input = some t → t.isAny = true

namespace Mirrors

variable {r : Patch} {done rest : List (WireId × Wire)} {i : WireId} {w : Wire}

theorem kindOf? (h : p.Mirrors done r) (id : String) : r.kindOf? id = p.kindOf? id := by
  have hkind := congrArg (Option.map NodeState.kind) (h.state id)
  rwa [Option.map_map, Option.map_map] at hkind

theorem reroutes (h : p.Mirrors done r) (id : String) : r.reroutes id = p.reroutes id :=
  reroutes_congr h.sameKinds.behaviour (h.kindOf? id)

/-- Apart from reroutes, ports have the types they had. -/
theorem typeOf?_eq (hp : p.Regular) (h : p.Mirrors done r) {id : String}
    (hr : p.reroutes id = false) (name : String) (side : Side) :
    r.typeOf? id name side = p.typeOf? id name side :=
  hp.conforming.typeOf?_congr hp.sound h.regular.conforming h.regular.sound h.sameKinds
    (h.kindOf? id) hr name side

/-- The wires that were made again are those with lower numbers. -/
theorem mem_done_iff (hes : p.wires.entries = done ++ (i, w) :: rest) (j : WireId) (v : Wire) :
    (j, v) ∈ done ↔ p.wires.find? j = some v ∧ j < i := by
  -- Numbers before the wire are lower, those after it higher.
  have hsorted := p.wires.ascending
  rw [Entries.Ascending, hes, List.pairwise_append, List.pairwise_cons] at hsorted
  obtain ⟨_, ⟨hrest, _⟩, hdone⟩ := hsorted
  rw [← Table.mem_entries_iff, hes]
  constructor
  · intro hmem
    exact ⟨List.mem_append_left _ hmem,
      Nat.compare_eq_lt.1 (hdone _ hmem _ List.mem_cons_self)⟩
  · rintro ⟨hmem, hlt⟩
    rcases List.mem_append.1 hmem with hmem | hmem
    · exact hmem
    · rcases List.mem_cons.1 hmem with heq | hmem
      · obtain ⟨rfl, rfl⟩ := Prod.mk.inj heq
        exact absurd hlt (Nat.lt_irrefl _)
      · exact absurd hlt (Nat.lt_asymm (Nat.compare_eq_lt.1 (hrest _ hmem)))

theorem find?_of_entries (hes : p.wires.entries = done ++ (i, w) :: rest) :
    p.wires.find? i = some w :=
  Table.mem_entries_iff.1 (hes ▸ List.mem_append_right _ List.mem_cons_self)

/-- No wire with a lower number ends where the next one does. -/
theorem not_endsAt (hp : p.Sound) (hes : p.wires.entries = done ++ (i, w) :: rest)
    {e : WireId × Wire} (he : e ∈ done) : e.2.endsAt w.target w.targetPort .input = false := by
  obtain ⟨hj, hlt⟩ := (mem_done_iff hes e.1 e.2).1 he
  cases hends : e.2.endsAt w.target w.targetPort .input with
  | false => rfl
  | true =>
    obtain ⟨htarget, hport⟩ := (endsAt_input _ _ _).1 hends
    exact absurd (hp.single e.1 i e.2 w hj (find?_of_entries hes) htarget hport) (Nat.ne_of_lt hlt)

/-- The input that the next wire leads to is free. -/
theorem free (hp : p.Regular) (h : p.Mirrors done r)
    (hes : p.wires.entries = done ++ (i, w) :: rest) :
    r.wireAt? w.target w.targetPort .input = none := by
  refine (wireAt?_eq_none_iff _ _ _ _).2 fun k v hv => ?_
  have hmem : v ∈ done.map (·.2) :=
    h.wires ▸ List.mem_map.2 ⟨(k, v), Table.mem_entries_iff.2 hv, rfl⟩
  obtain ⟨e, he, rfl⟩ := List.mem_map.1 hmem
  exact not_endsAt hp.sound hes he

/-- A reroute that the next wire leads to is not fed before. -/
theorem not_fed (hp : p.Regular) (hes : p.wires.entries = done ++ (i, w) :: rest)
    (hr : p.reroutes w.target = true) (e : WireId × Wire) (he : e ∈ done) :
    e.2.target ≠ w.target := by
  intro htarget
  have hw := find?_of_entries hes
  have hj := ((mem_done_iff hes e.1 e.2).1 he).1
  have hport : e.2.targetPort = w.targetPort :=
    (hp.eq_reroutePort (htarget ▸ hr) (hp.sound.target e.1 e.2 hj)).trans
      (hp.eq_reroutePort hr (hp.sound.target i w hw)).symm
  have hnot := not_endsAt hp.sound hes he
  rw [(endsAt_input _ _ _).2 ⟨htarget, hport⟩] at hnot
  cases hnot

/-- The source of the next wire gives anything, or it is settled and has the type it had. -/
theorem source_type (hp : p.Regular) (h : p.Mirrors done r)
    (hes : p.wires.entries = done ++ (i, w) :: rest) {s : PortType}
    (hs : r.typeOf? w.source w.sourcePort .output = some s) :
    s.isAny = true ∨
      p.typeOf? w.source w.sourcePort .output = some s ∧ p.Settled i w.source := by
  have hw := find?_of_entries hes
  cases hr : p.reroutes w.source with
  | false => exact .inr ⟨(h.typeOf?_eq hp hr _ _).symm.trans hs, .inl hr⟩
  | true =>
    rw [hp.eq_reroutePort hr (hp.sound.source i w hw)] at hs ⊢
    rcases h.output w.source s hr hs with hany | ⟨hsame, ⟨j, v⟩, hmem, hv⟩
    · exact .inl hany
    · obtain ⟨hj, hlt⟩ := (mem_done_iff hes j v).1 hmem
      exact .inr ⟨hsame, .inr ⟨j, v, hj, hv, hlt⟩⟩

/-- The next wire is not refused. -/
theorem admits (hp : p.Regular) (h : p.Mirrors done r)
    (hes : p.wires.entries = done ++ (i, w) :: rest) : r.admits w = true := by
  have hw := find?_of_entries hes
  have hopen : r.Open w := hp.conforming.open_congr hp.sound h.regular.conforming h.regular.sound
    h.sameKinds.kinds (h.kindOf? _) (h.kindOf? _) (hp.isOpen i w hw)
  obtain ⟨s, hs⟩ := typeOf?_of_takesWire hopen.1
  obtain ⟨t, ht⟩ := typeOf?_of_takesWire hopen.2
  have hcan : r.conversions.canConnect s t = true := by
    rcases h.source_type hp hes hs with hany | ⟨hsame, hsettled⟩
    · exact Conversions.canConnect_of_isAny_source _ t hany
    · cases hr : p.reroutes w.target with
      | true =>
        -- The reroute was not fed, so it takes anything.
        have hin : w.targetPort = "in" := hp.eq_reroutePort hr (hp.sound.target i w hw)
        exact Conversions.canConnect_of_isAny_target _ s
          (h.input w.target t hr (not_fed hp hes hr) (hin ▸ ht))
      | false =>
        -- Both ports have the types they had, and under these the wire fits.
        have hfits := hp.fits i w hw hsettled
        rw [Fits, if_neg (by simp [hr])] at hfits
        obtain ⟨⟨s', t'⟩, hst⟩ := Option.isSome_iff_exists.1 hfits
        obtain ⟨hs', ht', hcan⟩ := of_typesOf? hst
        obtain rfl : s = s' := Option.some.inj (hsame.symm.trans hs')
        obtain rfl : t = t' := Option.some.inj
          (ht.symm.trans ((h.typeOf?_eq hp hr _ _).trans ht'))
        rwa [h.sameKinds.conversions]
  refine (admits_iff _ _).2 ⟨hp.sound.loopless i w hw, hopen, ?_⟩
  simp [typesOf?_eq, hs, ht, hcan]

/-- A reroute that the next wire leads to gives anything then, or what it gave. -/
theorem output_target (hp : p.Regular) (h : p.Mirrors done r)
    (hes : p.wires.entries = done ++ (i, w) :: rest) {s t : PortType} (hq : r.Agreed w s q)
    (hr : p.reroutes w.target = true) (ht : q.typeOf? w.target "out" .output = some t) :
    t.isAny = true ∨ p.typeOf? w.target "out" .output = some t := by
  have hadopted := hq.adopted
  rw [h.reroutes, if_pos hr] at hadopted
  obtain ⟨_, _, rfl⟩ := Option.map_eq_some_iff.1 (hadopted.typeOf?_self.1.symm.trans ht)
  obtain ⟨_, htypes⟩ := hq.types
  rcases h.source_type hp hes (of_typesOf? htypes).1 with hany | ⟨hsame, hsettled⟩
  · exact .inl hany
  · have hfits := hp.fits i w (find?_of_entries hes) hsettled
    rw [Fits, if_pos hr] at hfits
    exact .inr (hfits.trans hsame)

/-- Once both ends were told of the next wire, the mirror has it as well. -/
theorem addWire (hp : p.Regular) (h : p.Mirrors done r)
    (hes : p.wires.entries = done ++ (i, w) :: rest) {s : PortType} (hq : r.Agreed w s q) :
    p.Mirrors (done ++ [(i, w)]) (q.addWire w) := by
  have htrim := hq.adopted.trimmed
  have hne : ∀ {id : String}, id ≠ w.target → ∀ name side,
      q.typeOf? id name side = r.typeOf? id name side :=
    fun hid => hq.typeOf?_eq fun heq => absurd heq hid
  constructor
  case regular => exact hq.regular h.regular
  case sameKinds => exact (h.sameKinds.trans htrim.sameKinds).trans ⟨rfl, rfl, rfl⟩
  case ids => exact htrim.ids.trans h.ids
  case state =>
    intro id
    show (q.node? id).map _ = _
    rw [hq.adopted.node?, ← h.state id]
    split
    · rw [Option.map_map]
      exact congrArg (Option.map · _) (funext fun n => NodeState.ofNode_adopt n _)
    · rfl
  case wires =>
    have hlast : ∀ e ∈ q.wires.entries, compare e.1 q.nextWire = .lt := fun e he =>
      Nat.compare_eq_lt.2 ((hq.sound h.regular).below e.1 e.2 (Table.mem_entries_iff.1 he))
    show (q.wires.insert q.nextWire w).entries.map _ = _
    rw [Table.entries_insert_of_lt hlast, List.map_append, List.map_append, hq.adopted.wires,
      h.wires]
    rfl
  case output =>
    intro id t hr ht
    replace ht : q.typeOf? id "out" .output = some t := ht
    -- Only the reroute that is fed now has another type.
    by_cases hid : id = w.target
    · subst hid
      rcases h.output_target hp hes hq hr ht with hany | hsame
      · exact .inl hany
      · exact .inr ⟨hsame, (i, w), List.mem_append_right _ List.mem_cons_self, rfl⟩
    · rw [hne hid] at ht
      rcases h.output id t hr ht with hany | ⟨hsame, e, he, htarget⟩
      · exact .inl hany
      · exact .inr ⟨hsame, e, List.mem_append_left _ he, htarget⟩
  case input =>
    intro id t hr hfed ht
    have hid : id ≠ w.target := fun heq =>
      hfed (i, w) (List.mem_append_right _ List.mem_cons_self) heq.symm
    refine h.input id t hr (fun e he => hfed e (List.mem_append_left _ he)) ?_
    rw [← hne hid]
    exact ht

/-- The next wire of a mirror is made, and none is dropped. -/
theorem restoreWire (hp : p.Regular) (h : p.Mirrors done r)
    (hes : p.wires.entries = done ++ (i, w) :: rest) :
    p.Mirrors (done ++ [(i, w)]) (r.restoreWire w) ∧ (r.restoreWire w).dropped = r.dropped := by
  obtain ⟨s, q, hq, hconnect⟩ := connect_eq h.regular (h.admits hp hes) (h.free hp hes)
  have hmade : r.restoreWire w = q.addWire w := by
    rw [Patch.restoreWire, hconnect]
  rw [hmade]
  exact ⟨h.addWire hp hes hq, hq.adopted.trimmed.dropped⟩

/-- All wires that are left are made, in their order. -/
theorem restoreWires (hp : p.Regular) (h : p.Mirrors done r)
    (hes : p.wires.entries = done ++ rest) :
    p.Mirrors p.wires.entries ((rest.map (·.2)).foldl Patch.restoreWire r) ∧
      ((rest.map (·.2)).foldl Patch.restoreWire r).dropped = r.dropped := by
  induction rest generalizing done r with
  | nil =>
    rw [hes, List.append_nil]
    exact ⟨h, rfl⟩
  | cons e rest ih =>
    obtain ⟨hnext, hdropped⟩ := h.restoreWire (i := e.1) (w := e.2) hp hes
    obtain ⟨hall, hrest⟩ := ih hnext (by rw [hes, List.append_assoc]; rfl)
    exact ⟨hall, hrest.trans hdropped⟩

/-- In the end the mirror has the same snapshot. -/
theorem snapshot_eq (hp : p.Regular) (h : p.Mirrors p.wires.entries r) :
    r.snapshot = p.snapshot := by
  rw [Graph.snapshot, Graph.snapshot, states_eq hp.sound.nodup h.ids h.state, h.wires]

end Mirrors

/-! ### Nodes and wires together -/

/-- The kind of every node in a snapshot is declared, and does nothing on creation. -/
theorem Regular.kind_of_mem_snapshot (hp : p.Regular) {s : NodeState} (hs : s ∈ p.snapshot.nodes) :
    (p.kinds.find? s.kind).isSome ∧ (p.behaviour s.kind).onCreate = none := by
  obtain ⟨n, hn, rfl⟩ := List.mem_map.1 hs
  have hkind := hp.sound.declared n.id n (node?_of_mem hp.sound.nodup hn)
  exact ⟨hkind, hp.tame.onCreate hkind⟩

theorem dropped_restoreNode (hp : p.Sound) {s : NodeState} (h : p.restoreNode s = .ok q) :
    q.dropped = p.dropped := by
  obtain ⟨r, hr, rfl⟩ := restoreNode_cases h
  obtain ⟨n, _, _, rfl⟩ := insert_cases hp.keyed hr
  exact (trimmed_fill _ s).dropped

/-- While the nodes of a snapshot are restored, the patch stays regular, and nothing is dropped. -/
theorem regular_restoreNodes (hp : p.Regular) (hw : p.wires = ∅) {ss : List NodeState}
    (h : ss.foldlM restoreNode p = .ok q) :
    q.Regular ∧ q.wires = ∅ ∧ p.SameKinds q ∧ q.dropped = p.dropped := by
  refine foldlM_keeps (fun r => r.Regular ∧ r.wires = ∅ ∧ p.SameKinds r ∧ r.dropped = p.dropped) h
    ⟨hp, hw, .refl p, rfl⟩ fun r s r' _ hr hone => ?_
  obtain ⟨hreg, hempty, hk, hdropped⟩ := hr
  obtain ⟨hreg', hempty'⟩ := regular_restoreNode hreg hempty hone
  exact ⟨hreg', hempty', hk.trans (sameKinds_restoreNode hreg.sound hone),
    (dropped_restoreNode hreg.sound hone).trans hdropped⟩

/-- Where the same kinds are declared, every node of a snapshot comes back. -/
theorem restoreNodes_restored (hp : p.Regular) {t : Patch} (ht : p.SameKinds t)
    (hempty : t.nodes = []) :
    ∃ r, p.snapshot.nodes.foldlM restoreNode t = .ok r ∧ r.ids = p.ids ∧
      ∀ id n d, p.node? id = some n → p.kinds.find? n.kind = some d →
        ∃ m, r.node? id = some m ∧ m.Restored d (.ofNode n) := by
  have hids : t.ids ++ p.snapshot.nodes.map (·.id) = p.ids := by
    rw [ids, hempty]
    exact List.map_map
  have hkinds : ∀ s ∈ p.snapshot.nodes,
      (t.kinds.find? s.kind).isSome ∧ (t.behaviour s.kind).onCreate = none := fun s hs => by
    rw [ht.kinds, ht.behaviour]
    exact hp.kind_of_mem_snapshot hs
  obtain ⟨r, hr, hrids, _, hnodes⟩ :=
    restoreNodes_eq (ht.kinds ▸ hp.sound.keyed) (hids ▸ hp.sound.nodup) hkinds
  refine ⟨r, hr, hrids.trans hids, fun id n d hn hd => ?_⟩
  have hmem : NodeState.ofNode n ∈ p.snapshot.nodes :=
    List.mem_map_of_mem (List.mem_of_find?_eq_some hn)
  rw [← id_of_node? hn]
  exact hnodes _ hmem d (ht.kinds ▸ hd)

/-- The ports of a new reroute give and take anything. -/
theorem isAny_of_restored {r : Patch} {id : String} {s : NodeState} {m : Node}
    (hm : m.Restored Builtin.reroute.declaration s) (hr : r.node? id = some m) {t : PortType}
    (ht : r.typeOf? id "out" .output = some t ∨ r.typeOf? id "in" .input = some t) :
    t.isAny = true := by
  simp only [typeOf?, port?, hr, Option.bind_eq_bind, Option.bind_some, hm.port] at ht
  rcases ht with ht | ht <;> exact Option.some.inj ht ▸ rfl

/-- The nodes of a snapshot are restored to a mirror without wires. -/
theorem restoreNodes_mirrors (hp : p.Regular) {t : Patch} (ht : p.SameKinds t) :
    ∃ r, p.snapshot.nodes.foldlM restoreNode t.clear = .ok r ∧ p.Mirrors [] r ∧
      r.dropped = t.dropped := by
  have ht : p.SameKinds t.clear := ht.trans ⟨rfl, rfl, rfl⟩
  obtain ⟨r, hr, hids, hrestored⟩ := restoreNodes_restored hp ht rfl
  have hclear : t.clear.Regular := regular_of_wires_eq_empty
    (sound_of_wires_eq_empty rfl List.nodup_nil (ht.kinds ▸ hp.sound.keyed) fun _ _ h => by
      cases h)
    (hp.tame.of_kinds ht.kinds ht.behaviour) (fun _ _ _ h => by cases h) rfl
  obtain ⟨hreg, hempty, hk, hdropped⟩ := regular_restoreNodes hclear rfl hr
  -- The types of reroutes are not in the snapshot, so that all of them start anew.
  have hany : ∀ id u, p.reroutes id = true →
      r.typeOf? id "out" .output = some u ∨ r.typeOf? id "in" .input = some u →
        u.isAny = true := by
    intro id u hr hu
    obtain ⟨k, hkind, _⟩ := (Option.any_eq_true _ _).1 hr
    obtain ⟨n, hn, rfl⟩ := Option.map_eq_some_iff.1 hkind
    obtain ⟨m, hm, hrest⟩ := hrestored id n _ hn (hp.tame.reroute hp.sound hn hr).1
    exact isAny_of_restored hrest hm hu
  refine ⟨r, hr, ?_, hdropped⟩
  constructor
  case regular => exact hreg
  case sameKinds => exact ht.trans hk
  case ids => exact hids
  case wires =>
    rw [hempty]
    rfl
  case state =>
    intro id
    cases hn : p.node? id with
    | none =>
      have hm : r.node? id = none := by
        rw [node?_eq_none_iff] at hn ⊢
        rwa [hids]
      rw [hm, Option.map_none]
    | some n =>
      obtain ⟨d, hd⟩ := Option.isSome_iff_exists.1 (hp.sound.declared id n hn)
      obtain ⟨m, hm, hrest⟩ := hrestored id n d hn hd
      rw [hm, Option.map_some, Option.map_some,
        Node.ofNode_of_restored (hp.conforming id n d hn hd) hrest]
  case output => exact fun id u hr hu => .inl (hany id u hr (.inl hu))
  case input => exact fun id u hr _ hu => hany id u hr (.inr hu)

/-- Regular patches with the same kinds and the same snapshot have nodes that hold the same, in the
same order. -/
theorem recovered_of_snapshot_eq (hp : p.Regular) (hq : q.Regular) (hk : p.SameKinds q)
    (h : q.snapshot = p.snapshot) : List.Forall₂ Node.Recovered p.nodes q.nodes := by
  have hstates : q.nodes.map NodeState.ofNode = p.nodes.map .ofNode :=
    congrArg Snapshot.nodes h
  have hsame : List.Forall₂ (fun n m => NodeState.ofNode m = .ofNode n) p.nodes q.nodes := by
    have heq := List.forall₂_eq_eq_eq.symm ▸ hstates.symm
    exact (List.forall₂_map_right_iff.1 (List.forall₂_map_left_iff.1 heq)).imp fun _ _ => Eq.symm
  obtain ⟨hlength, hzip⟩ := List.forall₂_iff_zip.1 hsame
  refine List.forall₂_iff_zip.2 ⟨hlength, fun {n m} hnm => ?_⟩
  obtain ⟨hn, hm⟩ := List.of_mem_zip hnm
  have hfound := node?_of_mem hp.sound.nodup hn
  obtain ⟨d, hd⟩ := Option.isSome_iff_exists.1 (hp.sound.declared _ n hfound)
  have hstate := hzip hnm
  have hkind : m.kind = n.kind := congrArg NodeState.kind hstate
  refine Node.recovered_of_ofNode_eq (hp.conforming _ n d hfound hd)
    (hq.conforming _ m d (node?_of_mem hq.sound.nodup hm) ?_) hstate
  rw [hkind, hk.kinds, hd]

/-- The snapshot of a regular patch is restored to a patch with the same snapshot, wherever the same
kinds are declared, and no wire is dropped. The nodes hold what they held, and the wires are the
same, all in the order in which they were. -/
theorem restore_snapshot (hp : p.Regular) {t : Patch} (ht : p.SameKinds t) :
    ∃ q, t.restore p.snapshot = .ok q ∧ q.snapshot = p.snapshot ∧ q.dropped = t.dropped ∧
      List.Forall₂ Node.Recovered p.nodes q.nodes ∧
      q.wires.entries.map (·.2) = p.wires.entries.map (·.2) := by
  obtain ⟨r, hr, hmirrors, hdropped⟩ := restoreNodes_mirrors hp ht
  obtain ⟨hall, hrest⟩ := hmirrors.restoreWires hp (List.nil_append p.wires.entries).symm
  refine ⟨_, ?_, hall.snapshot_eq hp, hrest.trans hdropped,
    recovered_of_snapshot_eq hp hall.regular hall.sameKinds (hall.snapshot_eq hp), hall.wires⟩
  -- No kind is missing, so that nothing is refused from the start.
  have hdeclared : (p.snapshot.nodes.find? fun n => !t.kinds.contains n.kind) = none := by
    refine List.find?_eq_none.2 fun s hs => ?_
    have hkind := (hp.kind_of_mem_snapshot hs).1
    rw [Table.contains, ht.kinds, hkind]
    exact Bool.false_ne_true
  unfold restore
  rw [hdeclared]
  dsimp only
  rw [hr]
  rfl

end Patch

end Patchbay
