import Patchbay.Proofs.Check.Agreement
import Patchbay.Proofs.Patch.Behaving
import Patchbay.Proofs.Patch.Replaying

/-!
# Wires that a check passes and a patch refuses

A check of a snapshot judges all wires by the declared ports. A patch that is restored makes the
wires one after the other, and refuses some that were passed: a port may take no wires at all, which
a check does not ask; and a reroute that was declared to give anything only gives, once it is fed,
what feeds it. `Snapshot.obstructed` says from the snapshot and the declarations alone which wires
these are, where no node of the snapshot has other hooks than those of reroutes.

The invariant of the replay is `Snapshot.Replays`: the wires that were looked at were made unless
they are obstructed, and every reroute has the type that it is supplied with.

## Key results

- `Replays.admits_eq`: a faultless wire is admitted unless it is obstructed
- `Replays.step`: the next wire is made or dropped as it should be
- `restore_of_plain`: what a snapshot without problems is restored to
-/

namespace Patchbay

namespace Snapshot

/-- The port that a node of a snapshot has under a name as soon as it is restored. -/
def startOf? (s : Snapshot) (g : Graph) (node name : String) (side : Side) : Option Port := do
  (← s.declaration? g node).start name side

/-- Whether both ports of a wire are there and take wires. -/
def opens (s : Snapshot) (g : Graph) (w : Wire) : Bool :=
  (s.startOf? g w.source w.sourcePort .output).any (·.hasPort) &&
    (s.startOf? g w.target w.targetPort .input).any (·.hasPort)

/-- Whether the node of a snapshot has a hook that is told of wires. -/
def reroutes (s : Snapshot) (p : Patch) (node : String) : Bool :=
  (s.declaration? p.toGraph node).any fun d => (p.behaviour d.id).onUpdate.isSome

/-- The type that an output gives before the wire at a place of the snapshot is made. A reroute
gives what its input was fed with last. -/
def supply (s : Snapshot) (p : Patch) : Nat → String → String → Option PortType
  | 0, node, port => (s.startOf? p.toGraph node port .output).map (·.type)
  | i + 1, node, port =>
    match s.wires[i]? with
    | some v =>
      if s.reroutes p node && v.target = node && s.opens p.toGraph v then
        supply s p i v.source v.sourcePort
      else supply s p i node port
    | none => supply s p i node port

/-- Whether what the source of a wire gives by then can reach the port that it leads to, as that is
declared. -/
def suits (s : Snapshot) (p : Patch) (i : Nat) (w : Wire) : Bool :=
  match s.supply p i w.source w.sourcePort, s.startOf? p.toGraph w.target w.targetPort .input with
  | some t, some port => p.conversions.canConnect t port.type
  | _, _ => false

/-- Whether the wire at a place of the snapshot cannot be made: one of its ports takes no wires, or
it leads out of a reroute that is fed with something that does not suit. -/
def obstructed (s : Snapshot) (p : Patch) (i : Nat) (w : Wire) : Bool :=
  !s.opens p.toGraph w || s.reroutes p w.source && !s.reroutes p w.target && !s.suits p i w

/-- The wires of a snapshot, with a mark on those that can be made. -/
def fates (s : Snapshot) (p : Patch) : List (Wire × Bool) :=
  s.wires.zipIdx.map fun e => (e.1, !s.obstructed p e.2 e.1)

variable {s : Snapshot} {p : Patch} {g : Graph} {i : Nat}

theorem getElem?_fates (s : Snapshot) (p : Patch) (i : Nat) :
    (s.fates p)[i]? = s.wires[i]?.map fun w => (w, !s.obstructed p i w) := by
  rw [fates, List.getElem?_map, List.getElem?_zipIdx, Option.map_map]
  simp [Function.comp_def]

theorem map_fates (s : Snapshot) (p : Patch) : (s.fates p).map (·.1) = s.wires := by
  rw [fates, List.map_map]
  exact List.zipIdx_map_fst 0 s.wires

theorem forall_fates_iff (s : Snapshot) (p : Patch) : (∀ e ∈ s.fates p, e.2 = true) ↔
    ∀ i w, s.wires[i]? = some w → s.obstructed p i w = false := by
  constructor
  · intro h i w hw
    have hmem : (w, !s.obstructed p i w) ∈ s.fates p :=
      List.mem_of_getElem? (by rw [getElem?_fates, hw, Option.map_some])
    simpa using h _ hmem
  · intro h e he
    obtain ⟨i, hi⟩ := List.getElem?_of_mem he
    rw [getElem?_fates] at hi
    obtain ⟨w, hw, rfl⟩ := Option.map_eq_some_iff.1 hi
    simp [h i w hw]

/-- All that is not a reroute gives what it was declared to give. -/
theorem supply_of_not_reroutes {node : String} (h : s.reroutes p node = false) (i : Nat)
    (port : String) :
    s.supply p i node port = (s.startOf? p.toGraph node port .output).map (·.type) := by
  induction i with
  | zero => rfl
  | succ i ih =>
    unfold supply
    rw [h]
    split
    · rw [if_neg (by simp), ih]
    · exact ih

/-- Where ids are not repeated, a node has the declaration of its kind. -/
theorem declaration?_of_mem (hids : (s.nodes.map (·.id)).Nodup) {n : NodeState}
    (hn : n ∈ s.nodes) : s.declaration? g n.id = g.kinds.find? n.kind := by
  obtain ⟨before, after, hsplit⟩ := List.append_of_mem hn
  rw [hsplit, List.map_append, List.map_cons] at hids
  obtain ⟨_, hafter, hbefore⟩ := List.nodup_append.1 hids
  -- No other node has the same id.
  have hnone : ∀ l : List NodeState, (∀ m ∈ l, m.id ≠ n.id) →
      l.filterMap (fun m => if m.id = n.id then g.kinds.find? m.kind else none) = [] :=
    fun l hl => List.filterMap_eq_nil_iff.2 fun m hm => if_neg (hl m hm)
  have h₁ := hnone before fun m hm heq =>
    hbefore m.id (List.mem_map_of_mem hm) n.id List.mem_cons_self heq
  have h₂ := hnone after fun m hm heq =>
    (List.nodup_cons.1 hafter).1 (heq ▸ List.mem_map_of_mem hm)
  rw [declaration?, hsplit, List.filterMap_append, h₁, List.filterMap_cons, h₂, if_pos rfl]
  cases g.kinds.find? n.kind <;> rfl

/-- A declaration of a node is that of the kind of an entry under its id. -/
theorem of_declaration? {id : String} {d : Declaration} (h : s.declaration? g id = some d) :
    ∃ n ∈ s.nodes, n.id = id ∧ g.kinds.find? n.kind = some d := by
  obtain ⟨n, hn, hd⟩ := List.mem_filterMap.1 (List.mem_of_getLast? h)
  split at hd
  next hid => exact ⟨n, hn, hid, hd⟩
  next => cases hd

/-- A node that has a declaration is one of the nodes. -/
theorem declaration?_eq_none {id : String} (h : id ∉ s.nodes.map (·.id)) :
    s.declaration? g id = none := by
  refine Option.eq_none_iff_forall_ne_some.2 fun d hd => ?_
  obtain ⟨n, hn, rfl, _⟩ := of_declaration? hd
  exact h (List.mem_map_of_mem hn)

/-- Where ports have one declaration, the type of a port is the declared one. -/
theorem declaredType?_of_startOf? (hd : ∀ id d, s.declaration? g id = some d → d.Distinct)
    {node name : String} {side : Side} {a : Port} (h : s.startOf? g node name side = some a) :
    s.declaredType? g node name side = some a.type := by
  unfold startOf? at h
  unfold declaredType?
  cases hdecl : s.declaration? g node with
  | none => simp [hdecl] at h
  | some d =>
    rw [hdecl] at h
    have htype := Declaration.type_of_start (hd node d hdecl) h
    cases hport : d.port? name side with
    | none => simp [hport] at htype
    | some b => simpa [hport] using htype

/-! ### The replay of the wires -/

/-- The patch `r` is what the nodes and the first wires of the snapshot were restored to. -/
structure Replays (s : Snapshot) (p : Patch) (i : Nat) (r : Patch) : Prop where
  regular : r.Regular
  sameKinds : p.SameKinds r
  kindOf? : ∀ id, r.kindOf? id = (s.declaration? p.toGraph id).map (·.id)
  accounts : p.Accounts ((s.fates p).take i) r
  /-- A reroute gives what it is supplied with. -/
  output : ∀ id, s.reroutes p id = true → r.typeOf? id "out" .output = s.supply p i id "out"
  /-- A reroute that is not fed takes anything. -/
  input : ∀ id t, s.reroutes p id = true → (∀ k v, r.wires.find? k = some v → v.target ≠ id) →
    r.typeOf? id "in" .input = some t → t.isAny = true

namespace Replays

open Patchbay.Graph Patchbay.Patch

variable {r q : Patch} {w : Wire}

theorem startOf?_eq (h : s.Replays p i r) (id name : String) (side : Side) :
    r.startOf? id name side = s.startOf? p.toGraph id name side := by
  unfold Graph.startOf? Snapshot.startOf?
  rw [h.kindOf?, h.sameKinds.kinds]
  cases hd : s.declaration? p.toGraph id with
  | none => rfl
  | some d =>
    -- A declaration is found under its own id.
    obtain ⟨n, _, _, hfind⟩ := of_declaration? hd
    have hkey : d.id = n.kind := h.regular.sound.keyed _ _ (h.sameKinds.kinds ▸ hfind)
    simp [hkey, hfind]

theorem open_iff (h : s.Replays p i r) (w : Wire) : r.Open w ↔ s.opens p.toGraph w = true := by
  have hc := h.regular.conforming
  have hs := h.regular.sound
  unfold Graph.Open Snapshot.opens
  rw [hc.takesWire_eq hs, hc.takesWire_eq hs, h.startOf?_eq, h.startOf?_eq, Bool.and_eq_true]

theorem reroutes_eq (h : s.Replays p i r) (id : String) : r.reroutes id = s.reroutes p id := by
  unfold Patch.reroutes Snapshot.reroutes
  rw [h.kindOf?, h.sameKinds.behaviour, Option.any_map]

/-- Apart from reroutes, ports have the types they started with. -/
theorem typeOf?_eq (h : s.Replays p i r) {id : String} (hr : s.reroutes p id = false)
    (name : String) (side : Side) :
    r.typeOf? id name side = (s.startOf? p.toGraph id name side).map (·.type) := by
  rw [h.regular.conforming.typeOf?_eq h.regular.sound ((h.reroutes_eq id).trans hr), h.startOf?_eq]

/-- The source of a wire has the type that it is supplied with. -/
theorem source_type (h : s.Replays p i r) (hopen : r.Open w) :
    r.typeOf? w.source w.sourcePort .output = s.supply p i w.source w.sourcePort := by
  cases hr : s.reroutes p w.source with
  | false => rw [h.typeOf?_eq hr, supply_of_not_reroutes hr]
  | true =>
    obtain ⟨t, ht⟩ := typeOf?_of_takesWire hopen.1
    have hout : w.sourcePort = "out" :=
      h.regular.eq_reroutePort ((h.reroutes_eq _).trans hr) (isSome_port?_of_typeOf? ht)
    rw [hout]
    exact h.output w.source hr

/-- The types at the ends of a faultless wire that is not obstructed fit. -/
theorem canConnect (h : s.Replays p i r)
    (hd : ∀ id d, s.declaration? p.toGraph id = some d → d.Distinct)
    (hw : s.Faultless p.toGraph w) (hfree : r.wireAt? w.target w.targetPort .input = none)
    (hopen : r.Open w) {a b : PortType} (ha : r.typeOf? w.source w.sourcePort .output = some a)
    (hb : r.typeOf? w.target w.targetPort .input = some b) :
    p.conversions.canConnect a b = !s.obstructed p i w := by
  have hopens := (h.open_iff w).1 hopen
  simp only [obstructed, hopens, Bool.not_true, Bool.false_or]
  cases hrt : s.reroutes p w.target with
  | true =>
    -- A reroute at a free input is not fed, and takes anything.
    have hreroutes := (h.reroutes_eq w.target).trans hrt
    have hport := isSome_port?_of_typeOf? hb
    have hin : w.targetPort = "in" := h.regular.eq_reroutePort hreroutes hport
    have hany := h.input w.target b hrt
      (fun k v hv => h.regular.not_fed hfree hport hreroutes hv) (hin ▸ hb)
    simp [Conversions.canConnect_of_isAny_target _ a hany]
  | false =>
    rw [h.typeOf?_eq hrt, Option.map_eq_some_iff] at hb
    obtain ⟨port, hport, rfl⟩ := hb
    cases hrs : s.reroutes p w.source with
    | true =>
      have hsupply := (h.source_type hopen).symm.trans ha
      simp [suits, hsupply, hport]
    | false =>
      -- Both ports have their declared types, and under these the wire is faultless.
      rw [h.typeOf?_eq hrs, Option.map_eq_some_iff] at ha
      obtain ⟨source, hsource, rfl⟩ := ha
      obtain ⟨_, _, a, b, ha, hb, hcan⟩ := hw
      rw [declaredType?_of_startOf? hd hsource] at ha
      rw [declaredType?_of_startOf? hd hport] at hb
      rw [Option.some.inj ha, Option.some.inj hb, hcan]
      rfl

/-- A faultless wire into a free input is admitted unless it is obstructed. -/
theorem admits_eq (h : s.Replays p i r)
    (hd : ∀ id d, s.declaration? p.toGraph id = some d → d.Distinct)
    (hw : s.Faultless p.toGraph w) (hfree : r.wireAt? w.target w.targetPort .input = none) :
    r.admits w = !s.obstructed p i w := by
  rw [Bool.eq_iff_iff, Graph.admits_iff]
  by_cases hopen : r.Open w
  · obtain ⟨a, ha⟩ := typeOf?_of_takesWire hopen.1
    obtain ⟨b, hb⟩ := typeOf?_of_takesWire hopen.2
    have hcan := h.canConnect hd hw hfree hopen ha hb
    rw [← hcan, typesOf?_eq, ha, hb, h.sameKinds.conversions]
    by_cases hfit : p.conversions.canConnect a b = true <;> simp [hfit, hopen, hw.1]
  · have hopens : s.opens p.toGraph w = false :=
      Bool.eq_false_iff.2 fun htrue => hopen ((h.open_iff w).2 htrue)
    simp [hopen, obstructed, hopens]

/-! #### One wire after the other -/

theorem supply_succ (hw : s.wires[i]? = some w) (node port : String) :
    s.supply p (i + 1) node port =
      if s.reroutes p node && w.target = node && s.opens p.toGraph w then
        s.supply p i w.source w.sourcePort
      else s.supply p i node port := by
  simp only [supply, hw]

theorem take_fates_succ (hw : s.wires[i]? = some w) :
    (s.fates p).take (i + 1) = (s.fates p).take i ++ [(w, !s.obstructed p i w)] := by
  rw [List.take_add_one, getElem?_fates, hw]
  rfl

/-- The input that the next wire leads to is free. -/
theorem free (h : s.Replays p i r)
    (hsingle : ∀ node port, s.wires.countP (·.endsAt node port .input) ≤ 1)
    (hw : s.wires[i]? = some w) : r.wireAt? w.target w.targetPort .input = none := by
  obtain ⟨hi, rfl⟩ := List.getElem?_eq_some_iff.1 hw
  have hsplit : s.wires = ((s.fates p).take i).map (·.1) ++ s.wires[i] :: s.wires.drop (i + 1) := by
    rw [List.map_take, map_fates, ← List.drop_eq_getElem_cons hi, List.take_append_drop]
  exact h.accounts.free hsplit hsingle

/-- A wire that is obstructed is dropped. -/
theorem note (h : s.Replays p i r) (hw : s.wires[i]? = some w)
    (hob : s.obstructed p i w = true) : s.Replays p (i + 1) (r.note (.droppedWire w)) where
  regular := regular_note h.regular _
  sameKinds := h.sameKinds.trans ⟨rfl, rfl, rfl⟩
  kindOf? := h.kindOf?
  accounts := by
    rw [take_fates_succ hw, hob]
    exact h.accounts.note rfl rfl
  output := by
    intro id hr
    rw [supply_succ hw, if_neg]
    · exact h.output id hr
    · -- A wire into a reroute is only obstructed if its ports take no wires.
      intro hfed
      simp only [Bool.and_eq_true, decide_eq_true_eq] at hfed
      obtain ⟨⟨_, rfl⟩, hopens⟩ := hfed
      simp [obstructed, hr, hopens] at hob
  input := h.input

/-- A wire that both ends were told of is made; a reroute that it leads to is supplied by it. -/
theorem addWire (h : s.Replays p i r) (hw : s.wires[i]? = some w)
    (hob : s.obstructed p i w = false) {t : PortType} (hq : r.Agreed w t q) :
    s.Replays p (i + 1) (q.addWire w) where
  regular := hq.regular h.regular
  sameKinds := (h.sameKinds.trans hq.adopted.trimmed.sameKinds).trans ⟨rfl, rfl, rfl⟩
  kindOf? := fun id => (hq.adopted.kindOf? id).trans (h.kindOf? id)
  accounts := by
    rw [take_fates_succ hw, hob]
    exact h.accounts.addWire (hq.sound h.regular) hq.adopted.wires hq.adopted.trimmed.dropped
  output := by
    intro id hr
    show q.typeOf? id "out" .output = _
    rw [supply_succ hw]
    by_cases hid : id = w.target
    · subst hid
      have hreroutes := (h.reroutes_eq w.target).trans hr
      have hopens := (h.open_iff w).1 hq.isOpen
      obtain ⟨_, htypes⟩ := hq.types
      obtain ⟨u, hu⟩ := Option.isSome_iff_exists.1 (h.regular.isSome_typeOf?_out hreroutes)
      -- The reroute takes the type of the source.
      have hadopted := hq.adopted
      rw [hreroutes, if_pos rfl] at hadopted
      rw [hadopted.typeOf?_self.1, hu, Option.map_some, if_pos (by simp [hr, hopens]),
        ← h.source_type hq.isOpen, (of_typesOf? htypes).1]
    · rw [hq.typeOf?_eq (fun heq => absurd heq hid), if_neg (by simp [Ne.symm hid])]
      exact h.output id hr
  input := by
    intro id u hr hfed hu
    -- The reroute is not the one that the wire leads to, and was not fed before.
    have hid : id ≠ w.target := fun heq => hfed q.nextWire w (by
      show (q.wires.insert q.nextWire w).find? q.nextWire = some w
      rw [Table.find?_insert, if_pos rfl]) heq.symm
    refine h.input id u hr (fun k v hv => ?_) ?_
    · refine hfed k v ?_
      show (q.wires.insert q.nextWire w).find? k = some v
      have hne : k ≠ q.nextWire := by
        rw [hq.adopted.trimmed.nextWire]
        exact Nat.ne_of_lt (h.regular.sound.below k v hv)
      rw [Table.find?_insert, if_neg hne, hq.adopted.wires]
      exact hv
    · rw [← hq.typeOf?_eq fun heq => absurd heq hid]
      exact hu

/-- The next wire is made unless it is obstructed. -/
theorem step (h : s.Replays p i r)
    (hd : ∀ id d, s.declaration? p.toGraph id = some d → d.Distinct)
    (hfaultless : ∀ w ∈ s.wires, s.Faultless p.toGraph w)
    (hsingle : ∀ node port, s.wires.countP (·.endsAt node port .input) ≤ 1)
    (hw : s.wires[i]? = some w) : s.Replays p (i + 1) (r.restoreWire w) := by
  have hfree := h.free hsingle hw
  have hadmits := h.admits_eq hd (hfaultless w (List.mem_of_getElem? hw)) hfree
  unfold Patch.restoreWire
  cases hob : s.obstructed p i w with
  | false =>
    rw [hob] at hadmits
    obtain ⟨t, q, hq, hconnect⟩ := connect_eq h.regular hadmits hfree
    rw [hconnect]
    exact h.addWire hw hob hq
  | true =>
    rw [hob] at hadmits
    have hconnect : r.connect w = (none, r) := by
      unfold Patch.connect
      rw [hadmits]
      rfl
    rw [hconnect]
    exact h.note hw hob

/-- All wires are looked at, in their order. -/
theorem restoreWires (h : s.Replays p 0 r)
    (hd : ∀ id d, s.declaration? p.toGraph id = some d → d.Distinct)
    (hfaultless : ∀ w ∈ s.wires, s.Faultless p.toGraph w)
    (hsingle : ∀ node port, s.wires.countP (·.endsAt node port .input) ≤ 1) :
    p.Accounts (s.fates p) (s.wires.foldl Patch.restoreWire r) := by
  have hfirst : ∀ i ≤ s.wires.length,
      s.Replays p i ((s.wires.take i).foldl Patch.restoreWire r) := by
    intro i
    induction i with
    | zero => exact fun _ => h
    | succ i ih =>
      intro hi
      have hw : s.wires[i]? = some s.wires[i] := List.getElem?_eq_getElem hi
      rw [List.take_add_one, hw, List.foldl_append]
      exact (ih (by omega)).step hd hfaultless hsingle hw
  have hall := (hfirst s.wires.length (Nat.le_refl _)).accounts
  have hlength : (s.fates p).length = s.wires.length := by simp [fates]
  rwa [List.take_length, ← hlength, List.take_length] at hall

end Replays

end Snapshot

/-! ### Snapshots without problems -/

namespace Patch

open Patchbay.Graph

variable {p : Patch} {s : Snapshot}

/-- The kind declares no two ports of a side under one name, and has no hooks, unless it is the
built-in reroute. -/
def Plain (p : Patch) (kind : String) : Prop := ∀ d, p.kinds.find? kind = some d → d.Distinct ∧
  ((p.behaviour kind).onCreate = none ∧ (p.behaviour kind).onUpdate = none ∨
    d = Builtin.reroute.declaration ∧ p.behaviour kind = Builtin.reroute.behaviour)

/-- The nodes of a snapshot come back with the ports that are declared, and without wires. -/
theorem replays_restoreNodes (hp : p.Sound) (htame : p.Tame)
    (hids : (s.nodes.map (·.id)).Nodup)
    (hkinds : ∀ n ∈ s.nodes, p.kinds.contains n.kind = true) :
    ∃ r, s.nodes.foldlM restoreNode p.clear = .ok r ∧ s.Replays p 0 r := by
  have hclear : p.clear.Regular :=
    regular_of_wires_eq_empty (sound_clear hp) htame (fun _ _ _ h => by cases h) rfl
  have hnew : (p.clear.ids ++ s.nodes.map (·.id)).Nodup := hids
  obtain ⟨r, hr, hrids, _, hnodes⟩ := restoreNodes_eq (p := p.clear) hp.keyed hnew
    fun n hn => ⟨hkinds n hn, htame.onCreate (hkinds n hn)⟩
  obtain ⟨hreg, hempty, hsame, hdropped⟩ := regular_restoreNodes hclear rfl hr
  -- Under each id there is a node as its kind declares it, or none.
  have hnode : ∀ id, (s.declaration? p.toGraph id = none ∧ r.node? id = none) ∨
      ∃ n d m, p.kinds.find? n.kind = some d ∧ s.declaration? p.toGraph id = some d ∧
        r.node? id = some m ∧ m.Restored d n := by
    intro id
    by_cases hid : id ∈ s.nodes.map (·.id)
    · obtain ⟨n, hn, rfl⟩ := List.mem_map.1 hid
      obtain ⟨d, hd⟩ := Option.isSome_iff_exists.1 (hkinds n hn)
      obtain ⟨m, hm, hrestored⟩ := hnodes n hn d hd
      exact .inr ⟨n, d, m, hd, (Snapshot.declaration?_of_mem hids hn).trans hd, hm, hrestored⟩
    · refine .inl ⟨Snapshot.declaration?_eq_none hid, (node?_eq_none_iff _ _).2 ?_⟩
      rw [hrids]
      exact hid
  have htype : ∀ id name side,
      r.typeOf? id name side = (s.startOf? p.toGraph id name side).map (·.type) := by
    intro id name side
    obtain ⟨hdecl, hm⟩ | ⟨n, d, m, _, hdecl, hm, hrestored⟩ := hnode id
    · simp [typeOf?, port?, Snapshot.startOf?, hdecl, hm]
    · simp [typeOf?, port?, Snapshot.startOf?, hdecl, hm, hrestored.port, Function.comp_def]
  refine ⟨r, hr, ?_⟩
  constructor
  case regular => exact hreg
  case sameKinds => exact SameKinds.trans (p := p) (q := p.clear) ⟨rfl, rfl, rfl⟩ hsame
  case kindOf? =>
    intro id
    obtain ⟨hdecl, hm⟩ | ⟨n, d, m, _, hdecl, hm, hrestored⟩ := hnode id
    · rw [Graph.kindOf?, hm, hdecl]
      rfl
    · rw [Graph.kindOf?, hm, hdecl, Option.map_some, hrestored.kind]
      rfl
  case accounts => exact accounts_nil hempty hdropped
  case output => exact fun id _ => htype id "out" .output
  case input =>
    intro id t hr _ ht
    obtain ⟨d, hdecl, hhook⟩ := (Option.any_eq_true _ _).1 hr
    obtain ⟨n, _, _, hd⟩ := Snapshot.of_declaration? hdecl
    -- The only kind with a hook is the reroute, whose input is declared to take anything.
    rw [hp.keyed _ _ hd] at hhook
    obtain ⟨_, hnone⟩ | ⟨rfl, _⟩ := htame _ _ hd
    · simp [hnone] at hhook
    · rw [htype, Snapshot.startOf?, hdecl] at ht
      exact Option.some.inj ht ▸ rfl

/-- Where no kind but the reroute has hooks, a snapshot without problems is restored but for the
wires that are obstructed. -/
theorem restore_of_tame (hp : p.Sound) (htame : p.Tame) (hids : (s.nodes.map (·.id)).Nodup)
    (hd : ∀ n ∈ s.nodes, ∀ d, p.kinds.find? n.kind = some d → d.Distinct)
    (hproblems : s.problems p.toGraph = []) :
    ∃ q, p.restore s = .ok q ∧ p.Accounts (s.fates p) q := by
  obtain ⟨hkinds, hfaultless, hsingle, _⟩ := (s.problems_eq_nil_iff p.toGraph).1 hproblems
  obtain ⟨q, hq⟩ := exists_restore hkinds
  obtain ⟨r, hr, rfl⟩ := restore_cases hq
  obtain ⟨r', hr', hreplays⟩ := replays_restoreNodes hp htame hids hkinds
  obtain rfl : r = r' := Except.ok.inj (hr.symm.trans hr')
  refine ⟨_, hq, hreplays.restoreWires (fun id d hdecl => ?_) hfaultless hsingle⟩
  obtain ⟨n, hn, _, hfind⟩ := Snapshot.of_declaration? hdecl
  exact hd n hn d hfind

/-- Which wires are obstructed depends on which nodes are reroutes. -/
theorem fates_behaving (p : Patch) {b : String → Behaviour}
    (hr : ∀ id, s.reroutes (p.behaving b) id = s.reroutes p id) :
    s.fates (p.behaving b) = s.fates p := by
  have hgraph : (p.behaving b).toGraph = p.toGraph := rfl
  have hsupply : ∀ i node port, s.supply (p.behaving b) i node port = s.supply p i node port := by
    intro i
    induction i with
    | zero => exact fun _ _ => rfl
    | succ i ih =>
      intro node port
      simp only [Snapshot.supply, hr, hgraph, ih]
  have hobstructed : ∀ i w, s.obstructed (p.behaving b) i w = s.obstructed p i w := by
    intro i w
    simp only [Snapshot.obstructed, Snapshot.suits, hr, hsupply, hgraph]
  simp only [Snapshot.fates, hobstructed]

/-- A snapshot without problems that only uses plain kinds is restored but for the wires that are
obstructed, whatever other kinds are declared. -/
theorem restore_of_plain (hp : p.Sound) (hids : (s.nodes.map (·.id)).Nodup)
    (hproblems : s.problems p.toGraph = []) (hplain : ∀ n ∈ s.nodes, p.Plain n.kind) :
    ∃ q, p.restore s = .ok q ∧ p.Accounts (s.fates p) q := by
  -- The hooks of kinds that the snapshot does not use may as well be absent.
  let b : String → Behaviour := fun k => if k ∈ s.nodes.map (·.kind) then p.behaviour k else {}
  have hb : ∀ n ∈ s.nodes, b n.kind = p.behaviour n.kind :=
    fun n hn => if_pos (List.mem_map_of_mem hn)
  have htame : (p.behaving b).Tame := by
    intro k d hd
    by_cases hk : k ∈ s.nodes.map (·.kind)
    · obtain ⟨n, hn, rfl⟩ := List.mem_map.1 hk
      have hsame : (p.behaving b).behaviour n.kind = p.behaviour n.kind := hb n hn
      rw [hsame]
      exact (hplain n hn d hd).2
    · have hnone : (p.behaving b).behaviour k = {} := if_neg hk
      rw [hnone]
      exact .inl ⟨rfl, rfl⟩
  have hreroutes : ∀ id, s.reroutes (p.behaving b) id = s.reroutes p id := by
    intro id
    unfold Snapshot.reroutes
    cases hdecl : s.declaration? p.toGraph id with
    | none =>
      have hdecl' : s.declaration? (p.behaving b).toGraph id = none := hdecl
      rw [hdecl']
      rfl
    | some d =>
      obtain ⟨n, hn, _, hfind⟩ := Snapshot.of_declaration? hdecl
      have hdecl' : s.declaration? (p.behaving b).toGraph id = some d := hdecl
      have hsame : (p.behaving b).behaviour d.id = p.behaviour d.id := by
        rw [hp.keyed _ _ hfind]
        exact hb n hn
      rw [hdecl', Option.any_some, Option.any_some, hsame]
  obtain ⟨q', hq', haccounts⟩ := restore_of_tame (p := p.behaving b) (s := s) hp htame hids
    (fun n hn d hd => (hplain n hn d hd).1) hproblems
  rw [fates_behaving p hreroutes] at haccounts
  -- The same comes of restoring with all hooks.
  rw [restore_behaving hp hb] at hq'
  cases hq : p.restore s with
  | error e =>
    rw [hq] at hq'
    cases hq'
  | ok q =>
    rw [hq] at hq'
    obtain rfl := Except.ok.inj hq'
    exact ⟨q, rfl, haccounts.made, haccounts.dropped⟩

end Patch

end Patchbay
