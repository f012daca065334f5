import Patchbay.Proofs.Patch.Rerouting
import Patchbay.Proofs.Patch.Restoring

/-!
# Wires that can be made again

When a snapshot is restored, its wires are made again in the order of their numbers, while the ports
have the types they have then. A patch is `Regular` if all this will go well. What decides is which
types its wires had to fit. A wire out of a reroute that was fed before the wire was made fits the
type that the reroute has now, since that type only changes when the wire into the reroute does. A
wire out of a reroute that was fed later, or is not fed, may not fit that type; but such a reroute
takes anything while its wires are made again.

## Key results

- `Conforming.typeOf?_eq` / `Conforming.takesWire_eq`: what is declared decides about ports
- `Regular.transfer`: fewer wires between nodes of the same kinds stay regular
- `regular_detach` / `regular_remove` / `regular_edit` / `regular_insert`: operations that make no
  wire keep a patch regular
-/

namespace Patchbay

/-- The name of the only port that a reroute has on a side. -/
def Side.reroutePort : Side → String
  | input => "in"
  | output => "out"

namespace Graph

/-- The type of the port under a name. -/
def typeOf? (g : Graph) (node name : String) (side : Side) : Option PortType :=
  (g.port? node name side).map (·.type)

/-- Whether there is a port under a name, and it takes wires. -/
def takesWire (g : Graph) (node name : String) (side : Side) : Bool :=
  (g.port? node name side).any (·.hasPort)

/-- Both ports of a wire are there and take wires. -/
def Open (g : Graph) (w : Wire) : Prop :=
  g.takesWire w.source w.sourcePort .output = true ∧ g.takesWire w.target w.targetPort .input = true

/-- The port that a node started with under a name. -/
def startOf? (g : Graph) (node name : String) (side : Side) : Option Port := do
  let k ← g.kindOf? node
  let d ← g.kinds.find? k
  d.start name side

variable {g h : Graph}

theorem startOf?_congr {node : String} (hk : h.kinds = g.kinds)
    (hid : h.kindOf? node = g.kindOf? node) (name : String) (side : Side) :
    h.startOf? node name side = g.startOf? node name side := by
  rw [startOf?, startOf?, hk, hid]

theorem typeOf?_congr {node : String} (hn : h.node? node = g.node? node) (name : String)
    (side : Side) : h.typeOf? node name side = g.typeOf? node name side := by
  rw [typeOf?, typeOf?, port?_congr hn]

theorem typeOf?_of_takesWire {node name : String} {side : Side}
    (h : g.takesWire node name side = true) : ∃ t, g.typeOf? node name side = some t := by
  unfold takesWire at h
  unfold typeOf?
  cases hp : g.port? node name side with
  | none => simp [hp] at h
  | some a => exact ⟨a.type, rfl⟩

/-- What has a type is there. -/
theorem isSome_port?_of_typeOf? {node name : String} {side : Side} {t : PortType}
    (h : g.typeOf? node name side = some t) : (g.port? node name side).isSome := by
  obtain ⟨a, ha, _⟩ := Option.map_eq_some_iff.1 h
  rw [ha]
  rfl

theorem typesOf?_eq (g : Graph) (w : Wire) : g.typesOf? w =
    (g.typeOf? w.source w.sourcePort .output).bind fun s =>
      (g.typeOf? w.target w.targetPort .input).bind fun t =>
        if g.conversions.canConnect s t then some (s, t) else none := by
  unfold typesOf? typeOf?
  cases g.port? w.source w.sourcePort .output with
  | none => rfl
  | some s => cases g.port? w.target w.targetPort .input <;> rfl

theorem typesOf?_congr {w : Wire} (hc : h.conversions = g.conversions)
    (hs : h.typeOf? w.source w.sourcePort .output = g.typeOf? w.source w.sourcePort .output)
    (ht : h.typeOf? w.target w.targetPort .input = g.typeOf? w.target w.targetPort .input) :
    h.typesOf? w = g.typesOf? w := by
  rw [typesOf?_eq, typesOf?_eq, hc, hs, ht]

/-- A wire can be made if its ports take wires and their types fit. -/
theorem admits_iff (g : Graph) (w : Wire) : g.admits w = true ↔
    w.source ≠ w.target ∧ g.Open w ∧ (g.typesOf? w).isSome := by
  unfold admits Open takesWire
  cases g.port? w.source w.sourcePort .output with
  | none => simp
  | some s => cases g.port? w.target w.targetPort .input <;> simp [and_assoc]

end Graph

namespace Patch

open Patchbay.Graph

variable {p q : Patch}

/-! ### Ports of nodes that are as declared -/

/-- Every node is as declared, apart from what may be changed; the types of reroutes are free. -/
def Conforming (p : Patch) : Prop := ∀ id n d,
  p.node? id = some n → p.kinds.find? n.kind = some d → n.Conforms d (p.reroutes id)

/-- Nodes that are the same are as declared. -/
theorem Conforming.of_nodes (hc : p.Conforming) (hk : p.SameKinds q)
    (hnode : ∀ j, (q.node? j).isSome → q.node? j = p.node? j) : q.Conforming := by
  intro j n d hn hd
  have hj := hnode j (by rw [hn]; rfl)
  rw [reroutes_congr hk.behaviour (kindOf?_congr hj)]
  exact hc j n d (hj ▸ hn) (hk.kinds ▸ hd)

/-- A port is like the one that its node started with. -/
theorem Conforming.port?_like (hc : p.Conforming) (hs : p.Sound) (id name : String) (side : Side) :
    (p.startOf? id name side = none ∧ p.port? id name side = none) ∨
      ∃ a b, p.startOf? id name side = some a ∧ p.port? id name side = some b ∧
        a.Like (p.reroutes id) b := by
  cases hn : p.node? id with
  | none => exact .inl ⟨by simp [startOf?, kindOf?, hn], by simp [port?, hn]⟩
  | some n =>
    -- The kind of the node is declared, and says what the node started with.
    obtain ⟨d, hd⟩ := Option.isSome_iff_exists.1 (hs.declared id n hn)
    have hconforms := hc id n d hn hd
    have hport : p.port? id name side = n.port? name side := by simp [port?, hn]
    have hstart : p.startOf? id name side = d.start name side := by
      simp [startOf?, kindOf?_of_node? hn, hd]
    have hsome := hconforms.isSome name side
    rw [hport, hstart]
    cases ha : d.start name side with
    | none => exact .inl ⟨rfl, by simpa [ha] using hsome⟩
    | some a =>
      obtain ⟨b, hb⟩ := Option.isSome_iff_exists.1 (hsome.trans (by rw [ha]; rfl))
      exact .inr ⟨a, b, rfl, hb, hconforms.port name side a b ha hb⟩

theorem Conforming.takesWire_eq (hc : p.Conforming) (hs : p.Sound) (id name : String)
    (side : Side) : p.takesWire id name side = (p.startOf? id name side).any (·.hasPort) := by
  obtain ⟨ha, hb⟩ | ⟨a, b, ha, hb, hlike⟩ := hc.port?_like hs id name side
  · simp [takesWire, ha, hb]
  · simp [takesWire, ha, hb, hlike.hasPort]

/-- Whether ports take wires only depends on the kinds of their nodes. -/
theorem Conforming.open_congr (hp : p.Conforming) (hsp : p.Sound) (hq : q.Conforming)
    (hsq : q.Sound) (hk : q.kinds = p.kinds) {w : Wire}
    (hs : q.kindOf? w.source = p.kindOf? w.source) (ht : q.kindOf? w.target = p.kindOf? w.target)
    (h : p.Open w) : q.Open w := by
  unfold Open at h ⊢
  rwa [hq.takesWire_eq hsq, hq.takesWire_eq hsq, startOf?_congr hk hs, startOf?_congr hk ht,
    ← hp.takesWire_eq hsp, ← hp.takesWire_eq hsp]

/-- Apart from reroutes, ports have the types they started with. -/
theorem Conforming.typeOf?_eq (hc : p.Conforming) (hs : p.Sound) {id : String}
    (hr : p.reroutes id = false) (name : String) (side : Side) :
    p.typeOf? id name side = (p.startOf? id name side).map (·.type) := by
  obtain ⟨ha, hb⟩ | ⟨a, b, ha, hb, hlike⟩ := hc.port?_like hs id name side
  · simp [typeOf?, ha, hb]
  · simp [typeOf?, ha, hb, hlike.type hr]

theorem Conforming.typeOf?_congr (hp : p.Conforming) (hsp : p.Sound) (hq : q.Conforming)
    (hsq : q.Sound) (hk : p.SameKinds q) {id : String} (hid : q.kindOf? id = p.kindOf? id)
    (hr : p.reroutes id = false) (name : String) (side : Side) :
    q.typeOf? id name side = p.typeOf? id name side := by
  rw [hq.typeOf?_eq hsq ((reroutes_congr hk.behaviour hid).trans hr), hp.typeOf?_eq hsp hr,
    startOf?_congr hk.kinds hid]

/-- A reroute has no other ports. -/
theorem eq_of_start_reroute {name : String} {side : Side}
    (h : (Builtin.reroute.declaration.start name side).isSome) : name = side.reroutePort := by
  cases side <;> simp only [Declaration.start, Node.port?] at h <;> split at h
  case input.isTrue | output.isTrue => cases h
  case input.isFalse =>
    by_cases hin : "in" = name
    · exact hin.symm
    · simp [Node.ofDeclaration, Table.find?, Table.ofList, Entries.ofList, Entries.insert,
        Entries.find?, Builtin.reroute, hin] at h
  case output.isFalse =>
    by_cases hout : "out" = name
    · exact hout.symm
    · simp [Node.ofDeclaration, Table.find?, Table.ofList, Entries.ofList, Entries.insert,
        Entries.find?, Builtin.reroute, hout] at h

/-- A node with a hook started with the ports of a reroute. -/
theorem Tame.startOf?_eq (ht : p.Tame) (hs : p.Sound) {id : String} (hr : p.reroutes id = true)
    (name : String) (side : Side) :
    p.startOf? id name side = Builtin.reroute.declaration.start name side := by
  cases hn : p.node? id with
  | none => simp [reroutes, kindOf?, hn] at hr
  | some n => simp [startOf?, kindOf?_of_node? hn, (ht.reroute hs hn hr).1]

/-- A reroute that takes a type stays as declared. -/
theorem Conforming.adopt (hc : p.Conforming) {id : String} {t : Option PortType}
    (h : p.Adopted id t q) (ht : t.isSome → p.reroutes id = true) : q.Conforming := by
  intro j m d hm hd
  rw [h.trimmed.kinds] at hd
  rw [h.reroutes]
  rw [h.node?] at hm
  split at hm
  next hj =>
    subst hj
    obtain ⟨n, hn, rfl⟩ := Option.map_eq_some_iff.1 hm
    rw [Node.kind_adopt] at hd
    have hconforms := hc j n d hn hd
    -- Only a reroute takes a type, and there types are free.
    cases t with
    | none => exact hconforms
    | some t =>
      rw [ht rfl] at hconforms ⊢
      exact (hconforms.setType "in" .input t).setType "out" .output t
  next => exact hc j m d hm hd

theorem Adopted.typeOf?_of_ne {id j : String} {t : Option PortType} (h : p.Adopted id t q)
    (hj : j ≠ id) (name : String) (side : Side) :
    q.typeOf? j name side = p.typeOf? j name side :=
  Graph.typeOf?_congr (by rw [h.node?, if_neg hj]) name side

theorem Adopted.typeOf?_none {id : String} (h : p.Adopted id none q) (j name : String)
    (side : Side) : q.typeOf? j name side = p.typeOf? j name side :=
  Graph.typeOf?_congr (h.node?_none j) name side

/-- A reroute that took a type has it at both ports. -/
theorem Adopted.typeOf?_self {id : String} {t : PortType} (h : p.Adopted id (some t) q) :
    q.typeOf? id "out" .output = (p.typeOf? id "out" .output).map (fun _ => t) ∧
      q.typeOf? id "in" .input = (p.typeOf? id "in" .input).map (fun _ => t) := by
  have hnode : q.node? id = (p.node? id).map (·.retyped t) := (h.node? id).trans (if_pos rfl)
  simp only [typeOf?, port?, hnode]
  cases p.node? id with
  | none => exact ⟨rfl, rfl⟩
  | some n =>
    -- The input is changed first, then the output; neither change reaches the other port.
    have hout : (n.retyped t).port? "out" .output =
        (n.port? "out" .output).map fun a => { a with type := t } := by
      refine (Node.port?_revisePort _ "out" "out" .output .output _).trans ?_
      rw [if_pos ⟨rfl, rfl⟩]
      refine congrArg _ ((Node.port?_revisePort n "in" "out" .input .output _).trans ?_)
      rw [if_neg (by simp)]
    have hin : (n.retyped t).port? "in" .input =
        (n.port? "in" .input).map fun a => { a with type := t } := by
      refine (Node.port?_revisePort _ "out" "in" .output .input _).trans ?_
      rw [if_neg (by simp)]
      refine (Node.port?_revisePort n "in" "in" .input .input _).trans ?_
      rw [if_pos ⟨rfl, rfl⟩]
    simp only [Option.map_some, Option.bind_eq_bind, Option.bind_some, hout, hin, Option.map_map]
    exact ⟨rfl, rfl⟩

/-- Trimming leaves the kinds of nodes alone. -/
theorem Trimmed.kindOf? (h : p.Trimmed q) (id : String) : q.kindOf? id = p.kindOf? id := by
  cases hn : p.node? id with
  | some n =>
    obtain ⟨m, hm, hgrown⟩ := h.nodes id n hn
    rw [kindOf?_of_node? hn, kindOf?_of_node? hm, hgrown.kind]
  | none =>
    have hm : q.node? id = none := by
      rw [node?_eq_none_iff] at hn ⊢
      rwa [h.ids]
    rw [Graph.kindOf?, Graph.kindOf?, hn, hm]

/-! ### Regular patches -/

/-- As far as the wire under a number is concerned, the types of a node are settled: it is not a
reroute, or it was fed before. -/
def Settled (p : Patch) (i : WireId) (id : String) : Prop :=
  p.reroutes id = false ∨ ∃ j v, p.wires.find? j = some v ∧ v.target = id ∧ j < i

/-- A wire fits its ports: values can pass, and a reroute has the type of its source. -/
def Fits (p : Patch) (w : Wire) : Prop :=
  if p.reroutes w.target then
    p.typeOf? w.target "out" .output = p.typeOf? w.source w.sourcePort .output
  else (p.typesOf? w).isSome

/-- Whether a wire fits depends on the types at its ends. -/
theorem Fits.congr {w : Wire} (h : p.Fits w) (hc : q.conversions = p.conversions)
    (hr : q.reroutes w.target = p.reroutes w.target)
    (hs : ∀ name side, q.typeOf? w.source name side = p.typeOf? w.source name side)
    (ht : ∀ name side, q.typeOf? w.target name side = p.typeOf? w.target name side) :
    q.Fits w := by
  unfold Fits at h ⊢
  rwa [hr, hs, ht, typesOf?_congr hc (hs _ _) (ht _ _)]

/-- Nodes are as declared, and wires can be made again in their order. -/
structure Regular (p : Patch) : Prop where
  sound : p.Sound
  tame : p.Tame
  conforming : p.Conforming
  isOpen : ∀ i w, p.wires.find? i = some w → p.Open w
  fits : ∀ i w, p.wires.find? i = some w → p.Settled i w.source → p.Fits w

/-- A patch without wires only has to have nodes that are as declared. -/
theorem regular_of_wires_eq_empty (hs : p.Sound) (ht : p.Tame) (hc : p.Conforming)
    (hw : p.wires = ∅) : p.Regular where
  sound := hs
  tame := ht
  conforming := hc
  isOpen := by simp [hw]
  fits := by simp [hw]

/-- Fewer wires between nodes of the same kinds stay regular, if reroutes that are fed keep their
types. -/
theorem Regular.transfer (hp : p.Regular) (hs : q.Sound) (hc : q.Conforming) (hk : p.SameKinds q)
    (hwires : ∀ i w, q.wires.find? i = some w → p.wires.find? i = some w)
    (hkind : ∀ id, (p.node? id).isSome → (q.node? id).isSome → q.kindOf? id = p.kindOf? id)
    (htype : ∀ i w, q.wires.find? i = some w → p.reroutes w.target = true →
      ∀ name side, q.typeOf? w.target name side = p.typeOf? w.target name side) : q.Regular := by
  -- The nodes at the ends of a wire that is left are in both patches.
  have hends : ∀ {i w}, q.wires.find? i = some w →
      q.kindOf? w.source = p.kindOf? w.source ∧ q.kindOf? w.target = p.kindOf? w.target := by
    intro i w hw
    obtain ⟨n, hn⟩ := node?_of_isSome_port? (hs.source i w hw)
    obtain ⟨n', hn'⟩ := node?_of_isSome_port? (hp.sound.source i w (hwires i w hw))
    obtain ⟨m, hm⟩ := node?_of_isSome_port? (hs.target i w hw)
    obtain ⟨m', hm'⟩ := node?_of_isSome_port? (hp.sound.target i w (hwires i w hw))
    exact ⟨hkind _ (by rw [hn']; rfl) (by rw [hn]; rfl),
      hkind _ (by rw [hm']; rfl) (by rw [hm]; rfl)⟩
  constructor
  case sound => exact hs
  case tame => exact hp.tame.of_kinds hk.kinds hk.behaviour
  case conforming => exact hc
  case isOpen =>
    intro i w hw
    obtain ⟨hsource, htarget⟩ := hends hw
    exact hp.conforming.open_congr hp.sound hc hs hk.kinds hsource htarget
      (hp.isOpen i w (hwires i w hw))
  case fits =>
    intro i w hw hsettled
    obtain ⟨hsource, htarget⟩ := hends hw
    have hplain : ∀ {id : String}, q.kindOf? id = p.kindOf? id → p.reroutes id = false →
        ∀ name side, q.typeOf? id name side = p.typeOf? id name side :=
      hp.conforming.typeOf?_congr hp.sound hc hs hk
    have htargetType : ∀ name side,
        q.typeOf? w.target name side = p.typeOf? w.target name side := by
      cases hr : p.reroutes w.target with
      | false => exact hplain htarget hr
      | true => exact htype i w hw hr
    -- The source is no reroute, or it is fed and keeps its type.
    obtain ⟨hsettled, hsourceType⟩ : p.Settled i w.source ∧
        ∀ name side, q.typeOf? w.source name side = p.typeOf? w.source name side := by
      cases hr : p.reroutes w.source with
      | false => exact ⟨.inl hr, hplain hsource hr⟩
      | true =>
        rcases hsettled with hnot | ⟨j, v, hv, hvt, hlt⟩
        · rw [reroutes_congr hk.behaviour hsource, hr] at hnot
          cases hnot
        · refine ⟨.inr ⟨j, v, hwires j v hv, hvt, hlt⟩, ?_⟩
          rw [← hvt] at hr ⊢
          exact htype j v hv hr
    exact (hp.fits i w (hwires i w hw) hsettled).congr hk.conversions
      (reroutes_congr hk.behaviour htarget) hsourceType htargetType

/-- What edits nodes and takes wires away keeps a patch regular, if nodes stay as declared and
reroutes that are fed keep their types. -/
theorem Regular.trimmed (hp : p.Regular) (h : p.Trimmed q) (hc : q.Conforming)
    (htype : ∀ i w, q.wires.find? i = some w → p.reroutes w.target = true →
      ∀ name side, q.typeOf? w.target name side = p.typeOf? w.target name side) : q.Regular :=
  hp.transfer (hp.sound.trimmed h.toTrimmed) hc h.sameKinds h.wires (fun j _ _ => h.kindOf? j) htype

/-! ### Single nodes and wires taken away -/

/-- A wire at a reroute is at its only port on that side. -/
theorem Regular.eq_reroutePort (hp : p.Regular) {id name : String} {side : Side}
    (hr : p.reroutes id = true) (hport : (p.port? id name side).isSome) :
    name = side.reroutePort := by
  obtain ⟨_, hb⟩ | ⟨a, b, ha, _, _⟩ := hp.conforming.port?_like hp.sound id name side
  · rw [hb] at hport
    cases hport
  · rw [hp.tame.startOf?_eq hp.sound hr] at ha
    exact eq_of_start_reroute (by rw [ha]; rfl)

/-- A wire that is detached is gone for good. -/
theorem regular_detach (hp : p.Regular) {id : WireId} {w : Wire}
    (hw : p.wires.find? id = some w) :
    ∃ q, p.detach id w = (false, q) ∧ q.Regular ∧ q.wires = p.wires.erase id := by
  obtain ⟨q, hq, hadopted⟩ := detach_eq hp.sound hp.tame hw
  have htrim : p.Trimmed q := (p.trimmed_cut id).trans hadopted.trimmed
  have hwires : q.wires = p.wires.erase id := hadopted.wires
  refine ⟨q, hq, ?_, hwires⟩
  have hc : q.Conforming := by
    refine Conforming.adopt (p := p.cut id) hp.conforming hadopted fun hsome => ?_
    split at hsome
    next h => exact h.1
    next => cases hsome
  refine hp.trimmed htrim hc fun i v hv hr name side => ?_
  -- The reroute at the end of another wire is not the one that was detached from.
  refine hadopted.typeOf?_of_ne (fun htarget => ?_) name side
  have hv' := htrim.wires i v hv
  have hvin := hp.eq_reroutePort hr (hp.sound.target i v hv')
  have hwin := hp.eq_reroutePort (htarget ▸ hr) (hp.sound.target id w hw)
  obtain rfl := hp.sound.single i id v w hv' hw htarget (hvin.trans hwin.symm)
  rw [hwires, Table.find?_erase, if_pos rfl] at hv
  cases hv

theorem regular_freeInput (hp : p.Regular) (node port : String) :
    ∃ q, p.freeInput node port = (false, q) ∧ q.Regular ∧ p.Trimmed q ∧
      q.wireAt? node port .input = none := by
  have htrim := p.trimmed_freeInput node port
  have hnone := wireAt?_freeInput hp.sound node port
  obtain ⟨q, hq, hreg⟩ : ∃ q, p.freeInput node port = (false, q) ∧ q.Regular := by
    unfold freeInput
    cases hw : p.wireAt? node port .input with
    | none => exact ⟨p, rfl, hp⟩
    | some e =>
      obtain ⟨q, hq, hreg, _⟩ := regular_detach hp (of_wireAt? hw).1
      exact ⟨q, hq, hreg⟩
  rw [hq] at htrim hnone
  exact ⟨q, hq, hreg, htrim, hnone rfl⟩

theorem regular_disconnect (hp : p.Regular) (node port : String) (side : Side) :
    (p.disconnect node port side).2.Regular := by
  unfold disconnect
  cases hw : p.wireAt? node port side with
  | none => exact hp
  | some e =>
    obtain ⟨q, hq, hreg, _⟩ := regular_detach hp (of_wireAt? hw).1
    simpa only [hq] using hreg

theorem regular_detachAll (hp : p.Regular) (ids : List WireId) : (p.detachAll ids).Regular := by
  refine List.foldlRecOn ids _ hp fun q hq id _ => ?_
  split
  next w hw =>
    obtain ⟨r, hr, hreg, _⟩ := regular_detach hq hw
    rwa [hr]
  next => exact hq

theorem regular_detachPorts (hp : p.Regular) (node : String) (side : Side) (ports : List String) :
    (p.detachPorts node side ports).Regular :=
  List.foldlRecOn ports _ hp fun _ hq _ _ => regular_detachAll hq _

theorem regular_dropWires (hp : p.Regular) (id : String) : (p.dropWires id).Regular := by
  have htrim := p.trimmed_dropWires id
  have hnode : ∀ j, (p.dropWires id).node? j = p.node? j := by
    intro j
    simp only [dropWires]
    split <;> rfl
  have hc := hp.conforming.of_nodes htrim.sameKinds fun j _ => hnode j
  exact hp.trimmed htrim hc fun i w _ _ => typeOf?_congr (hnode w.target)

/-- Without the wires of a node its removal disturbs nothing. -/
theorem regular_without (hp : p.Regular) {id : String}
    (hw : ∀ i w, p.wires.find? i = some w → w.touches id = false) :
    (p.withGraph (p.toGraph.without id)).Regular := by
  have hs : (p.withGraph (p.toGraph.without id)).Sound := hp.sound.without hw
  have hk : p.SameKinds (p.withGraph (p.toGraph.without id)) := ⟨rfl, rfl, rfl⟩
  have hnone : (p.withGraph (p.toGraph.without id)).node? id = none :=
    (node?_without p.toGraph id id).trans (if_pos rfl)
  have hnode : ∀ j, j ≠ id → (p.withGraph (p.toGraph.without id)).node? j = p.node? j :=
    fun j hj => (node?_without p.toGraph id j).trans (if_neg hj)
  have hwires : (p.withGraph (p.toGraph.without id)).wires = p.wires := rfl
  generalize p.withGraph (p.toGraph.without id) = q at hs hk hnone hnode hwires ⊢
  -- A node that is left is not the one that was taken out.
  have hne : ∀ j, (q.node? j).isSome → j ≠ id := by
    rintro j hj rfl
    rw [hnone] at hj
    cases hj
  have hc := hp.conforming.of_nodes hk fun j hj => hnode j (hne j hj)
  refine hp.transfer hs hc hk (fun i w h => hwires ▸ h)
    (fun j _ hj => kindOf?_congr (hnode j (hne j hj))) fun i w h _ => typeOf?_congr ?_
  obtain ⟨n, hn⟩ := node?_of_isSome_port? (hs.target i w h)
  exact hnode w.target (hne w.target (by rw [hn]; rfl))

theorem regular_remove (hp : p.Regular) (id : String) : (p.remove id).2.Regular := by
  unfold remove
  split
  next => exact hp
  next node _ =>
    have hdetached := regular_detachPorts (regular_detachPorts hp id .input (node.portNames .input))
      id .output (node.portNames .output)
    refine regular_without (regular_dropWires hdetached id) fun i w hw => ?_
    exact ((find?_wires_dropWires _ _ i w).1 hw).2

/-- Whether a change leaves alone what a snapshot does not hold of a node: ports, their types,
whether they take wires, and that those have a value that started with one. -/
def retains (p : Patch) (id : String) : NodeEdit → Bool
  | .move _ | .setData _ => true
  | .revisePort name side f => (p.port? id name side).all fun b =>
    (f b).type = b.type && (f b).hasPort = b.hasPort &&
      ((f b).value.isSome || (p.startOf? id name side).all (·.value.isNone))
  | .addPort _ _ _ => false

theorem conforms_of_retains (hp : p.Regular) {id : String} {n : Node} {d : Declaration}
    (hn : p.node? id = some n) (hd : p.kinds.find? n.kind = some d) {e : NodeEdit}
    (he : p.retains id e = true) : (NodeEdit.apply n e).Conforms d (p.reroutes id) := by
  have hconforms := hp.conforming id n d hn hd
  cases e with
  | move position => exact hconforms.move position
  | setData data => exact hconforms.setData data
  | addPort name side port => cases he
  | revisePort name side f =>
    refine hconforms.revisePort fun a b ha hb => ?_
    -- What the change does is only asked of the port that it is made to.
    have hlike := hconforms.port name side a b ha hb
    have hport : p.port? id name side = some b := by simp [port?, hn, hb]
    have hstart : p.startOf? id name side = some a := by
      simp [startOf?, kindOf?_of_node? hn, hd, ha]
    simp only [retains, hport, hstart, Option.all_some, Bool.and_eq_true, decide_eq_true_eq,
      Bool.or_eq_true] at he
    obtain ⟨⟨htype, hhas⟩, hvalue⟩ := he
    refine ⟨hhas.trans hlike.hasPort, fun hsome => ?_, fun hfree => htype.trans (hlike.type hfree)⟩
    rcases hvalue with hvalue | hnone
    · exact hvalue
    · rw [Option.isSome_iff_exists] at hsome
      obtain ⟨v, hv⟩ := hsome
      rw [hv] at hnone
      cases hnone

/-- A change that leaves types alone is not seen in them. -/
theorem typeOf?_edit {id : String} {e : NodeEdit} (he : p.retains id e = true)
    (j name : String) (side : Side) :
    (p.edit id e).typeOf? j name side = p.typeOf? j name side := by
  by_cases hj : j = id
  · subst hj
    simp only [typeOf?, port?, node?_edit, if_pos]
    cases hn : p.node? j with
    | none => rfl
    | some n =>
      simp only [Option.map_some, Option.bind_eq_bind, Option.bind_some]
      cases e with
      | move | setData => rfl
      | addPort => cases he
      | revisePort other t f =>
        simp only [NodeEdit.apply, Node.port?_revisePort]
        split
        next heq =>
          obtain ⟨rfl, rfl⟩ := heq
          cases hb : n.port? name side with
          | none => rfl
          | some b =>
            have hport : p.port? j name side = some b := by simp [port?, hn, hb]
            simp only [retains, hport, Option.all_some, Bool.and_eq_true, decide_eq_true_eq] at he
            -- An edit that leaves alone what a snapshot does not hold keeps the type.
            exact congrArg some he.1.1
        next => rfl
  · exact typeOf?_congr (by rw [node?_edit, if_neg hj]) name side

theorem regular_edit (hp : p.Regular) {id : String} {e : NodeEdit} (he : p.retains id e = true) :
    (p.edit id e).Regular := by
  have htrim := p.trimmed_edit id e
  have hc : (p.edit id e).Conforming := by
    intro j m d hm hd
    rw [htrim.kinds] at hd
    rw [reroutes_congr htrim.behaviour (htrim.kindOf? j)]
    rw [node?_edit] at hm
    split at hm
    next hj =>
      subst hj
      obtain ⟨n, hn, rfl⟩ := Option.map_eq_some_iff.1 hm
      rw [NodeEdit.kind_apply] at hd
      exact conforms_of_retains hp hn hd he
    next => exact hp.conforming j m d hm hd
  exact hp.trimmed htrim hc fun i w _ _ => typeOf?_edit he w.target

/-- What is inserted is a new node as its kind declares it. -/
theorem Regular.insert_cases (hp : p.Regular) {kind id : String} {position : Position}
    (h : p.insert kind id position = .ok q) : ∃ d, p.kinds.find? d.id = some d ∧
      q = p.withGraph (p.toGraph.put (.ofDeclaration d id position)) := by
  cases hd : p.kinds.find? kind with
  | none =>
    simp only [insert, hd] at h
    cases h
  | some d =>
    obtain rfl := hp.sound.keyed kind d hd
    rw [insert_eq hd (hp.tame.onCreate (by rw [hd]; rfl)) id position] at h
    exact ⟨d, hd, (Except.ok.inj h).symm⟩

/-- A new node is as declared. -/
theorem conforming_put (hc : p.Conforming) {d : Declaration} (hd : p.kinds.find? d.id = some d)
    (id : String) (position : Position) :
    (p.withGraph (p.toGraph.put (.ofDeclaration d id position))).Conforming := by
  have hk := p.sameKinds_put (.ofDeclaration d id position)
  have hnode := p.toGraph.node?_put (.ofDeclaration d id position)
  intro j n e hn he
  rw [hk.kinds] at he
  replace hn := (hnode j).symm.trans hn
  split at hn
  next hj =>
    obtain rfl := Option.some.inj hn
    obtain rfl : d = e := Option.some.inj (hd.symm.trans he)
    exact Node.conforms_ofDeclaration d _ id position
  next hj =>
    rw [reroutes_congr hk.behaviour (kindOf?_congr ((hnode j).trans (if_neg hj)))]
    exact hc j n e hn he

/-- A node may be inserted under a new id, or anywhere as long as there are no wires. -/
theorem regular_insert (hp : p.Regular) {kind id : String} {position : Position}
    (hid : id ∉ p.ids ∨ p.wires = ∅) (h : p.insert kind id position = .ok q) : q.Regular := by
  obtain ⟨d, hd, rfl⟩ := hp.insert_cases h
  have hk := p.sameKinds_put (.ofDeclaration d id position)
  have hc := conforming_put hp.conforming hd id position
  have hnode := p.toGraph.node?_put (.ofDeclaration d id position)
  have hwires := wires_put p.toGraph (.ofDeclaration d id position)
  -- With wires the old nodes have to stay as they are; without any, only the new one matters.
  rcases hid with hid | hempty
  · -- No wire leads to a node under a new id.
    have hold : ∀ j, (p.node? j).isSome →
        (p.toGraph.put (.ofDeclaration d id position)).node? j = p.node? j := by
      intro j hj
      refine (hnode j).trans (if_neg ?_)
      rintro rfl
      exact hid ((mem_ids_iff _ _).2 hj)
    refine hp.transfer (sound_insert hp.sound hid h) hc hk (fun i w hw => hwires ▸ hw)
      (fun j hj _ => kindOf?_congr (hold j hj)) fun i w hw _ => typeOf?_congr (hold w.target ?_)
    obtain ⟨n, hn⟩ := node?_of_isSome_port? (hp.sound.target i w (hwires ▸ hw))
    rw [hn]
    rfl
  · have hkind : (p.kinds.find? (Node.ofDeclaration d id position).kind).isSome :=
      Option.isSome_iff_exists.2 ⟨d, hd⟩
    exact regular_of_wires_eq_empty (hp.sound.put_of_wires_eq_empty hempty hkind)
      (hp.tame.of_kinds hk.kinds hk.behaviour) hc (hwires.trans hempty)

end Patch

end Patchbay
