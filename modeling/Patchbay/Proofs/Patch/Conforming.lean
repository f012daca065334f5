import Patchbay.Proofs.Table
import Patchbay.Snapshot.Basic

/-!
# Nodes that still are as declared

A snapshot holds of a node only what cannot be found out from its kind. So a node comes back from a
snapshot as it was if, apart from values, data and position, it still is as its declaration made it:
`Node.Conforms`. The types of its ports may have changed where that is allowed.

A port that starts with a value keeps having one, since a snapshot cannot say that a value is
missing.

## Key results

- `Node.conforms_ofDeclaration`: a new node conforms
- `Node.Conforms.revisePort`: changes of values, and of types where allowed, keep it conforming
- `Node.ofNode_of_restored`: a new node with the values of a snapshot has the state that the
  snapshot holds
- `Node.recovered_of_ofNode_eq`: nodes with the same state hold the same
-/

namespace Patchbay

/-- The name that always means the control port of a side. -/
def Side.controlName : Side → String
  | input => flowInName
  | output => flowOutName

/-- The values of the ports of a side. -/
def NodeState.values (s : NodeState) : Side → PortValues
  | .input => s.inputs
  | .output => s.outputs

/-- The port that a new node of a kind has under a name. -/
def Declaration.start (d : Declaration) (name : String) (side : Side) : Option Port :=
  (Node.ofDeclaration d "" .origin).port? name side

/-- The port `b` is `a` as far as wires and snapshots need it: it takes wires if `a` does, and has a
value if `a` has one. It has the type of `a`, unless types are free. -/
structure Port.Like (free : Bool) (a b : Port) : Prop where
  hasPort : b.hasPort = a.hasPort
  value : a.value.isSome → b.value.isSome
  type : free = false → b.type = a.type

theorem Port.Like.refl (free : Bool) (a : Port) : a.Like free a := ⟨rfl, fun h => h, fun _ => rfl⟩

namespace Node

/-- The node is as declared, apart from position, data and values, and from types where they are
free. -/
structure Conforms (d : Declaration) (free : Bool) (n : Node) : Prop where
  kind : n.kind = d.id
  isSome : ∀ name side, (n.port? name side).isSome = (d.start name side).isSome
  port : ∀ name side a b, d.start name side = some a → n.port? name side = some b → a.Like free b
  /-- An ordinary port under the name of a control port cannot be got at, and stays as it is. -/
  shadowed : ∀ side : Side, (n.ports side).find? side.controlName =
    ((ofDeclaration d "" .origin).ports side).find? side.controlName

variable {d : Declaration} {free : Bool} {n : Node}

theorem port?_ofDeclaration (d : Declaration) (id : String) (position : Position) (name : String)
    (side : Side) : (ofDeclaration d id position).port? name side = d.start name side := by
  cases side <;> rfl

theorem conforms_ofDeclaration (d : Declaration) (free : Bool) (id : String)
    (position : Position) : (ofDeclaration d id position).Conforms d free where
  kind := rfl
  isSome := fun name side => by rw [port?_ofDeclaration]
  port := fun name side a b ha hb => by
    rw [port?_ofDeclaration, ha] at hb
    obtain rfl := Option.some.inj hb
    exact .refl free a
  shadowed := fun side => by cases side <;> rfl

/-- All other names mean ordinary ports. -/
theorem port?_of_ne (n : Node) {name : String} {side : Side} (h : name ≠ side.controlName) :
    n.port? name side = (n.ports side).find? name := by
  cases side with
  | input => exact if_neg h
  | output => exact if_neg h

/-- A change of a port does not reach an ordinary port under the name of a control port. -/
theorem find?_controlName_revisePort (n : Node) (name : String) (side t : Side)
    (f : Port → Port) :
    ((n.revisePort name side f).ports t).find? t.controlName = (n.ports t).find? t.controlName := by
  cases side <;> cases t <;> simp only [revisePort, ports, Side.controlName] <;> split
  case input.input.isFalse h => rw [Table.find?_modify, if_neg (Ne.symm h)]
  case output.output.isFalse h => rw [Table.find?_modify, if_neg (Ne.symm h)]
  all_goals rfl

/-- A node still conforms after a change to a port that keeps what is asked of it. -/
theorem Conforms.revisePort (h : n.Conforms d free) {name : String} {side : Side} {f : Port → Port}
    (hf : ∀ a b, d.start name side = some a → n.port? name side = some b → a.Like free (f b)) :
    (n.revisePort name side f).Conforms d free where
  kind := (NodeEdit.kind_apply n (.revisePort name side f)).trans h.kind
  isSome := fun j t => by
    rw [port?_revisePort, ← h.isSome j t]
    split
    · exact Option.isSome_map
    · rfl
  port := fun j t a b ha hb => by
    rw [port?_revisePort] at hb
    split at hb
    next heq =>
      obtain ⟨rfl, rfl⟩ := heq
      obtain ⟨c, hc, rfl⟩ := Option.map_eq_some_iff.1 hb
      exact hf a c ha hc
    next => exact h.port j t a b ha hb
  shadowed := fun t => (n.find?_controlName_revisePort name side t f).trans (h.shadowed t)

/-- Where types are free, a port may take another one. -/
theorem Conforms.setType (h : n.Conforms d true) (name : String) (side : Side) (t : PortType) :
    (NodeEdit.apply n (.setType name side t)).Conforms d true :=
  h.revisePort fun a b ha hb =>
    ⟨(h.port name side a b ha hb).hasPort, (h.port name side a b ha hb).value,
      fun h => by cases h⟩

theorem Conforms.setData (h : n.Conforms d free) (v : Value) :
    (NodeEdit.apply n (.setData v)).Conforms d free :=
  ⟨h.kind, h.isSome, h.port, h.shadowed⟩

theorem Conforms.move (h : n.Conforms d free) (p : Position) :
    (NodeEdit.apply n (.move p)).Conforms d free :=
  ⟨h.kind, h.isSome, h.port, h.shadowed⟩

/-! ### Nodes with the values of a snapshot -/

/-- The node `m` is a new node of its kind with the values, the data and the position of a
snapshot. -/
structure Restored (d : Declaration) (s : NodeState) (m : Node) : Prop where
  id : m.id = s.id
  kind : m.kind = d.id
  position : m.position = s.position
  data : m.data = s.data
  port : ∀ name side, m.port? name side = (d.start name side).map fun a =>
    { a with value := ((s.values side).find? name).or a.value }
  shadowed : ∀ side : Side, (m.ports side).find? side.controlName =
    ((ofDeclaration d "" .origin).ports side).find? side.controlName

theorem values_ofNode (n : Node) (side : Side) :
    (NodeState.ofNode n).values side = (n.ports side).filterMap (·.value) := by
  cases side <;> rfl

/-- A value that a snapshot leaves out is missing from the start. -/
theorem Conforms.or_value (h : n.Conforms d free) {name : String} {side : Side} {a b : Port}
    (ha : d.start name side = some a) (hb : n.port? name side = some b) :
    b.value.or a.value = b.value := by
  have hlike := (h.port name side a b ha hb).value
  cases hbv : b.value with
  | some v => rfl
  | none =>
    cases hav : a.value with
    | none => rfl
    | some v =>
      rw [hav, hbv] at hlike
      cases hlike rfl

/-- A node that conforms has the values that its snapshot is restored to. -/
theorem values_of_restored {m : Node} (hn : n.Conforms d free) (hm : m.Restored d (.ofNode n))
    (side : Side) : (NodeState.ofNode m).values side = (NodeState.ofNode n).values side := by
  refine Table.ext_find? fun name => ?_
  rw [values_ofNode, values_ofNode, Table.find?_filterMap, Table.find?_filterMap]
  by_cases hname : name = side.controlName
  -- A value under the name of the control port was never looked at.
  · rw [hname, hm.shadowed, hn.shadowed]
  · have hport := hm.port name side
    rw [values_ofNode, Table.find?_filterMap, ← n.port?_of_ne hname] at hport
    rw [← n.port?_of_ne hname, ← m.port?_of_ne hname, hport]
    have hsome := hn.isSome name side
    cases hb : n.port? name side with
    | none =>
      rw [hb, Option.isSome_none, eq_comm, Option.isSome_eq_false_iff, Option.isNone_iff_eq_none]
        at hsome
      rw [hsome]
      rfl
    | some b =>
      -- What the port starts with is overridden by the value of the snapshot, if there is one.
      rw [hb, Option.isSome_some, eq_comm] at hsome
      obtain ⟨a, ha⟩ := Option.isSome_iff_exists.1 hsome
      rw [ha]
      exact hn.or_value ha hb

/-- A node that conforms is what its snapshot is restored to. -/
theorem ofNode_of_restored {m : Node} (hn : n.Conforms d free)
    (hm : m.Restored d (.ofNode n)) : NodeState.ofNode m = .ofNode n := by
  have hinputs : (NodeState.ofNode m).inputs = (NodeState.ofNode n).inputs :=
    values_of_restored hn hm .input
  have houtputs : (NodeState.ofNode m).outputs = (NodeState.ofNode n).outputs :=
    values_of_restored hn hm .output
  have hid : m.id = n.id := hm.id
  have hposition : m.position = n.position := hm.position
  have hdata : m.data = n.data := hm.data
  have hkind : m.kind = n.kind := hm.kind.trans hn.kind.symm
  simp only [NodeState.ofNode] at hinputs houtputs ⊢
  rw [hid, hkind, hposition, hinputs, houtputs, hdata]

/-! ### Nodes that hold the same -/

/-- The node `m` is what `n` was, but for the types of its ports: it has the same id, kind, position
and data, and the same ports, which take wires if those of `n` did. Ordinary ports have the same
values. -/
structure Recovered (n m : Node) : Prop where
  id : m.id = n.id
  kind : m.kind = n.kind
  position : m.position = n.position
  data : m.data = n.data
  hasPort : ∀ name side, (m.port? name side).map (·.hasPort) = (n.port? name side).map (·.hasPort)
  value : ∀ name (side : Side), name ≠ side.controlName →
    (m.port? name side).bind (·.value) = (n.port? name side).bind (·.value)

/-- Nodes of one kind that still are as declared have the same ports. -/
theorem Conforms.hasPort_eq {m : Node} {free' : Bool} (hn : n.Conforms d free)
    (hm : m.Conforms d free') (name : String) (side : Side) :
    (m.port? name side).map (·.hasPort) = (n.port? name side).map (·.hasPort) := by
  have hnsome := hn.isSome name side
  have hmsome := hm.isSome name side
  cases ha : d.start name side with
  | none =>
    rw [ha, Option.isSome_none, Option.isSome_eq_false_iff, Option.isNone_iff_eq_none]
      at hnsome hmsome
    rw [hnsome, hmsome]
  | some a =>
    rw [ha, Option.isSome_some, Option.isSome_iff_exists] at hnsome hmsome
    obtain ⟨b, hb⟩ := hnsome
    obtain ⟨c, hc⟩ := hmsome
    rw [hb, hc, Option.map_some, Option.map_some, (hn.port name side a b ha hb).hasPort,
      (hm.port name side a c ha hc).hasPort]

/-- Nodes that still are as declared hold the same if their states are the same. -/
theorem recovered_of_ofNode_eq {m : Node} {free' : Bool} (hn : n.Conforms d free)
    (hm : m.Conforms d free') (h : NodeState.ofNode m = .ofNode n) : n.Recovered m where
  id := congrArg NodeState.id h
  kind := congrArg NodeState.kind h
  position := congrArg NodeState.position h
  data := congrArg NodeState.data h
  hasPort := hn.hasPort_eq hm
  value := fun name side hname => by
    have hvalues : ((NodeState.ofNode m).values side).find? name =
        ((NodeState.ofNode n).values side).find? name := by rw [h]
    rwa [values_ofNode, values_ofNode, Table.find?_filterMap, Table.find?_filterMap,
      ← m.port?_of_ne hname, ← n.port?_of_ne hname] at hvalues

end Node

end Patchbay
