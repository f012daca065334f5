import Patchbay.Patch.Wiring

/-! # Snapshots

A snapshot holds what cannot be found out by inserting nodes and making wires again: ids, kinds,
positions, values and data of the nodes, and the list of wires. Kinds are not part of it, nor are
the types of ports. `Patch.restore` makes the nodes and wires of a snapshot.
-/

namespace Patchbay

/-- What a snapshot holds of a node. Ports without a value are left out. -/
structure NodeState where
  id : String
  kind : String
  position : Position
  inputs : PortValues
  outputs : PortValues
  data : Value

/-- The nodes and wires of a graph. -/
structure Snapshot where
  nodes : List NodeState
  wires : List Wire

namespace NodeState

/-- Equality of states, with numbers compared as such. -/
def same (a b : NodeState) : Bool :=
  a.id = b.id && a.kind = b.kind && a.position.same b.position &&
    Value.sameMembers a.inputs.entries b.inputs.entries &&
    Value.sameMembers a.outputs.entries b.outputs.entries && a.data.same b.data

/-- The state of a node. -/
def ofNode (n : Node) : NodeState where
  id := n.id
  kind := n.kind
  position := n.position
  inputs := n.inputs.filterMap (·.value)
  outputs := n.outputs.filterMap (·.value)
  data := n.data

end NodeState

/-- Equality of snapshots, with numbers compared as such. -/
def Snapshot.same (s t : Snapshot) : Bool :=
  s.nodes.length = t.nodes.length && (s.nodes.zip t.nodes).all (fun p => p.1.same p.2) &&
    s.wires = t.wires

/-- The snapshot of a graph. -/
def Graph.snapshot (g : Graph) : Snapshot where
  nodes := g.nodes.map .ofNode
  wires := g.wires.entries.map (·.2)

namespace Patch

/-- Gives the ports of one side of a node the values of a snapshot, as far as the ports are there.
-/
def restoreValues (p : Patch) (node : String) (side : Side) (values : PortValues) : Patch :=
  values.entries.foldl (fun p e =>
    if (p.port? node e.1 side).isSome then p.setValue node e.1 side e.2
    else p.note (.missingPort side e.1 node)) p

/-- Inserts a node as a snapshot has it. -/
def restoreNode (p : Patch) (s : NodeState) : Except Error Patch := do
  let p ← p.insert s.kind s.id s.position
  -- What the creation hook did to values and data is overwritten; the ports it added stay.
  let p := p.restoreValues s.id .input s.inputs
  let p := p.restoreValues s.id .output s.outputs
  .ok (p.edit s.id (.setData s.data))

/-- Makes a wire of a snapshot, if that is possible. -/
def restoreWire (p : Patch) (w : Wire) : Patch :=
  match p.connect w with
  | (some _, p) => p
  | (none, p) => p.note (.droppedWire w)

/-- Replaces nodes and wires by those of a snapshot. Nodes come back under their ids, then the wires
are made again in their order, with the hooks taking part; a wire that cannot be made is dropped. If
the kind of a node is not declared, nothing happens. -/
def restore (p : Patch) (s : Snapshot) : Except Error Patch := do
  match s.nodes.find? fun n => !p.kinds.contains n.kind with
  | some n => .error (.kindNotFound n.kind)
  | none =>
    -- All kinds are declared, so that no insertion fails from here on.
    let p ← s.nodes.foldlM restoreNode p.clear
    .ok (s.wires.foldl restoreWire p)

end Patch

end Patchbay
