import Patchbay.Patch.Basic

/-! # Wiring a patch

Making and removing wires, and removing nodes with their wires. The hooks of both ends are told of
every such change, the source first and the target of what the source has left of the event; the
change comes about unless the event is cancelled in the end. What each operation does in which order
is part of its meaning, since hooks may change ports on the way:

* `connect` checks the wire, frees the target port, checks the types again, tells both ends, and
  makes the wire;
* `detach` takes the wire away, tells both ends, and puts it back if one of them refuses;
* `remove` detaches all wires of a node and drops those that hooks have kept.
-/

namespace Patchbay.Patch

/-- Tells the hook of a node of an event, if there is such a hook. -/
def tell (p : Patch) (id : String) (e : WireEvent) : WireEvent × Patch :=
  match p.node? id with
  | none => (e, p)
  | some node =>
    match (p.behaviour node.kind).onUpdate with
    | none => (e, p)
    | some hook =>
      -- Whatever the hook wants is done to its own node and to the event only.
      let (e', edits) := hook e node (p.toGraph.without id)
      (e', (p.note (.told id e p.toGraph)).withGraph (p.toGraph.revise id fun _ => node.edit edits))

/-- Tells both ends of a change to a wire, the source first; the answer says whether the event is
cancelled in the end. -/
def announce (p : Patch) (c : Change) : Bool × Patch :=
  let e := WireEvent.ofChange c
  let (e', p) := p.tell e.wire.source e
  -- The target hears of the event as the source has left it: cancelled already, or rewritten.
  let (e', p) := p.tell e.wire.target e'
  (e'.cancelled, p)

/-- Takes a wire away, unless its ends refuse; then it is there again under its number. The answer
says whether it was kept. -/
def detach (p : Patch) (id : WireId) (w : Wire) : Bool × Patch :=
  let (kept, p) := (p.withGraph { p.toGraph with wires := p.wires.erase id }).announce
    (.removed id w)
  if kept then (true, p.withGraph { p.toGraph with wires := p.wires.insert id w }) else (false, p)

/-- Detaches the wire at an input port, if there is one. The answer says whether it was kept. -/
def freeInput (p : Patch) (node port : String) : Bool × Patch :=
  match p.wireAt? node port .input with
  | some (id, w) => p.detach id w
  | none => (false, p)

/-- Adds a wire under the next number. -/
def addWire (p : Patch) (w : Wire) : Patch :=
  p.withGraph { p.toGraph with
    wires := p.wires.insert p.nextWire w
    nextWire := p.nextWire + 1 }

/-- Makes a wire, in place of the one that may lead into its target port. The answer is its number,
or none if it was not made. -/
def connect (p : Patch) (w : Wire) : Option WireId × Patch :=
  if p.admits w then
    let (kept, p) := p.freeInput w.target w.targetPort
    if kept then (none, p)
    else
      -- The hooks that were told of the old wire may have changed the types of the ports.
      match p.typesOf? w with
      | none => (none, p)
      | some (s, t) =>
        let (cancelled, p) := p.announce (.created w s.id t.id)
        if cancelled then (none, p) else (some p.nextWire, p.addWire w)
  else (none, p)

/-- Removes the first wire at a port, unless one of its ends refuses. The answer is the wire that
was found. -/
def disconnect (p : Patch) (node port : String) (side : Side) : Option Wire × Patch :=
  match p.wireAt? node port side with
  | none => (none, p)
  | some (id, w) => (some w, (p.detach id w).2)

/-- Detaches the wires of a list that are still there, one after the other. -/
def detachAll (p : Patch) (ids : List WireId) : Patch :=
  ids.foldl (fun p id =>
    match p.wires.find? id with
    -- The wire as it is now, not as it was when the list was made.
    | some w => (p.detach id w).2
    | none => p) p

/-- Detaches the wires at the ports of one side of a node, port by port. -/
def detachPorts (p : Patch) (node : String) (side : Side) (ports : List String) : Patch :=
  ports.foldl (fun p port => p.detachAll ((p.wiresAt node port side).map (·.1))) p

/-- Drops all wires that touch a node, without asking. -/
def dropWires (p : Patch) (node : String) : Patch :=
  let left := p.wiresWith (·.touches node)
  if left.isEmpty then p
  else
    (p.note (.droppedWithNode left.length node)).withGraph
      { p.toGraph with wires := left.foldl (fun ws e => ws.erase e.1) p.wires }

/-- Removes a node with all its wires. Both ends of each wire are told, but cannot keep it. The
answer is the node as it was in the end. -/
def remove (p : Patch) (id : String) : Option Node × Patch :=
  match p.node? id with
  | none => (none, p)
  | some node =>
    -- Ports that hooks add on the way are not in these lists; their wires are dropped in the end.
    let p := p.detachPorts id .input (node.portNames .input)
    let p := p.detachPorts id .output (node.portNames .output)
    let p := p.dropWires id
    (p.node? id, p.withGraph (p.toGraph.without id))

end Patchbay.Patch
