import Patchbay.Behaviour

/-! # Patches

A patch is a graph whose kinds have behaviour. Beside the graph it keeps a journal: which hooks were
told of which event, and what went wrong without being an error. The journal is never read by an
operation.

This module has the operations that concern kinds and single nodes; those that concern wires are in
`Patchbay.Patch.Wiring`.
-/

namespace Patchbay

/-- Something noteworthy that an operation did. -/
inductive Notice where
  /-- The hook of a node was told of an event, while the graph was as given. -/
  | told (node : String) (event : WireEvent) (graph : Graph)
  /-- A kind was declared again. -/
  | replacedKind (kind : String)
  /-- Wires went with their node although hooks had refused. -/
  | droppedWithNode (count : Nat) (node : String)
  /-- A snapshot has a value for a port that its node has not. -/
  | missingPort (side : Side) (port node : String)
  /-- A snapshot has a wire that cannot be made. -/
  | droppedWire (wire : Wire)

/-- The warning that a notice amounts to, if it does. -/
def Notice.warning? : Notice → Option String
  | told _ _ _ => none
  | replacedKind kind => some ("Replacing registration of node type '" ++ kind ++ "'")
  | droppedWithNode count node =>
    some ("Dropping " ++ toString count ++ " vetoed connection(s) of removed node " ++ node)
  | missingPort .input port node =>
    some ("Snapshot input '" ++ port ++ "' does not exist on node " ++ node)
  | missingPort .output port node =>
    some ("Snapshot output '" ++ port ++ "' does not exist on node " ++ node)
  | droppedWire w => some ("Dropped connection " ++ w.describe ++ " while restoring")

/-- A graph whose kinds have behaviour. -/
structure Patch extends Graph where
  /-- What the nodes of each kind do. -/
  behaviour : String → Behaviour
  /-- What the operations did beside their results, the latest last. -/
  journal : List Notice

namespace Patch

/-- Nothing declared, nothing inserted. -/
def empty (supportsFlow : Bool) (conversions : Conversions := .base) : Patch where
  toGraph := .empty supportsFlow conversions
  behaviour := fun _ => {}
  journal := []

/-- Adds a notice to the journal. -/
def note (p : Patch) (n : Notice) : Patch := { p with journal := p.journal ++ [n] }

/-- The same patch with another graph. -/
def withGraph (p : Patch) (g : Graph) : Patch := { p with toGraph := g }

/-! ### Kinds -/

/-- Declares a kind; an earlier one with the same id is replaced. Without support for control, kinds
with control ports are refused. -/
def declare (p : Patch) (k : Kind) : Except Error Patch :=
  let d := k.declaration
  if d.usesFlow && !p.supportsFlow then .error (.flowNotSupported d.id)
  else
    -- Nodes of a replaced kind stay, and act as the new kind says from now on.
    let p := if p.kinds.contains d.id then p.note (.replacedKind d.id) else p
    .ok { p with
      toGraph := p.toGraph.declare d
      behaviour := fun id => if id = d.id then k.behaviour else p.behaviour id }

/-- Declares the kinds of a list, except those that need support for control which is missing; the
count says how many were declared. -/
def declareAll (p : Patch) (ks : List Kind) : Nat × Patch :=
  ks.foldl (fun (n, p) k =>
    match p.declare k with
    | .ok p => (n + 1, p)
    | .error _ => (n, p)) (0, p)

/-! ### Nodes -/

/-- Inserts a node of a declared kind; a node with the same id is replaced. The kind may change the
node before. -/
def insert (p : Patch) (kind id : String) (position : Position) : Except Error Patch :=
  match p.kinds.find? kind with
  | none => .error (.kindNotFound kind)
  | some d =>
    let node := Node.ofDeclaration d id position
    -- The hook sees the graph before the node is in it.
    let node :=
      match (p.behaviour kind).onCreate with
      | some hook => node.edit (hook node p.toGraph)
      | none => node
    .ok (p.withGraph (p.toGraph.put node))

/-- Makes a change to a node, if it is there. -/
def edit (p : Patch) (id : String) (e : NodeEdit) : Patch :=
  p.withGraph (p.toGraph.revise id fun n => NodeEdit.apply n e)

/-- Gives a port a value, if it is there. -/
def setValue (p : Patch) (node port : String) (side : Side) (v : Value) : Patch :=
  p.edit node (.setValue port side v)

/-- Removes all nodes and wires. The numbers of wires go on. -/
def clear (p : Patch) : Patch := p.withGraph { p.toGraph with nodes := [], wires := ∅ }

end Patch

end Patchbay
