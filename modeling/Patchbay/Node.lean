import Patchbay.Wire

/-! # Nodes

A `Declaration` says which ports the nodes of a kind have; `Node.ofDeclaration` makes such a node.
A node is edited only by `NodeEdit`s. None of them changes the id or the kind of the node
(`id_edit`, `kind_edit`) or takes a port away (`isSome_port?_edit`).
-/

namespace Patchbay

/-- Values by port name. -/
abbrev PortValues := Table String Value

/-- Where an editor shows a node. -/
structure Position where
  x : Float
  y : Float
  deriving Repr, DecidableEq

namespace Position

def origin : Position := ⟨0, 0⟩

/-- Equality of places as floating-point numbers. -/
def same (p q : Position) : Bool := p.x == q.x && p.y == q.y

end Position

/-- What the nodes of one kind have in common, apart from what they do. -/
structure Declaration where
  id : String
  /-- The group that an editor lists the kind under. -/
  category : String
  title : String
  description : String
  flow : FlowMode
  /-- The input ports of a new node, in the order in which they were declared. -/
  inputs : List (String × Port)
  outputs : List (String × Port)

namespace Declaration

/-- A declaration without ports; its title is its id. -/
def plain (id category : String) : Declaration where
  id := id
  category := category
  title := id
  description := ""
  flow := .none
  inputs := []
  outputs := []

/-- Adds a port at the end of a list; a port of the same name is replaced where it stands. -/
def addPort (name : String) (port : Port) : List (String × Port) → List (String × Port)
  | [] => [(name, port)]
  | e :: es => if e.1 = name then (name, port) :: es else e :: addPort name port es

/-- The ports of a list, added one after the other. -/
def ports (ps : List (String × Port)) : List (String × Port) :=
  ps.foldl (fun acc p => addPort p.1 p.2 acc) []

/-- Whether the nodes of the kind have a control port. -/
def usesFlow (d : Declaration) : Bool := d.flow.usesFlow

/-- The port that a new node of the kind has under a name. -/
def port? (d : Declaration) (name : String) : Side → Option Port
  | .input => if name = flowInName && d.flow.hasEntry then some (.flow "")
    else Entries.find? name d.inputs
  | .output => if name = flowOutName && d.flow.hasExit then some (.flow "")
    else Entries.find? name d.outputs

end Declaration

/-- A node of a patch. -/
structure Node where
  id : String
  /-- The id of the declaration that the node was made from. -/
  kind : String
  position : Position
  inputs : Table String Port
  outputs : Table String Port
  flowIn : Option Port
  flowOut : Option Port
  /-- Free for use by the hooks and the calculation of the kind. -/
  data : Value

namespace Node

/-- A control port of a new node. -/
def controlPort : Port := { Port.flow "" with showTitle := false }

/-- A new node of a kind. -/
def ofDeclaration (d : Declaration) (id : String) (position : Position) : Node where
  id := id
  kind := d.id
  position := position
  inputs := Table.ofList d.inputs
  outputs := Table.ofList d.outputs
  flowIn := if d.flow.hasEntry then some controlPort else none
  flowOut := if d.flow.hasExit then some controlPort else none
  data := .null

/-- The ordinary ports of a side. -/
def ports (n : Node) : Side → Table String Port
  | .input => n.inputs
  | .output => n.outputs

/-- The port under a name. The names of the control ports always mean those. -/
def port? (n : Node) (name : String) : Side → Option Port
  | .input => if name = flowInName then n.flowIn else n.inputs.find? name
  | .output => if name = flowOutName then n.flowOut else n.outputs.find? name

/-- Changes the port under a name, if there is one. -/
def revisePort (n : Node) (name : String) (side : Side) (f : Port → Port) : Node :=
  match side with
  | .input =>
    if name = flowInName then { n with flowIn := n.flowIn.map f }
    else { n with inputs := n.inputs.modify name f }
  | .output =>
    if name = flowOutName then { n with flowOut := n.flowOut.map f }
    else { n with outputs := n.outputs.modify name f }

/-- Adds an ordinary port; one of the same name is replaced. -/
def addPort (n : Node) (name : String) (side : Side) (port : Port) : Node :=
  match side with
  | .input => { n with inputs := n.inputs.insert name port }
  | .output => { n with outputs := n.outputs.insert name port }

/-- The names of all ports of a side: the ordinary ones, then the control port. -/
def portNames (n : Node) : Side → List String
  | .input => n.inputs.keys ++ if n.flowIn.isSome then [flowInName] else []
  | .output => n.outputs.keys ++ if n.flowOut.isSome then [flowOutName] else []

end Node

/-- A change to a node. -/
inductive NodeEdit where
  | move (position : Position)
  | setData (data : Value)
  | revisePort (name : String) (side : Side) (f : Port → Port)
  | addPort (name : String) (side : Side) (port : Port)

namespace NodeEdit

def apply (n : Node) : NodeEdit → Node
  | move p => { n with position := p }
  | setData v => { n with data := v }
  | revisePort name side f => n.revisePort name side f
  | addPort name side port => n.addPort name side port

/-- Gives the port a value. -/
def setValue (name : String) (side : Side) (v : Value) : NodeEdit :=
  revisePort name side fun p => { p with value := some v }

/-- Gives the port a type. -/
def setType (name : String) (side : Side) (t : PortType) : NodeEdit :=
  revisePort name side fun p => { p with type := t }

end NodeEdit

namespace Node

/-- The changes of a list, made one after the other. -/
def edit (n : Node) (es : List NodeEdit) : Node := es.foldl NodeEdit.apply n

/-- A revised port is seen under its name alone. -/
theorem port?_revisePort (n : Node) (name j : String) (side t : Side) (f : Port → Port) :
    (n.revisePort name side f).port? j t =
      if j = name ∧ t = side then (n.port? j t).map f else n.port? j t := by
  cases side <;> cases t <;> grind [revisePort, port?, Table.find?_modify]

theorem isSome_port?_addPort (n : Node) (name j : String) (side t : Side) (port : Port)
    (h : (n.port? j t).isSome) : ((n.addPort name side port).port? j t).isSome := by
  cases side <;> cases t <;> grind [addPort, port?, Table.find?_insert]

end Node

namespace NodeEdit

theorem id_apply (n : Node) (e : NodeEdit) : (apply n e).id = n.id := by
  cases e with
  | move | setData => rfl
  | revisePort name side f => cases side <;> simp only [apply, Node.revisePort] <;> split <;> rfl
  | addPort name side port => cases side <;> rfl

theorem kind_apply (n : Node) (e : NodeEdit) : (apply n e).kind = n.kind := by
  cases e with
  | move | setData => rfl
  | revisePort name side f => cases side <;> simp only [apply, Node.revisePort] <;> split <;> rfl
  | addPort name side port => cases side <;> rfl

/-- A change takes no port away. -/
theorem isSome_port?_apply {n : Node} {name : String} {side : Side} (e : NodeEdit)
    (h : (n.port? name side).isSome) : ((apply n e).port? name side).isSome := by
  cases e with
  | move | setData => exact h
  | revisePort other t f =>
    rw [apply, Node.port?_revisePort]
    split
    next => rwa [Option.isSome_map]
    next => exact h
  | addPort other t port => exact n.isSome_port?_addPort other name t side port h

end NodeEdit

namespace Node

theorem id_edit (n : Node) (es : List NodeEdit) : (n.edit es).id = n.id := by
  induction es generalizing n with
  | nil => rfl
  | cons e es ih => exact (ih _).trans (NodeEdit.id_apply n e)

theorem kind_edit (n : Node) (es : List NodeEdit) : (n.edit es).kind = n.kind := by
  induction es generalizing n with
  | nil => rfl
  | cons e es ih => exact (ih _).trans (NodeEdit.kind_apply n e)

theorem isSome_port?_edit {n : Node} {name : String} {side : Side} (es : List NodeEdit)
    (h : (n.port? name side).isSome) : ((n.edit es).port? name side).isSome := by
  induction es generalizing n with
  | nil => exact h
  | cons e es ih => exact ih (NodeEdit.isSome_port?_apply e h)

end Node

end Patchbay
