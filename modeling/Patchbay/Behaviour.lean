import Patchbay.Graph
import Patchbay.Script

/-! # Behaviour of kinds

What the nodes of a kind do: when they are inserted, when a wire at them changes, and when a run
evaluates them. A hook that is told of a wire answers with the event as it leaves it: cancelled, not
cancelled any more, or about something else. Besides that it can only edit its own node, whose id,
kind and ports stay (`Node.id_edit`, `Node.kind_edit`, `Node.isSome_port?_edit`). While a hook looks
at the graph, its own node is not in it.
-/

namespace Patchbay

/-- What a node does when it is told of an event; the graph is shown without the node. The answer is
the event as it is from then on, and the changes to the node. -/
abbrev Hook := WireEvent → Node → Graph → WireEvent × List NodeEdit

/-- What a calculation sees: its node, the graph, the assembled inputs, and the node that control
goes on to from each of its connected control outputs. -/
structure Evaluation where
  node : Node
  graph : Graph
  inputs : PortValues
  flows : Table String String

namespace Evaluation

/-- An input, null if it is absent. -/
def value (e : Evaluation) (port : String) : Value := (e.inputs.find? port).getD .null

/-- An input as a number. Truth values count as one and zero, a string as the number it spells, all
else as zero. -/
def number (e : Evaluation) (port : String) : Float :=
  match e.inputs.find? port with
  | some (.number n) => n.toFloat
  | some (.bool b) => if b then 1 else 0
  | some (.string s) => (Decimal.floatOfText? s).getD 0
  | _ => 0

/-- An input as text. Null is empty, a string is itself, all else is its JSON text. -/
def text (e : Evaluation) (port : String) : String :=
  match e.inputs.find? port with
  | some (.string s) => s
  | none | some .null => ""
  | some v => v.toText

/-- An input as a truth value: a number other than zero and the string `true` are true. -/
def boolean (e : Evaluation) (port : String) : Bool :=
  match e.inputs.find? port with
  | some (.bool b) => b
  | some (.number n) => n.toFloat != 0
  | some (.string s) => s = "true"
  | _ => false

end Evaluation

/-- What the nodes of a kind do. -/
structure Behaviour where
  /-- The changes to a node that is about to be inserted into the graph. -/
  onCreate : Option (Node → Graph → List NodeEdit) := none
  /-- What a node does about the change of one of its wires. -/
  onUpdate : Option Hook := none
  /-- The outputs of the node. -/
  calculate : Evaluation → Script PortValues := fun _ => .done ∅

instance : Inhabited Behaviour := ⟨{}⟩

/-- A kind of node: its declaration and what its nodes do. -/
structure Kind where
  declaration : Declaration
  behaviour : Behaviour

end Patchbay
