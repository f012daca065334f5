import Patchbay.Behaviour

/-! # Expressions of recipes

A recipe describes a kind by data instead of functions. Its expressions give values while a node is
calculated; they read the inputs, the node, and the context of the run.
-/

namespace Patchbay.Recipe

/-- A value that depends on what a calculation sees. -/
inductive Expression where
  | const (v : Value)
  | value (port : String)
  | number (port : String)
  | text (port : String)
  | boolean (port : String)
  /-- Whether there is an input. -/
  | has (port : String)
  /-- All inputs, as an object. -/
  | inputs
  /-- The index of the innermost loop. -/
  | index
  /-- The sum of two numbers; what is no number counts as zero. -/
  | add (a b : Expression)
  /-- Source, port and target of a connected control output, or null. -/
  | flow (port : String)
  | ownId
  | ownKind
  | ownData
  /-- The number of nodes of the graph. -/
  | nodeCount
  /-- The word under a key of the context, or null. -/
  | word (key : String)
  deriving Inhabited

namespace Expression

/-- The number of a value, zero if it has none. -/
def numberOf : Value → Float
  | .number n => n.toFloat
  | _ => 0

/-- The value of an expression, while the innermost loop is at an index. -/
def eval (e : Evaluation) (index : Nat) : Expression → Script Value
  | const v => .done v
  | value port => .done (e.value port)
  | number port => .done (.ofFloat (e.number port))
  | text port => .done (.string (e.text port))
  | boolean port => .done (.bool (e.boolean port))
  | has port => .done (.bool (e.inputs.contains port))
  | inputs => .done (.ofTable e.inputs)
  | .index => .done (.ofNat index)
  | add a b => do
    let x ← a.eval e index
    let y ← b.eval e index
    pure (.ofFloat (numberOf x + numberOf y))
  | flow port =>
    match e.flows.find? port with
    | some target => .done (.array [.string e.node.id, .string port, .string target])
    | none => .done .null
  | ownId => .done (.string e.node.id)
  | ownKind => .done (.string e.node.kind)
  | ownData => .done e.node.data
  | nodeCount => .done (.ofNat e.graph.nodes.length)
  | word key => .consult key fun entry => .done (((entry.bind Entry.word?).map .ofNat).getD .null)

end Expression

end Patchbay.Recipe
