import Patchbay.Behaviour

/-! # Hooks of recipes

A hook of a recipe is a list of actions on the hooked node; for changes of wires, a list of rules
that say when to act. An action sees what the actions before it have done.
-/

namespace Patchbay.Recipe

/-- Something that a hook does to its node or to the event. -/
inductive Action where
  | cancel
  | setData (v : Value)
  /-- Stores the number of nodes of the graph that the hook sees. -/
  | countNodes
  | setValue (side : Side) (port : String) (v : Value)
  | setType (side : Side) (port : String) (t : PortType)
  /-- Gives a port the type of the source port of the wire. -/
  | adopt (side : Side) (port : String)
  | addPort (side : Side) (name : String) (port : Port)
  /-- Stores an entry about the event. -/
  | record

/-- Which end of the wire a node is. -/
inductive Role where
  | source
  | target
  deriving Repr, DecidableEq

/-- Actions, and the conditions under which they are taken. -/
structure Rule where
  /-- Only for wires that are made (true) or removed (false). -/
  created : Option Bool
  role : Option Role
  /-- Only if the port of the wire at this node has the name. -/
  port : Option String
  cancelled : Option Bool
  actions : List Action

/-- What is stored about an event. -/
def entry (event : WireEvent) (node : Node) (graph : Graph) : Value :=
  let w := event.wire
  let details : List (String × Value) :=
    match event.change with
    | .created _ s t =>
      [("kind", .string "new"), ("sourceType", .string s), ("targetType", .string t)]
    | .removed id _ => [("kind", .string "remove"), ("id", .ofNat id)]
  .ofMembers (details ++
    [("source", .string w.source), ("sourcePort", .string w.sourcePort),
      ("target", .string w.target), ("targetPort", .string w.targetPort),
      ("cancelled", .bool event.cancelled),
      ("selfInTree", .bool (graph.node? node.id).isSome),
      ("connections", .ofNat graph.wires.size)])

/-- What an action leaves of an event. -/
def Action.event (event : WireEvent) : Action → WireEvent
  | cancel => { event with cancelled := true }
  | _ => event

/-- The changes that an action makes to its node. Without an event, what concerns one does nothing.
-/
def Action.edits (event : Option WireEvent) (node : Node) (graph : Graph) :
    Action → List NodeEdit
  | cancel => []
  | setData v => [.setData v]
  | countNodes => [.setData (.ofNat graph.nodes.length)]
  | setValue side port v => [.setValue port side v]
  | setType side port t => [.setType port side t]
  | addPort side name port => [.addPort name side port]
  | adopt side port =>
    match event with
    | some event =>
      match graph.port? event.wire.source event.wire.sourcePort .output with
      | some source => [.setType port side source.type]
      | none => []
    | none => []
  | record =>
    match event with
    | some event =>
      let items :=
        match node.data with
        | .array items => items
        | _ => []
      [.setData (.array (items ++ [entry event node graph]))]
    | none => []

/-- The changes that actions make to a node about to be inserted. -/
def createEdits (actions : List Action) (node : Node) (graph : Graph) : List NodeEdit :=
  (actions.foldl (fun (node, done) a =>
    let edits := a.edits none node graph
    (node.edit edits, done ++ edits)) (node, [])).2

/-- Whether a rule applies to a node and an event. -/
def Rule.applies (r : Rule) (event : WireEvent) (node : Node) : Bool :=
  let created :=
    match event.change with
    | .created _ _ _ => true
    | .removed _ _ => false
  let role := if event.targets node.id then Role.target else .source
  let port :=
    match role with
    | .target => event.wire.targetPort
    | .source => event.wire.sourcePort
  r.created.all (· = created) && r.role.all (· = role) && r.port.all (· = port) &&
    r.cancelled.all (· = event.cancelled)

/-- The event and the node as the hook has made them so far, and the changes it took. -/
structure HookState where
  event : WireEvent
  node : Node
  edits : List NodeEdit

/-- Takes an action. -/
def HookState.act (graph : Graph) (s : HookState) (a : Action) : HookState :=
  let edits := a.edits (some s.event) s.node graph
  { event := a.event s.event, node := s.node.edit edits, edits := s.edits ++ edits }

/-- Takes the actions of a rule, if it applies. -/
def HookState.follow (graph : Graph) (s : HookState) (r : Rule) : HookState :=
  if r.applies s.event s.node then r.actions.foldl (HookState.act graph) s else s

/-- The hook that follows the rules of a list, tried in order. -/
def updateHook (rules : List Rule) : Hook := fun event node graph =>
  let s := rules.foldl (HookState.follow graph) ⟨event, node, []⟩
  (s.event, s.edits)

end Patchbay.Recipe
