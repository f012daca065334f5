import Patchbay.Run.Dependents
import Patchbay.Run.State

/-! # Running a graph

A run evaluates nodes in two ways that interlock:

* values are pulled: before a node is evaluated, so are all nodes without control ports whose values
  it needs and that have no outputs yet;
* control is pushed: a run follows the control wires from a start node, and a calculation may let it
  go on from one of its control outputs in between.

Nodes with control ports are never pulled; their outputs exist once control has reached them. The
outputs of a run are kept until the next run starts, and all of a run shares them. When a
calculation publishes outputs, what was calculated from the earlier ones is dropped.

Control wires may form endless loops, so every action has an allowance of steps.
-/

namespace Patchbay

/-- A graph to run, with the behaviour of its kinds. -/
structure Engine where
  graph : Graph
  behaviour : String → Behaviour
  /-- Why the host takes no events, if it does not. -/
  refusal : Option String

namespace Engine

/-- An engine over a patch that supports control. -/
def ofPatch (p : Patch) (refusal : Option String) : Except Error Engine :=
  if p.supportsFlow then .ok ⟨p.toGraph, p.behaviour, refusal⟩ else .error .flowDisabled

/-- Sends an event to the host. -/
def emit (e : Engine) (make : String → RunEvent) : RunM Unit := do
  let s ← RunM.read
  -- The event counts as sent even where the host does not take it.
  RunM.log (.event (make s.runId))
  match e.refusal with
  | some reason => RunM.log (.undelivered reason)
  | none => pure ()

/-! ### Publishing outputs and firing control outputs -/

/-- Overrides outputs of a node and drops the outputs of all that depends on it. -/
def publish (e : Engine) (node : String) (outputs : PortValues) : RunM Unit := do
  RunM.log (.published node outputs)
  RunM.change fun s =>
    let cache := s.cache.insert node (((s.cache.find? node).getD ∅).override outputs)
    { s with cache := (e.graph.dependents node).foldl (fun c n => c.erase n) cache }

/-- Lets control go on from an output of a node that is being evaluated, after outputs are
published. Where no control wire leads on, nothing happens at all. -/
def fire (e : Engine) (resume : String → RunM Unit) (node : String) (flows : Table String String)
    (port : String) (outputs : Option PortValues) : RunM Unit :=
  match flows.find? port with
  | none => pure ()
  | some target => do
    match outputs with
    | some o => e.publish node o
    | none => pure ()
    -- The host hears of the firing before anything is evaluated behind the port.
    e.emit fun run => .flowFired run node port target
    resume target

/-- Runs a script for a node. Control goes on by `resume`. -/
def interpret {α : Type} (e : Engine) (resume : String → RunM Unit) (node : String)
    (flows : Table String String) : Script α → RunM α
  | .done a => pure a
  | .fail err => RunM.fail err
  | .fire port outputs next => do
    let r ← RunM.attempt (e.fire resume node flows port outputs)
    e.interpret resume node flows (next r)
  | .consult key next => do
    let s ← RunM.read
    e.interpret resume node flows (next (s.context.find? key))
  | .store key entry next => do
    RunM.change fun s => { s with context := s.context.insert key entry }
    e.interpret resume node flows next
  | .print line next => do
    let s ← RunM.read
    if s.context.hasPrintLog then RunM.log (.printed line)
    e.interpret resume node flows next
  | .inform line next => do
    RunM.log (.informed line)
    e.interpret resume node flows next

/-! ### Evaluating a node -/

/-- The value that reaches a node over a wire: the output of the source, null if there is none,
converted if the ports have types. -/
def convert (e : Engine) (node : Node) (w : Wire) (raw : Value) : Value :=
  match e.graph.port? w.source w.sourcePort .output, node.inputs.find? w.targetPort with
  | some s, some t => e.graph.conversions.convert s.type t.type raw
  | _, _ => raw

/-- Takes the value for a node over a wire, after its source was pulled. -/
def receive (e : Engine) (pull : String → RunM Unit) (node : Node) (inputs : PortValues)
    (wire : WireId × Wire) : RunM PortValues := do
  let w := wire.2
  pull w.source
  -- Read after the pull, which may have evaluated the source and others with it.
  let s ← RunM.read
  let raw := (s.output? w.source w.sourcePort).getD .null
  RunM.log (.received node.id wire.1 raw s.cache)
  pure (inputs.insert w.targetPort (e.convert node w raw))

/-- The inputs of a node: what arrives over its wires, and the values of its other ports. -/
def assemble (e : Engine) (pull : String → RunM Unit) (node : Node) : RunM PortValues := do
  -- A wire into a port that the node has not got yields an input all the same.
  let received ← (e.graph.dataWires node.id).foldlM (e.receive pull node) ∅
  pure ((node.inputs.map Port.valueOrNull).override received)

/-- Where control goes on from the connected control outputs of a node. -/
def flows (e : Engine) (node : Node) : Table String String :=
  Table.ofList (node.outputs.entries.filterMap fun p =>
    if p.2.isFlow then (e.graph.flowTarget? node.id p.1).map (p.1, ·) else none)

/-- Calculates the outputs of a node and keeps them. -/
def evaluate (e : Engine) (pull resume : String → RunM Unit) (node : Node) :
    RunM PortValues := do
  let inputs ← e.assemble pull node
  let flows := e.flows node
  RunM.log (.calculated node.id inputs)
  let outputs ← e.interpret resume node.id flows
    ((e.behaviour node.kind).calculate { node, graph := e.graph, inputs, flows })
  -- The outputs replace what was published before; what depends on that is not dropped here.
  RunM.change fun s => { s with cache := s.cache.insert node.id outputs }
  e.emit fun run => .nodeEvaluated run node.id outputs
  pure outputs

/-- Makes sure that a node has outputs, if need be by `step`. -/
def pull (e : Engine) (step : String → RunM PortValues) (node : String) : RunM Unit := do
  let s ← RunM.read
  if s.cache.contains node then pure ()
  -- The order decides which error it is for a node with control ports that is being evaluated.
  else if e.graph.usesFlow node then RunM.fail (.notRun node)
  else if s.evaluating.contains node then RunM.fail (.dataCycle node)
  else discard (step node)

/-- Evaluates a node by `step`, then the node that control goes on to, and so on. -/
def walk (e : Engine) (step : String → RunM PortValues) : Nat → String → RunM Unit
  | 0, _ => RunM.exhaust
  | n + 1, node => do
    discard (step node)
    match e.graph.nextInFlow? node with
    | some next => e.walk step n next
    | none => pure ()

/-- Evaluates exactly one node, and before it what it needs. The allowance bounds both how deep
evaluations nest and how many nodes control passes in a row. -/
def runNode (e : Engine) : Nat → String → RunM PortValues
  | 0, _ => RunM.exhaust
  | n + 1, id =>
    match e.graph.node? id with
    | none => RunM.fail (.nodeNotFound id)
    | some node =>
      if e.graph.kinds.contains node.kind then
        RunM.within id (e.evaluate (e.pull (e.runNode n)) (e.walk (e.runNode n) n) node)
      else RunM.fail (.kindNotFound node.kind)

/-! ### Runs -/

/-- Goes on with the current run at a node. -/
def continueFrom (e : Engine) (allowance : Nat) (node : String) : RunM Unit :=
  e.walk (e.runNode allowance) allowance node

/-- Starts a new run at a node. -/
def runFrom (e : Engine) (allowance : Nat) (node : String) : RunM Unit := do
  RunM.change fun s => { s with cache := ∅, evaluating := [], runs := s.runs + 1 }
  e.emit fun run => .runStarted run node
  match ← RunM.attempt (e.continueFrom allowance node) with
  | .ok () => e.emit fun run => .runCompleted run
  | .error err =>
    e.emit fun run => .runFailed run err.message
    RunM.fail err

/-- Starts a new run at each node of a kind in the order of insertion, or only at the first one. The
first run that fails is the last one. -/
def runKind (e : Engine) (allowance : Nat) (kind : String) (multiple : Bool) : RunM Unit :=
  let starts := (e.graph.nodes.filter (·.kind = kind)).map (·.id)
  (if multiple then starts else starts.take 1).forM (e.runFrom allowance)

/-- Forgets all outputs. -/
def clearCache : RunM Unit := RunM.change fun s => { s with cache := ∅ }

/-- Replaces the context. -/
def setContext (c : Context) : RunM Unit := RunM.change fun s => { s with context := c }

end Engine

end Patchbay
