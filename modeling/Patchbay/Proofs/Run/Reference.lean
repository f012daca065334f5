import Patchbay.Proofs.Run.Feeding
import Patchbay.Run.Engine

/-!
# Evaluation afresh

What the outputs of a node are, said without a run: `Engine.Afresh e held n out` holds if `out` is
what a recursive evaluation of `n` comes to that remembers nothing. It only takes the outputs of
nodes with control ports as they are held, since values alone do not make those nodes run.

A calculation takes part only if its outcome is settled by what it sees, that is by its node, the
graph and the assembled inputs: `Script.Yields` asks for one outcome, whatever the context answers,
and without control going on anywhere.

## Key results

- `Script.Yields.unique`, `Engine.Afresh.unique`: there is at most one outcome
- `Engine.find?_inputsFrom`: the inputs of an evaluation afresh, port by port
-/

namespace Patchbay

namespace Script

variable {α : Type}

/-- The script ends with this result, whatever it finds in the context, and fires nothing. -/
def Yields (out : α) : Script α → Prop
  | done a => a = out
  | fail _ => False
  | fire _ _ _ => False
  | consult _ next => ∀ entry, (next entry).Yields out
  | store _ _ next => next.Yields out
  | print _ next => next.Yields out
  | inform _ next => next.Yields out

theorem Yields.unique {script : Script α} {a b : α} (ha : script.Yields a) (hb : script.Yields b) :
    a = b := by
  induction script with
  | done c => exact ha.symm.trans hb
  | fail e => exact ha.elim
  | fire port outputs next _ => exact ha.elim
  | consult key next ih => exact ih none (ha none) (hb none)
  | store key entry next ih => exact ih ha hb
  | print line next ih => exact ih ha hb
  | inform line next ih => exact ih ha hb

end Script

namespace Engine

variable {e : Engine}

/-- A control output that is connected leads where its wire leads. -/
theorem flowTarget?_of_flows {node : Node} {port target : String}
    (h : (e.flows node).find? port = some target) :
    e.graph.flowTarget? node.id port = some target := by
  have hmem := Entries.mem_ofList (Table.mem_entries_iff.2 h)
  obtain ⟨p, _, hp⟩ := List.mem_filterMap.1 hmem
  split at hp
  · obtain ⟨next, hnext, heq⟩ := Option.map_eq_some_iff.1 hp
    obtain ⟨rfl, rfl⟩ := Prod.mk.inj heq
    exact hnext
  · cases hp

/-- What the calculation of a node sees, given the inputs. -/
def evaluation (e : Engine) (node : Node) (inputs : PortValues) : Evaluation where
  node := node
  graph := e.graph
  inputs := inputs
  flows := e.flows node

/-- The calculation of a node, given the inputs. -/
def script (e : Engine) (node : Node) (inputs : PortValues) : Script PortValues :=
  (e.behaviour node.kind).calculate (e.evaluation node inputs)

/-- The value of an input port, where all nodes have the given outputs: what its wire brings, null
if the source has no such output, and converted from the type of the source port to its own; without
a wire the value of the port itself. -/
def inputValue (e : Engine) (outputs : String → PortValues) (node : Node) (name : String)
    (port : Port) : Value :=
  match (e.graph.dataWires node.id).find? fun x => x.2.targetPort = name with
  | none => port.valueOrNull
  | some (_, w) =>
    match e.graph.port? w.source w.sourcePort .output with
    -- A wire of sound wiring has its ports.
    | none => .null
    | some source =>
      e.graph.conversions.convert source.type port.type
        (((outputs w.source).find? w.sourcePort).getD .null)

/-- The inputs of a node, where all nodes have the given outputs. -/
def inputsFrom (e : Engine) (outputs : String → PortValues) (node : Node) : PortValues :=
  ⟨node.inputs.entries.map fun p => (p.1, e.inputValue outputs node p.1 p.2),
    Entries.Ascending.map (fun p => e.inputValue outputs node p.1 p.2) node.inputs.ascending⟩

/-- The outputs of a node as a recursive evaluation finds them that remembers nothing. -/
inductive Afresh (e : Engine) (held : Table String PortValues) : String → PortValues → Prop where
  /-- The outputs of a node with control ports are those it has. -/
  | held {id : String} {out : PortValues} :
    e.graph.usesFlow id = true → held.find? id = some out → Afresh e held id out
  /-- The other nodes are calculated, after all their sources. -/
  | calculated {id : String} {node : Node} {out : PortValues} (outputs : String → PortValues) :
    e.graph.usesFlow id = false → e.graph.node? id = some node →
    (∀ x ∈ e.graph.dataWires id, Afresh e held x.2.source (outputs x.2.source)) →
    (e.script node (e.inputsFrom outputs node)).Yields out → Afresh e held id out

theorem find?_inputsFrom (outputs : String → PortValues) (node : Node) (name : String) :
    (e.inputsFrom outputs node).find? name =
      (node.inputs.find? name).map (e.inputValue outputs node name) := by
  simp only [Table.find?, inputsFrom]
  induction node.inputs.entries with
  | nil => rfl
  | cons p ps ih =>
    simp only [List.map_cons, Entries.find?]
    by_cases h : p.1 = name
    · simp [h]
    · simp [h, ih]

/-- The inputs of a node depend on the outputs of its sources alone. -/
theorem inputsFrom_congr {outputs outputs' : String → PortValues} {node : Node}
    (h : ∀ x ∈ e.graph.dataWires node.id, outputs x.2.source = outputs' x.2.source) :
    e.inputsFrom outputs node = e.inputsFrom outputs' node := by
  refine Table.ext_find? fun name => ?_
  rw [find?_inputsFrom, find?_inputsFrom]
  congr 1
  funext port
  unfold inputValue
  cases hw : (e.graph.dataWires node.id).find? fun x => x.2.targetPort = name with
  | none => rfl
  | some x => simp only [h x (List.mem_of_find?_eq_some hw)]

/-- The value that arrives at a node over a wire, where all nodes have the given outputs. -/
def brought (e : Engine) (outputs : String → PortValues) (node : Node) (w : Wire) : Value :=
  e.convert node w (((outputs w.source).find? w.sourcePort).getD .null)

/-- Inputs with what arrives over wires. -/
def received (e : Engine) (outputs : String → PortValues) (node : Node)
    (wires : List (WireId × Wire)) (inputs : PortValues) : PortValues :=
  wires.foldl (fun acc x => acc.insert x.2.targetPort (e.brought outputs node x.2)) inputs

/-- In sound wiring the inputs that a run assembles are those of an evaluation afresh: every wire
leads into a port of its own. -/
theorem override_received (hg : e.graph.Sound) {node : Node}
    (hn : e.graph.node? node.id = some node) (outputs : String → PortValues) :
    (node.inputs.map Port.valueOrNull).override
        (e.received outputs node (e.graph.dataWires node.id) ∅) = e.inputsFrom outputs node := by
  refine Table.ext_find? fun name => ?_
  have hwires := hg.pairwise_dataWires node.id
  rw [Table.find?_override, received,
    Table.find?_insertAll (fun x : WireId × Wire => x.2.targetPort)
      (fun x => e.brought outputs node x.2) _ hwires,
    Table.find?_map, find?_inputsFrom]
  cases hw : (e.graph.dataWires node.id).find? fun x => x.2.targetPort = name with
  | none =>
    simp only [Option.map_none, Table.find?_empty, Option.or_none, Option.none_or]
    congr 1
    funext port
    simp only [inputValue, hw]
  | some x =>
    obtain ⟨i, w⟩ := x
    have hmem := List.mem_of_find?_eq_some hw
    have hname : w.targetPort = name := by simpa using List.find?_some hw
    obtain ⟨port, hport⟩ := hg.input_of_dataWire hn hmem
    obtain ⟨source, hsource⟩ :=
      Option.isSome_iff_exists.1 (hg.source i w (Graph.mem_dataWires.1 hmem).1)
    -- The port has a wire, so that its own value does not count.
    subst hname
    simp only [Option.map_some, Option.some_or, brought, convert, hsource, hport, inputValue, hw]

/-- An evaluation afresh has one result at most. -/
theorem Afresh.unique {held : Table String PortValues} {id : String} {a b : PortValues}
    (ha : e.Afresh held id a) (hb : e.Afresh held id b) : a = b := by
  induction ha generalizing b with
  | held hflow hfind =>
    cases hb with
    | held _ hfind' => exact Option.some.inj (hfind.symm.trans hfind')
    | calculated _ hflow' => exact absurd (hflow'.symm.trans hflow) Bool.false_ne_true
  | @calculated id node a outputs hflow hnode _ hyields ih =>
    cases hb with
    | held hflow' => exact absurd (hflow.symm.trans hflow') Bool.false_ne_true
    | @calculated _ node' b outputs' _ hnode' hsources hyields' =>
      obtain rfl : node = node' := Option.some.inj (hnode.symm.trans hnode')
      have hid : node.id = id := Graph.id_of_node? hnode
      have hin : e.inputsFrom outputs node = e.inputsFrom outputs' node :=
        inputsFrom_congr fun x hx => ih x (hid ▸ hx) (hsources x (hid ▸ hx))
      exact hyields.unique (hin ▸ hyields')

end Engine

end Patchbay
