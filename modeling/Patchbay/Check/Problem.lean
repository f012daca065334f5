import Patchbay.Check.Cycle
import Patchbay.Snapshot.Basic

/-! # Problems of graphs and snapshots

The operations on a patch keep its wiring in order, but hooks may change the types of ports, and
snapshots may hold anything. `Graph.problems` and `Snapshot.problems` report all that is wrong
instead of stopping at the first fault: kinds, then wire by wire, then inputs with several wires,
then cycles.
-/

namespace Patchbay

/-- Something that is wrong with a graph or a snapshot. Wires are given by their labels. -/
inductive Problem where
  | unknownNode (wire node : String)
  | unknownPort (wire node port : String)
  | selfLoop (wire node : String)
  | fanInExceeded (node port : String) (count : Nat)
  | incompatibleTypes (wire sourceType targetType : String)
  | unknownKind (node kind : String)
  | dataCycle (nodes : List String)
  deriving Repr, DecidableEq

namespace Problem

/-- The wording of a problem. -/
def message : Problem → String
  | unknownNode wire node => "Connection '" ++ wire ++ "' references unknown node '" ++ node ++ "'"
  | unknownPort wire node port =>
    "Connection '" ++ wire ++ "' references unknown port '" ++ port ++ "' on node '" ++ node ++ "'"
  | selfLoop wire node => "Connection '" ++ wire ++ "' loops on node '" ++ node ++ "'"
  | fanInExceeded node port count =>
    "Input '" ++ port ++ "' on node '" ++ node ++ "' has " ++ toString count ++
      " incoming connections"
  | incompatibleTypes wire s t =>
    "Connection '" ++ wire ++ "' connects incompatible types: " ++ s ++ " -> " ++ t
  | unknownKind node kind => "Unknown node type '" ++ kind ++ "' for node '" ++ node ++ "'"
  | dataCycle nodes => "Data cycle through nodes: " ++ ", ".intercalate nodes

end Problem

/-- What wires are checked against: the ids of the nodes and the types of their ports. -/
structure Surroundings where
  ids : List String
  portType? : String → String → Side → Option PortType
  conversions : Conversions

namespace Surroundings

/-- The ends of a wire that are unknown, the source first. -/
def unknownEnds (s : Surroundings) (label : String) (w : Wire) : List Problem :=
  [w.source, w.target].filterMap fun n =>
    if s.ids.contains n then none else some (.unknownNode label n)

/-- What is wrong with the ports of a wire between known nodes. -/
def portProblems (s : Surroundings) (label : String) (w : Wire) : List Problem :=
  match s.portType? w.source w.sourcePort .output, s.portType? w.target w.targetPort .input with
  | some a, some b =>
    if s.conversions.canConnect a b then [] else [.incompatibleTypes label a.id b.id]
  | none, some _ => [.unknownPort label w.source w.sourcePort]
  | some _, none => [.unknownPort label w.target w.targetPort]
  | none, none =>
    [.unknownPort label w.source w.sourcePort, .unknownPort label w.target w.targetPort]

/-- What is wrong with one wire. -/
def wireProblems (s : Surroundings) (label : String) (w : Wire) : List Problem :=
  let ends := s.unknownEnds label w
  (if w.source = w.target then [.selfLoop label w.source] else []) ++ ends ++
    -- Ports are only looked up where both nodes are known.
    if ends.isEmpty then s.portProblems label w else []

end Surroundings

/-- The inputs that more than one wire leads into, in ascending order. -/
def fanIn (ws : List Wire) : List Problem :=
  (Table.distinct (ws.map (·.target))).flatMap fun node =>
    (Table.distinct ((ws.filter (·.target = node)).map (·.targetPort))).filterMap fun port =>
      let count := ws.countP (·.endsAt node port .input)
      if 1 < count then some (.fanInExceeded node port count) else none

namespace Surroundings

/-- What is wrong with the wires of a list. -/
def problems (s : Surroundings) (ws : List (String × Wire)) : List Problem :=
  let wires := ws.map (·.2)
  let unsettled := unsettledNodes s.ids wires
  ws.flatMap (fun e => s.wireProblems e.1 e.2) ++ fanIn wires ++
    if unsettled.isEmpty then [] else [.dataCycle unsettled]

end Surroundings

/-- The nodes of undeclared kinds, given by id and kind. -/
def unknownKinds (g : Graph) (ns : List (String × String)) : List Problem :=
  ns.filterMap fun n => if g.kinds.contains n.2 then none else some (.unknownKind n.1 n.2)

/-- All that is wrong with a graph. -/
def Graph.problems (g : Graph) : List Problem :=
  unknownKinds g (g.nodes.map fun n => (n.id, n.kind)) ++
    Surroundings.problems
      { ids := g.ids
        portType? := fun node port side => (g.port? node port side).map (·.type)
        conversions := g.conversions }
      (g.wires.entries.map fun e => (WireId.label e.1, e.2))

namespace Snapshot

/-- The declaration of a node of a snapshot. Of several entries under one id the last one of a
declared kind counts. -/
def declaration? (s : Snapshot) (g : Graph) (node : String) : Option Declaration :=
  (s.nodes.filterMap fun n => if n.id = node then g.kinds.find? n.kind else none).getLast?

/-- All that is wrong with a snapshot, if it is restored where the kinds are those of a graph. Ports
that hooks would add are unknown here. -/
def problems (s : Snapshot) (g : Graph) : List Problem :=
  unknownKinds g (s.nodes.map fun n => (n.id, n.kind)) ++
    Surroundings.problems
      { ids := s.nodes.map (·.id)
        portType? := fun node port side => do (← (← s.declaration? g node).port? port side).type
        conversions := g.conversions }
      (s.wires.zipIdx.map fun e => ("#" ++ toString e.2, e.1))

end Snapshot

end Patchbay
