import Patchbay.PortType

/-! # Ports

A port is one typed input or output of a node. Every node has its own ports, so their values and
types change independently of other nodes of the same kind.
-/

namespace Patchbay

/-- The two sides of a node. -/
inductive Side where
  | input
  | output
  deriving Repr, DecidableEq

/-- One typed input or output of a node. -/
structure Port where
  type : PortType
  title : String
  /-- Whether a wire may end here. -/
  hasPort : Bool
  /-- Whether an editor shows the title. -/
  showTitle : Bool
  /-- The value that is used while no wire feeds the port. -/
  value : Option Value
  /-- Whether an editor hides the value while a wire feeds the port. -/
  hideWhenConnected : Bool

namespace Port

/-- A port that takes wires and has no value. -/
def plain (title : String) (type : PortType) : Port :=
  { type, title, hasPort := true, showTitle := true, value := none, hideWhenConnected := true }

/-- A number port; it starts with the value zero. -/
def number (title : String) : Port := { plain title .number with value := some (.ofNat 0) }

def text (title : String) : Port := plain title .string

def boolean (title : String) : Port := plain title .boolean

def any (title : String) : Port := plain title .any

/-- A port that carries control. -/
def flow (title : String) : Port := plain title .flow

/-- Whether the port carries control. -/
def isFlow (p : Port) : Bool := p.type.isFlow

/-- The value of the port, or null if it has none. -/
def valueOrNull (p : Port) : Value := p.value.getD .null

end Port

/-- The name of the input port that control enters a node by. -/
def flowInName : String := "__flow_in"

/-- The name of the output port that control leaves a node by. -/
def flowOutName : String := "__flow_out"

/-- Which of the two control ports the nodes of a kind have. -/
inductive FlowMode where
  | none
  | entry
  | exit
  | both
  deriving Repr, DecidableEq

namespace FlowMode

def hasEntry : FlowMode → Bool
  | entry | both => true
  | _ => false

def hasExit : FlowMode → Bool
  | exit | both => true
  | _ => false

/-- Whether there is a control port at all. -/
def usesFlow (m : FlowMode) : Bool := m ≠ none

/-- The word a mode is written as. -/
def word : FlowMode → String
  | none => "none"
  | entry => "in"
  | exit => "out"
  | both => "in_out"

def ofWord? : String → Option FlowMode
  | "none" => some none
  | "in" => some entry
  | "out" => some exit
  | "in_out" => some both
  | _ => Option.none

end FlowMode

end Patchbay
