import Patchbay.Port

/-! # Wires

A wire leads from an output port to an input port. Wires into `__flow_in` carry control, all others
carry values.
-/

namespace Patchbay

/-- A wire from an output port to an input port. -/
structure Wire where
  source : String
  sourcePort : String
  target : String
  targetPort : String
  deriving Repr, DecidableEq

namespace Wire

/-- Whether the node is one of the two ends. -/
def touches (w : Wire) (node : String) : Bool := w.source = node || w.target = node

/-- Whether the wire carries control. -/
def isFlow (w : Wire) : Bool := w.targetPort = flowInName

/-- Whether the wire ends at this port, on this side of it. -/
def endsAt (w : Wire) (node port : String) : Side → Bool
  | .input => w.target = node && w.targetPort = port
  | .output => w.source = node && w.sourcePort = port

/-- The two ends with an arrow between them. -/
def describe (w : Wire) : String :=
  w.source ++ "." ++ w.sourcePort ++ " -> " ++ w.target ++ "." ++ w.targetPort

end Wire

/-- The number of a wire. A patch gives every new wire a higher one. -/
abbrev WireId := Nat

/-- The label of a wire in messages. -/
def WireId.label (id : WireId) : String := "conn-" ++ toString id

/-- What happens to a wire. -/
inductive Change where
  /-- The wire is about to be made; the ids of the types of its ports are given. -/
  | created (wire : Wire) (sourceType targetType : String)
  /-- The wire has just been taken away. -/
  | removed (id : WireId) (wire : Wire)
  deriving Repr, DecidableEq

/-- The news about a wire that its two nodes are told. Either may cancel the change. -/
structure WireEvent where
  change : Change
  cancelled : Bool
  deriving Repr, DecidableEq

namespace WireEvent

/-- News that nobody has cancelled. -/
def ofChange (c : Change) : WireEvent := ⟨c, false⟩

/-- The wire in question. -/
def wire (e : WireEvent) : Wire :=
  match e.change with
  | .created w _ _ => w
  | .removed _ w => w

/-- Whether the node is the receiving end of the wire. -/
def targets (e : WireEvent) (node : String) : Bool := e.wire.target = node

end WireEvent

end Patchbay
