import Patchbay.Behaviour

/-! # Reroutes

A reroute passes a value through and serves to tidy up wiring. Both its ports take the type of the
port that feeds it, so that a wire is checked beyond it, and take anything while nothing feeds it.
-/

namespace Patchbay.Builtin

/-- Gives both ports of a reroute a type. -/
def retype (t : PortType) : List NodeEdit :=
  [.setType "in" .input t, .setType "out" .output t]

/-- The changes of a reroute on account of a wire into its input that nobody has refused: it takes
the type of the source when the wire comes, and takes anything again when it goes. -/
def rerouteEdits (event : WireEvent) (node : Node) (graph : Graph) : List NodeEdit :=
  if event.cancelled || !event.targets node.id || event.wire.targetPort ≠ "in" then []
  else
    match event.change with
    | .created w _ _ =>
      match graph.port? w.source w.sourcePort .output with
      | some source => retype source.type
      | none => []
    | .removed _ _ => retype .any

/-- What a reroute does when it is told of a wire. It leaves the event alone. -/
def rerouteHook : Hook := fun event node graph => (event, rerouteEdits event node graph)

/-- Passes a value through. -/
def reroute : Kind where
  declaration :=
    { Declaration.plain "reroute" "control" with
      title := "Reroute"
      inputs := [("in", { Port.any "In" with showTitle := false })]
      outputs := [("out", { Port.any "Out" with showTitle := false })] }
  behaviour :=
    { onUpdate := some rerouteHook
      calculate := fun e => .done (.singleton "out" (e.value "in")) }

end Patchbay.Builtin
