import Patchbay.Behaviour

/-! # Sources

The kinds that a program starts from: the entry point of a run, and constants that are edited on
the node itself.
-/

namespace Patchbay.Builtin

/-- Where a run starts. It has no ports but the control output. -/
def onStart : Kind where
  declaration :=
    { Declaration.plain "on-start" "events" with
      title := "On Start"
      description := "Entry point of a run"
      flow := .exit }
  behaviour := {}

/-- A constant number. -/
def number : Kind where
  declaration :=
    { Declaration.plain "number" "input" with
      title := "Number"
      description := "Constant number"
      inputs := [("value", { Port.number "Value" with hasPort := false })]
      outputs := [("value", .number "Value")] }
  behaviour :=
    { calculate := fun e => .done (.singleton "value" (.ofFloat (e.number "value"))) }

/-- A constant text. -/
def text : Kind where
  declaration :=
    { Declaration.plain "text" "input" with
      title := "Text"
      description := "Constant text"
      inputs := [("value", { Port.text "Value" with hasPort := false, value := some (.string "") })]
      outputs := [("value", .text "Value")] }
  behaviour :=
    { calculate := fun e => .done (.singleton "value" (.string (e.text "value"))) }

end Patchbay.Builtin
