import Patchbay.Behaviour

/-! # Printing

A print node hands a line to the host: to the print log of the context, or else as information.
-/

namespace Patchbay.Builtin

/-- Hands its input to the host as a line. -/
def print : Kind where
  declaration :=
    { Declaration.plain "print" "output" with
      title := "Print"
      description := "Writes a value to the host"
      flow := .both
      inputs := [("value", .any "Value")] }
  behaviour :=
    { calculate := fun e =>
        let line := e.text "value"
        .consult Context.printLogKey fun entry =>
          if entry.any Entry.isPrintLog then .print line (.done ∅)
          else .inform ("PrintNode " ++ e.node.id ++ ": " ++ line) (.done ∅) }

end Patchbay.Builtin
