import Patchbay.Recipe.Hook
import Patchbay.Recipe.Statement

/-! # Recipes

A recipe is a kind given by data: a declaration, lists of actions and rules for its hooks, and a
list of statements for its calculation. Some conversions can be given by name as well.
-/

namespace Patchbay

/-- A kind given by data. What is left out has no hook, or no outputs. -/
structure Recipe where
  declaration : Declaration
  onCreate : Option (List Recipe.Action)
  onUpdate : Option (List Recipe.Rule)
  calculation : Option (List Recipe.Statement)

/-- The kind that a recipe describes. -/
def Recipe.kind (r : Recipe) : Kind where
  declaration := r.declaration
  behaviour :=
    { onCreate := r.onCreate.map Recipe.createEdits
      onUpdate := r.onUpdate.map Recipe.updateHook
      calculate :=
        match r.calculation with
        | some body => Recipe.Statement.script body
        | none => fun _ => .done ∅ }

/-- The conversion with a name: the value itself, null, an array of the value, or a string that
marks its JSON text. -/
def Recipe.conversion? : String → Option (Value → Value)
  | "identity" => some id
  | "null" => some fun _ => .null
  | "wrap" => some fun v => .array [v]
  | "tag" => some fun v => .string ("#" ++ v.toText)
  | _ => none

end Patchbay
