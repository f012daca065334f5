import Patchbay.Recipe.Expression

/-! # Statements of recipes

The calculation of a recipe is a list of statements that fills in the outputs. An error ends it,
unless it happens inside an `attempt`; outputs that were set before stay set.
-/

namespace Patchbay.Recipe

/-- A step of a calculation. -/
inductive Statement where
  /-- Sets an output. -/
  | out (port : String) (e : Expression)
  /-- Fires a control output, with outputs to publish before or without. -/
  | fire (port : String) (outputs : Option (List (String × Expression)))
  | fail (message : String)
  /-- Prints a string as it is, another value as its JSON text. -/
  | print (e : Expression)
  /-- Repeats statements for the indices below a count. -/
  | loop (count : Nat) (body : List Statement)
  /-- Prints an error of the statements instead of passing it on. -/
  | attempt (body : List Statement)
  /-- Goes on with the first list if the expression is true, with the second for all other values.
  -/
  | choose (e : Expression) (yes no : List Statement)
  /-- Adds one to a word of the context, or sets it to one. -/
  | tick (key : String)
  /-- Fails if a word of the context has reached a limit. -/
  | failAt (key : String) (limit : Nat) (message : String)
  deriving Inhabited

/-- The outputs so far, and the error that ended the calculation, if one did. -/
structure Progress where
  outputs : PortValues
  error : Option Error

/-- The error that an outcome is, if it is one. -/
def errorOf : Except Error Unit → Option Error
  | .ok () => none
  | .error e => some e

/-- The line that a value is printed as. -/
def line : Value → String
  | .string s => s
  | v => v.toText

/-- The values of several expressions under their names. -/
def evalAll (e : Evaluation) (index : Nat) : List (String × Expression) → Script PortValues
  | [] => .done ∅
  | (name, x) :: xs => do
    let v ← x.eval e index
    let rest ← evalAll e index xs
    pure ((Table.singleton name v).override rest)

/-- Takes a step for each of `count` indices from `index` on, until one ends with an error. -/
def repeatFrom (step : Nat → PortValues → Script Progress) (index : Nat) :
    Nat → PortValues → Script Progress
  | 0, outputs => .done ⟨outputs, none⟩
  | count + 1, outputs => do
    let p ← step index outputs
    match p.error with
    | some _ => pure p
    | none => repeatFrom step (index + 1) count p.outputs

namespace Statement

mutual

/-- Takes one step. -/
def exec (e : Evaluation) : Statement → Nat → PortValues → Script Progress
  | out port x, index, outputs => do
    let v ← x.eval e index
    pure ⟨outputs.insert port v, none⟩
  | fire port none, _, outputs => .fire port none fun r => .done ⟨outputs, errorOf r⟩
  | fire port (some xs), index, outputs => do
    let published ← evalAll e index xs
    .fire port (some published) fun r => .done ⟨outputs, errorOf r⟩
  | fail message, _, outputs => .done ⟨outputs, some (.calculation e.node.id message)⟩
  | print x, index, outputs => do
    let v ← x.eval e index
    .print (line v) (.done ⟨outputs, none⟩)
  | loop count body, _, outputs => repeatFrom (execAll e body) 0 count outputs
  | attempt body, index, outputs => do
    let p ← execAll e body index outputs
    match p.error with
    -- Outputs that were set before the error stay.
    | some err => .print ("caught: " ++ err.message) (.done ⟨p.outputs, none⟩)
    | none => pure p
  | choose x yes no, index, outputs => do
    match ← x.eval e index with
    | .bool true => execAll e yes index outputs
    | _ => execAll e no index outputs
  | tick key, _, outputs =>
    .consult key fun entry =>
      .store key (.word (((entry.bind Entry.word?).map (· + 1)).getD 1)) (.done ⟨outputs, none⟩)
  | failAt key limit message, _, outputs =>
    .consult key fun entry =>
      if limit ≤ (entry.bind Entry.word?).getD 0 then
        .done ⟨outputs, some (.calculation e.node.id message)⟩
      else .done ⟨outputs, none⟩

/-- Takes the steps of a list, until one ends with an error. -/
def execAll (e : Evaluation) : List Statement → Nat → PortValues → Script Progress
  | [], _, outputs => .done ⟨outputs, none⟩
  | s :: ss, index, outputs => do
    let p ← exec e s index outputs
    match p.error with
    | some _ => pure p
    | none => execAll e ss index p.outputs

end

/-- The script of a whole calculation. -/
def script (body : List Statement) (e : Evaluation) : Script PortValues := do
  let p ← execAll e body 0 ∅
  match p.error with
  | some err => .fail err
  | none => pure p.outputs

end Statement

end Patchbay.Recipe
