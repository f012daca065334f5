import Patchbay.Behaviour

/-! # Control

Kinds that let control go on from one of several outputs, from one after the other, or repeatedly.
-/

namespace Patchbay.Builtin

/-- Goes on from `true` or from `false`. -/
def branch : Kind where
  declaration :=
    { Declaration.plain "branch" "control" with
      title := "Branch"
      description := "Continues on the true or false flow"
      flow := .entry
      inputs := [("condition", .boolean "Condition")]
      outputs := [("true", .flow "True"), ("false", .flow "False")] }
  behaviour :=
    { calculate := fun e => do
        Script.proceed (if e.boolean "condition" then "true" else "false") none
        pure ∅ }

/-- Goes on from `first`, then from `second`. -/
def sequence : Kind where
  declaration :=
    { Declaration.plain "sequence" "control" with
      title := "Sequence"
      description := "Runs two flows one after the other"
      flow := .entry
      outputs := [("first", .flow "First"), ("second", .flow "Second")] }
  behaviour :=
    { calculate := fun _ => do
        Script.proceed "first" none
        Script.proceed "second" none
        pure ∅ }

/-- The outputs of a loop while the index is as given. -/
def loopOutputs (index : Value) : PortValues := .singleton "index" index

/-- Goes on from `body` for each of the next `count` indices; the outputs are those of the last
index. -/
def loop (last : Value) (index : Nat) : Nat → Script PortValues
  | 0 => .done (loopOutputs last)
  | count + 1 => do
    Script.proceed "body" (some (loopOutputs (.ofNat index)))
    loop (.ofNat index) (index + 1) count

/-- How often a number says that something is repeated: the whole part, not at all below one or for
what is no number, and at most as often as a 64-bit word can say. -/
def repetitions (x : Float) : Nat := x.toUInt64.toNat

/-- Goes on from `body` a number of times. Before each time the index is published, so that what
follows can read it. -/
def repeated : Kind where
  declaration :=
    { Declaration.plain "repeat" "control" with
      title := "Repeat"
      description := "Runs the body flow a number of times"
      flow := .entry
      inputs := [("count", .number "Count")]
      outputs := [("body", .flow "Body"), ("index", .number "Index")] }
  behaviour := { calculate := fun e => loop .null 0 (repetitions (e.number "count")) }

end Patchbay.Builtin
