import Patchbay.Behaviour

/-! # Operators

Kinds with two inputs `a` and `b` and one output `result`: arithmetic and comparisons.
-/

namespace Patchbay.Builtin

/-- The ports of an operator. -/
def operator (id category title : String) (operand : String → Port) (result : Port) :
    Declaration :=
  { Declaration.plain id category with
    title := title
    inputs := [("a", operand "A"), ("b", operand "B")]
    outputs := [("result", result)] }

/-- An operator on numbers. Where it has no result, the node fails with a message. -/
def arithmetic (id title : String) (op : Float → Float → Option Float) (failure : String) :
    Kind where
  declaration := operator id "math" title .number (.number "Result")
  behaviour :=
    { calculate := fun e =>
        match op (e.number "a") (e.number "b") with
        | some x => .done (.singleton "result" (.ofFloat x))
        | none => .fail (.calculation e.node.id failure) }

def add : Kind := arithmetic "add" "Add" (fun a b => some (a + b)) "addition failed"

def subtract : Kind :=
  arithmetic "subtract" "Subtract" (fun a b => some (a - b)) "subtraction failed"

def multiply : Kind :=
  arithmetic "multiply" "Multiply" (fun a b => some (a * b)) "multiplication failed"

/-- Division fails for the divisor zero. -/
def divide : Kind :=
  arithmetic "divide" "Divide" (fun a b => if b != 0 then some (a / b) else none)
    "division by zero"

/-- A comparison; its result is a truth value. -/
def comparison (id title : String) (operand : String → Port) (test : Evaluation → Bool) :
    Kind where
  declaration := operator id "logic" title operand (.boolean "Result")
  behaviour := { calculate := fun e => .done (.singleton "result" (.bool (test e))) }

/-- Whether `a` is the greater number. -/
def greaterThan : Kind :=
  comparison "greater-than" "Greater Than" .number fun e => e.number "b" < e.number "a"

/-- Equality of two values. Two numbers are equal if they are the same as floating-point numbers;
inside arrays and objects their kinds have to agree as well. -/
def valuesEqual : Value → Value → Bool
  | .number a, .number b => a.toFloat == b.toFloat
  | a, b => a.same b

/-- Whether the two inputs are equal. -/
def equals : Kind :=
  comparison "equals" "Equals" .any fun e => valuesEqual (e.value "a") (e.value "b")

end Patchbay.Builtin
