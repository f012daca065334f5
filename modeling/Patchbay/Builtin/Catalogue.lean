import Patchbay.Builtin.Control
import Patchbay.Builtin.Operator
import Patchbay.Builtin.Print
import Patchbay.Builtin.Reroute
import Patchbay.Builtin.Source
import Patchbay.Patch.Basic

/-! # The built-in kinds
-/

namespace Patchbay

namespace Builtin

/-- All built-in kinds. -/
def all : List Kind :=
  [onStart, number, text, add, subtract, multiply, divide, greaterThan, equals, branch, sequence,
    repeated, reroute, print]

/-- The built-in kind with an id. -/
def find? (id : String) : Option Kind := all.find? (·.declaration.id = id)

end Builtin

/-- Declares all built-in kinds that the patch supports, and counts them. -/
def Patch.declareBuiltins (p : Patch) : Nat × Patch := p.declareAll Builtin.all

end Patchbay
