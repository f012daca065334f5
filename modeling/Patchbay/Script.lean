import Patchbay.Context
import Patchbay.Error
import Patchbay.Node

/-! # Scripts

What a node calculates is a `Script`: a program that ends with outputs or with an error, and that on
its way may fire control ports, use the context of the run and print. A script is data, so what a
calculation does not do can be said of it: `Script.Silent` scripts fire nothing, for instance.

How a script is run is said in `Patchbay.Run.Engine`.
-/

namespace Patchbay

/-- A calculation that ends with an `α`. -/
inductive Script (α : Type) where
  | done (a : α)
  | fail (e : Error)
  /-- Publishes outputs, if they are given, and lets control go on from a port; the outcome is told
  afterwards. -/
  | fire (port : String) (outputs : Option PortValues) (next : Except Error Unit → Script α)
  /-- Looks an entry of the context up. -/
  | consult (key : String) (next : Option Entry → Script α)
  /-- Puts an entry into the context. -/
  | store (key : String) (entry : Entry) (next : Script α)
  /-- Appends a line to what is printed, if the context collects that. -/
  | print (line : String) (next : Script α)
  /-- Tells the host something. -/
  | inform (line : String) (next : Script α)

namespace Script

variable {α β : Type}

/-- Goes on with `k` where the script ends. -/
def bind : Script α → (α → Script β) → Script β
  | done a, k => k a
  | fail e, _ => fail e
  | fire port outputs next, k => fire port outputs fun r => bind (next r) k
  | consult key next, k => consult key fun r => bind (next r) k
  | store key entry next, k => store key entry (bind next k)
  | print line next, k => print line (bind next k)
  | inform line next, k => inform line (bind next k)

instance : Monad Script where
  pure := done
  bind := bind

/-- Fires a port; a failure of what follows there is passed on. -/
def proceed (port : String) (outputs : Option PortValues) : Script Unit :=
  fire port outputs fun
    | .ok () => done ()
    | .error e => fail e

/-- The script fires nothing. -/
def Silent : Script α → Prop
  | done _ | fail _ => True
  | fire _ _ _ => False
  | consult _ next => ∀ r, (next r).Silent
  | store _ _ next => next.Silent
  | print _ next => next.Silent
  | inform _ next => next.Silent

end Script

end Patchbay
