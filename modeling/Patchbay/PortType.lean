import Patchbay.Json.Raw

/-! # Port types and conversions

A port has a type, and values may travel from a port of one type to a port of another if the source
type has a rule for it. The rules of a type can be changed while ports use it, so they are kept
apart from the types, in one `Conversions` table that all ports share. Two types with the same id
are the same type to a wire, but each has its own rules: a type is known to the table by its `key`.

`Conversions.compatibility` says how values pass; the order of its cases is the order of precedence.
-/

namespace Patchbay

/-- The type of a port. -/
structure PortType where
  /-- Under this number the table of conversions knows the type. -/
  key : Nat
  id : String
  /-- The colour in which an editor shows the type. -/
  color : String
  deriving Repr, DecidableEq

/-- What happens to a value on its way to a port of a certain type. -/
inductive Rule where
  | passThrough
  | convert (f : Value → Value)

/-- How values of one type reach a port of another. -/
inductive Compatibility where
  /-- Both types have one id. -/
  | identical
  /-- One side takes or gives anything. -/
  | wildcard
  /-- The source has a conversion to the target. -/
  | converted (f : Value → Value)
  /-- The source hands its values over to any port, or to this one, unchanged. -/
  | passThrough
  | incompatible

namespace Compatibility

def isCompatible : Compatibility → Bool
  | incompatible => false
  | _ => true

/-- The value that arrives; null if the types do not fit. -/
def apply : Compatibility → Value → Value
  | converted f, v => f v
  | incompatible, _ => .null
  | _, v => v

end Compatibility

namespace PortType

/-- The id of the type that takes and gives anything. -/
def anyId : String := "ANY"

def any : PortType := ⟨0, anyId, "#fff"⟩
def number : PortType := ⟨1, "number", "#2f904b"⟩
def string : PortType := ⟨2, "string", "#eeab2c"⟩
def boolean : PortType := ⟨3, "boolean", "#c0392b"⟩

/-- The type of ports that carry control instead of values. -/
def flow : PortType := ⟨4, "flow", "#ffffff"⟩

/-- Keys from here on are free for further types. -/
def firstFreeKey : Nat := 5

def isAny (t : PortType) : Bool := t.id = anyId

def isFlow (t : PortType) : Bool := t.id = flow.id

end PortType

/-- The conversion rules of all types: under the key of a type, its rules by the id of the target.
-/
abbrev Conversions := Table Nat (Table String Rule)

namespace Conversions

/-- The rules of a type. -/
def rules (c : Conversions) (t : PortType) : Table String Rule := (c.find? t.key).getD ∅

/-- Gives a type a rule for a target id; an earlier one is replaced. -/
def setRule (c : Conversions) (t : PortType) (target : String) (rule : Rule) : Conversions :=
  c.insert t.key ((c.rules t).insert target rule)

/-- Takes the rule for a target id away from a type. -/
def removeRule (c : Conversions) (t : PortType) (target : String) : Conversions :=
  c.insert t.key ((c.rules t).erase target)

/-- How values of type `s` reach a port of type `t`. -/
def compatibility (c : Conversions) (s t : PortType) : Compatibility :=
  if s.id = t.id then .identical
  else if t.isAny then .wildcard
  else
    match (c.rules s).find? t.id with
    | some .passThrough => .passThrough
    | some (.convert f) => .converted f
    -- A rule of the wildcard type for a target goes before its being a wildcard.
    | none =>
      if s.isAny then .wildcard
      else if (c.rules s).contains PortType.anyId then .passThrough
      else .incompatible

/-- Whether values of type `s` may feed a port of type `t`. -/
def canConnect (c : Conversions) (s t : PortType) : Bool := (c.compatibility s t).isCompatible

/-- A value of type `s` as it reaches a port of type `t`. -/
def convert (c : Conversions) (s t : PortType) (v : Value) : Value := (c.compatibility s t).apply v

/-- A value as a string; null stays null. -/
def toText : Value → Value
  | .string s => .string s
  | .null => .null
  | v => .string v.toText

/-- A truth value as one or zero; all else is null. -/
def toBit : Value → Value
  | .bool b => .ofNat (if b then 1 else 0)
  | _ => .null

/-- The rules that the base types start with. -/
def base : Conversions :=
  Conversions.setRule
    (Conversions.setRule
      (Conversions.setRule ∅ PortType.number "string" (.convert toText))
      PortType.boolean "string" (.convert toText))
    PortType.boolean "number" (.convert toBit)

end Conversions

end Patchbay
