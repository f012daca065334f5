import Patchbay.Json.Reading

/-! # Shapes of JSON data

Readers from `Raw` texts to data of a fixed shape. Arrays and objects may nest up to a limit; each
reader gets the number of levels that are left. What a reader skips, such as the value of an unknown
field, is not looked into at all.

A record is written as an object, in which unknown fields are skipped and no known field is
repeated, or as the array of its fields in order, from whose end fields may be missing.
-/

namespace Patchbay.Json

/-- Reads a text, given the number of levels that it may nest; `none` if it has another shape. -/
abbrev Reader (α : Type) := Nat → Raw → Option α

/-- Texts nest at most this deep. -/
def depthLimit : Nat := 127

namespace Raw

mutual

/-- The value of a text. Of repeated keys in an object the last one counts. -/
def value? : Nat → Raw → Option Value
  | _, null => some .null
  | _, bool b => some (.bool b)
  | _, number n => (Number.ofNumeral? n).map .number
  | _, string s => s.map .string
  | 0, array _ => none
  | levels + 1, array xs => (values? levels xs).map .array
  | 0, object _ => none
  | levels + 1, object ms => (members? levels ms).map .ofMembers

def values? : Nat → List Raw → Option (List Value)
  | _, [] => some []
  | levels, x :: xs => do
    let v ← value? levels x
    let vs ← values? levels xs
    some (v :: vs)

def members? : Nat → List (Option String × Raw) → Option (List (String × Value))
  | _, [] => some []
  | levels, (k, x) :: ms => do
    let k ← k
    let v ← value? levels x
    let vs ← members? levels ms
    some ((k, v) :: vs)

end

end Raw

namespace Reader

def value : Reader Value := Raw.value?

def text : Reader String
  | _, .string s => s
  | _, _ => none

def bool : Reader Bool
  | _, .bool b => some b
  | _, _ => none

/-- A number of any kind, as a floating-point number. -/
def float : Reader Float
  | _, .number n => (Number.ofNumeral? n).map Number.toFloat
  | _, _ => none

/-- A whole number that is not negative and fits an unsigned word. -/
def word : Reader Nat
  | _, .number n =>
    match Number.ofNumeral? n with
    | some (.int n _) => if 0 ≤ n then some n.toNat else none
    | _ => none
  | _, _ => none

/-- The items of an array. -/
def list {α : Type} (r : Reader α) : Reader (List α)
  | levels + 1, .array xs => xs.mapM (r levels)
  | _, _ => none

/-- A member of an object whose values have one shape. -/
def member {α : Type} (r : Reader α) (levels : Nat) (m : Option String × Raw) :
    Option (String × α) := do
  let k ← m.1
  let v ← r levels m.2
  some (k, v)

/-- The members of an object under their keys; of repeated keys the last one counts. -/
def table {α : Type} (r : Reader α) : Reader (Table String α)
  | levels + 1, .object ms => (ms.mapM (member r levels)).map Table.ofList
  | _, _ => none

/-- One of some names, written as a string or as the one key of an object with the value null. -/
def name : Reader String
  | _, .string s => s
  | _ + 1, .object [(k, .null)] => k
  | _, _ => none

end Reader

/-- The fields of a record that a text holds, and the levels left for them. -/
structure Fields where
  levels : Nat
  members : List (String × Raw)

namespace Fields

/-- The known members of an object in the order of the text: `none` if a known one is repeated. All
keys have to be spelled. -/
def known? (names : List String) : List (Option String × Raw) → Option (List (String × Raw))
  | [] => some []
  | (k, x) :: ms => do
    let k ← k
    let rest ← known? names ms
    if k ∈ names then
      if rest.any (·.1 = k) then none else some ((k, x) :: rest)
    else some rest

/-- The fields of a record with the given names. -/
def read? (names : List String) : Reader Fields
  | levels + 1, .object ms => (known? names ms).map (⟨levels, ·⟩)
  | levels + 1, .array xs => if xs.length ≤ names.length then some ⟨levels, names.zip xs⟩ else none
  | _, _ => none

/-- The fields of a record of one of several forms. An object names its form under `tag`, an array
names it before the fields, which all have to be there. `names?` gives the fields of a form. Unlike
those of other records, skipped values have to be readable. -/
def readTagged? (tag : String) (names? : String → Option (List String)) :
    Reader (String × Fields)
  | levels + 1, .object ms => do
    -- The whole object is read as values before its form is known.
    let _ ← Raw.members? levels ms
    match ms.filter (·.1 = some tag) with
    | [(_, .string (some form))] =>
      let members ← known? (← names? form) ms
      some (form, ⟨levels, members⟩)
    | _ => none
  | levels + 1, .array (.string (some form) :: xs) => do
    let _ ← Raw.values? levels xs
    let names ← names? form
    if xs.length = names.length then some (form, ⟨levels, names.zip xs⟩) else none
  | _, _ => none

/-- A field that has to be there. -/
def required {α : Type} (f : Fields) (name : String) (r : Reader α) : Option α := do
  r f.levels (← Entries.find? name f.members)

/-- A field that stands for `default` if it is missing. -/
def optional {α : Type} (f : Fields) (name : String) (default : α) (r : Reader α) : Option α :=
  match Entries.find? name f.members with
  | some x => r f.levels x
  | none => some default

end Fields

/-- Reads a whole text of a given shape. -/
def Reader.parse? {α : Type} (r : Reader α) (s : String) : Option α := do
  r depthLimit (← Raw.parse? s)

end Patchbay.Json
