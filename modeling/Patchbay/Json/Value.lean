import Patchbay.Decimal.Reading
import Patchbay.Table

/-! # JSON values

The dynamic values that travel over wires. Numbers keep their kind: an integer is never equal to a
floating-point number, even of the same size. Members of an object ascend by key.

`Value.same` is the equality of values. It is not structural, because `0.0` and `-0.0` are the same.
-/

namespace Patchbay

/-- The integers from the least signed to the greatest unsigned 64-bit word. -/
abbrev FitsWord (n : Int) : Prop := -9223372036854775808 ≤ n ∧ n < 18446744073709551616

/-- A number: an integer that fits an unsigned or a signed 64-bit word, or a finite floating-point
number. -/
inductive Number where
  | int (n : Int) (fits : FitsWord n := by decide)
  | float (x : Float) (finite : x.isFinite = true)
  deriving DecidableEq

namespace Number

/-- The nearest floating-point number. -/
def toFloat : Number → Float
  | int n _ => Float.ofInt n
  | float x _ => x

/-- Equality of numbers of one kind; floating-point numbers are compared as such. -/
def same : Number → Number → Bool
  | int m _, int n _ => m = n
  | float x _, float y _ => x == y
  | _, _ => false

/-- A whole number, as an integer if it fits a word. -/
def ofInt? (n : Int) : Option Number :=
  if h : FitsWord n then some (int n h) else none

/-- A floating-point number, if it is finite. -/
def ofFloat? (x : Float) : Option Number :=
  if h : x.isFinite = true then some (float x h) else none

/-- The number that a numeral stands for, if it is in range. A numeral without point and exponent
is an integer if it fits a word; but `-0` is a floating-point number. -/
def ofNumeral? (n : Decimal.Numeral) : Option Number :=
  let size := Decimal.ofDigits n.whole
  let whole : Option Number :=
    if n.isWhole then
      -- Zero has no sign as an integer, so that `-0` is left for the line below.
      if n.negative then if size = 0 then none else ofInt? (-size) else ofInt? size
    else none
  whole <|> n.stepwise.bind ofFloat?

/-- Floating-point numbers are written positionally from `10 ^ -5` up to `10 ^ 16`. -/
def layout : Decimal.Layout := ⟨-5, 16⟩

/-- The numeral a number is written as. -/
def toNumeral : Number → Decimal.Numeral
  | int n _ => .ofInt n
  | float x _ => layout.ofFloat x

end Number

/-- A JSON value. The keys of an object ascend. -/
inductive Value where
  | null
  | bool (b : Bool)
  | number (n : Number)
  | string (s : String)
  | array (items : List Value)
  | object (members : List (String × Value))
  deriving Inhabited

namespace Value

/-- A floating-point number; what is not finite becomes null. -/
def ofFloat (x : Float) : Value := ((Number.ofFloat? x).map number).getD null

/-- A whole number; beyond the words it becomes a floating-point number. -/
def ofNat (n : Nat) : Value :=
  match Number.ofInt? n with
  | some m => number m
  | none => ofFloat (Float.ofNat n)

/-- The object with the given members. -/
def ofMembers (ms : List (String × Value)) : Value := object (Entries.ofList ms)

/-- The object whose members are the entries of a table. -/
def ofTable (t : Table String Value) : Value := object t.entries

mutual

/-- Equality of values: kinds of numbers differ, and floating-point numbers are compared as such. -/
def same : Value → Value → Bool
  | null, null => true
  | bool a, bool b => a == b
  | number a, number b => a.same b
  | string a, string b => a == b
  | array xs, array ys => sameItems xs ys
  | object xs, object ys => sameMembers xs ys
  | _, _ => false

def sameItems : List Value → List Value → Bool
  | [], [] => true
  | x :: xs, y :: ys => same x y && sameItems xs ys
  | _, _ => false

def sameMembers : List (String × Value) → List (String × Value) → Bool
  | [], [] => true
  | (k, x) :: xs, (l, y) :: ys => k == l && same x y && sameMembers xs ys
  | _, _ => false

end

end Value

end Patchbay
