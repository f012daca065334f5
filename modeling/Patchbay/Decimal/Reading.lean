import Patchbay.Decimal.Numeral
import Patchbay.Text.Blank

/-! # Reading decimals as floating-point numbers

Two rules for the floating-point number that a numeral stands for.

* `Numeral.nearest` is the number nearest to the numeral's value.
* `Numeral.stepwise` keeps what fits into 64 bits of the digits, rounds that once, and multiplies or
  divides by a power of ten, which rounds again. It differs from the nearest number in the last bits
  of some long numerals, and refuses what is out of range.
-/

namespace Patchbay.Decimal

/-- The floating-point number nearest to `10 ^ n`. -/
def powerOfTen (n : Nat) : Float := Float.ofScientific 1 false n

/-- The first number that a 64-bit word cannot hold. -/
def wordLimit : Nat := Nat.pow 2 64

/-- Leading digits as one number below the word limit, and the count of digits left over. Once a
digit does not fit, it and all later ones are left over. -/
def packWord (start : Nat) : List Digit → Nat × Nat
  | [] => (start, 0)
  | d :: ds =>
    if start * 10 + d.val < wordLimit then packWord (start * 10 + d.val) ds
    else (start, ds.length + 1)

/-- Multiplies by `10 ^ e`, at most `10 ^ 308` at a time; `none` if the result is out of range. -/
def scale (x : Float) (e : Int) : Option Float :=
  if 0 ≤ e then
    if e ≤ 308 then
      let y := x * powerOfTen e.toNat
      if y.isInf then none else some y
    else if x == 0 then some x else none
  else if -308 ≤ e then some (x / powerOfTen (-e).toNat)
  else if x == 0 then some x
  else scale (x / powerOfTen 308) (e + 308)
termination_by (-e).toNat

namespace Numeral

/-- The number that a numeral stands for, computed in steps that each round; `none` if it is out of
range. -/
def stepwise (n : Numeral) : Option Float :=
  let (whole, excess) := packWord 0 n.whole
  let (significand, rest) := packWord whole n.fraction
  -- A digit after the point may fit again although one before it did not.
  let places := n.fraction.length - rest
  let e : Int := excess - places + n.power
  (scale (Float.ofNat significand) e).map fun x => if n.negative then -x else x

/-- The floating-point number nearest to the value of a numeral; infinite if that is too large. -/
def nearest (n : Numeral) : Float :=
  let significand := ofDigits (n.whole ++ n.fraction)
  let e : Int := n.power - n.fraction.length
  let size : Float :=
    if significand = 0 then 0
    -- Far outside the range of the numbers, nothing has to be computed.
    else if 310 ≤ e then Float.ofScientific 1 false 310
    else if e + (n.whole.length + n.fraction.length) ≤ -330 then 0
    else Float.ofScientific significand (e < 0) e.natAbs
  if n.negative then -size else size

end Numeral

/-- The sign at the front of a text, and what follows it. -/
def takeSign : List Char → Bool × List Char
  | '-' :: cs => (true, cs)
  | '+' :: cs => (false, cs)
  | cs => (false, cs)

/-- The exponent at the front of a text, which may be missing; `none` if it has no digits. -/
def takeExponent : List Char → Option (Option Exponent × List Char)
  | [] => some (none, [])
  | c :: cs =>
    if c = 'e' ∨ c = 'E' then
      let (negative, cs) := takeSign cs
      match takeDigits cs with
      | ([], _) => none
      | (ds, rest) => some (some ⟨negative, ds⟩, rest)
    else some (none, c :: cs)

/-- An unsigned numeral of a free form: digits on at least one side of an optional point, then an
optional exponent, and nothing else. -/
def freeNumeral? (cs : List Char) : Option Numeral := do
  let (whole, rest) := takeDigits cs
  let (fraction, rest) :=
    match rest with
    | '.' :: rest => takeDigits rest
    | rest => ([], rest)
  if whole.isEmpty && fraction.isEmpty then none
  match ← takeExponent rest with
  | (exponent, []) => some { negative := false, whole, fraction, exponent }
  | _ => none

/-- A text read as a floating-point number: blanks around it are skipped, and after an optional sign
stands a free numeral or, in any case, one of the words for infinity and for no number. -/
def floatOfText? (s : String) : Option Float :=
  let (negative, cs) := takeSign (trimBlank s.toList)
  let word := String.ofList (cs.map Char.toLower)
  let size : Option Float :=
    if word = "inf" ∨ word = "infinity" then some (1 / 0)
    else if word = "nan" then some (0 / 0)
    else (freeNumeral? cs).map Numeral.nearest
  size.map fun x => if negative then -x else x

end Patchbay.Decimal
