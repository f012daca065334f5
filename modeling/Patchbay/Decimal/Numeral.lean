import Patchbay.Decimal.Shortest

/-! # Decimal numerals

A `Numeral` is a decimal number as it is written: sign, digits before and after the point, exponent.
`Layout` decides which of the numerals for a number is used.
-/

namespace Patchbay.Decimal

/-- The power of ten at the end of a numeral. -/
structure Exponent where
  negative : Bool
  digits : List Digit
  deriving Repr, DecidableEq

def Exponent.value (e : Exponent) : Int :=
  if e.negative then -(ofDigits e.digits : Int) else ofDigits e.digits

/-- The exponent that stands for `e`. -/
def Exponent.ofInt (e : Int) : Exponent := ⟨e < 0, Decimal.digits e.natAbs⟩

theorem Exponent.value_ofInt (e : Int) : (Exponent.ofInt e).value = e := by
  simp only [ofInt, value, ofDigits_digits, decide_eq_true_eq]
  split <;> omega

/-- A decimal number as it is written. -/
structure Numeral where
  negative : Bool
  whole : List Digit
  /-- The digits after the point; without a point there are none. -/
  fraction : List Digit
  exponent : Option Exponent
  deriving Repr, DecidableEq

namespace Numeral

/-- The numeral of a whole number. -/
def ofInt (n : Int) : Numeral := ⟨n < 0, Decimal.digits n.natAbs, [], none⟩

/-- A numeral with neither point nor exponent. -/
def isWhole (n : Numeral) : Bool := n.fraction.isEmpty && n.exponent.isNone

/-- The power of ten written at the end. -/
def power (n : Numeral) : Int := (n.exponent.map Exponent.value).getD 0

/-- The characters of a numeral; an exponent always has a sign. -/
def render (n : Numeral) : List Char :=
  (if n.negative then ['-'] else []) ++ n.whole.map digitChar ++
    (if n.fraction.isEmpty then [] else '.' :: n.fraction.map digitChar) ++
    match n.exponent with
    | none => []
    | some e => 'e' :: (if e.negative then '-' else '+') :: e.digits.map digitChar

end Numeral

/-- Where positional writing is used: for leading digits from the place `10 ^ lowest` up to, but not
including, the place `10 ^ beyond`. All other numbers have one digit before the point and an
exponent. -/
structure Layout where
  lowest : Int
  beyond : Int

namespace Layout

/-- The numeral of a number given by its digits; positional ones always have a point. -/
def numeral (l : Layout) (negative : Bool) (s : Scientific) : Numeral :=
  if l.lowest ≤ s.exponent ∧ s.exponent < l.beyond then
    if 0 ≤ s.exponent then
      let n := s.exponent.toNat + 1
      let fraction := s.digits.drop n
      { negative
        whole := s.digits.take n ++ List.replicate (n - s.digits.length) zeroDigit
        fraction := if fraction.isEmpty then [zeroDigit] else fraction
        exponent := none }
    else
      { negative
        whole := [zeroDigit]
        fraction := List.replicate (-s.exponent - 1).toNat zeroDigit ++ s.digits
        exponent := none }
  else
    { negative
      whole := s.digits.take 1
      fraction := s.digits.drop 1
      exponent := some (Exponent.ofInt s.exponent) }

/-- The numeral of a finite floating-point number, in the fewest digits that read back. -/
def ofFloat (l : Layout) (x : Float) : Numeral :=
  let bits := x.toBits.toNat
  let negative := decide (Nat.pow 2 63 ≤ bits)
  let m := Magnitude.ofBits bits
  if m.mantissa = 0 then
    { negative, whole := [zeroDigit], fraction := [zeroDigit], exponent := none }
  else
    l.numeral negative m.scientific

end Layout

end Patchbay.Decimal
