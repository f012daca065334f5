import Patchbay.Decimal.Digit

/-! # Shortest decimals

The fewest decimal digits that read back as a given binary floating-point number. A finite number
other than zero is `mantissa * 2 ^ exponent`; the reals that round to it form an interval whose ends
belong to it exactly when the mantissa is even. On the decimal grids of 1, 2, ... 17 digits the two
neighbours of the number are tested against this interval in exact arithmetic. The first grid with a
hit has the fewest digits, because a grid with any point in the interval has one of the two
neighbours in it.
-/

namespace Patchbay.Decimal

/-- The size of a finite floating-point number: `mantissa * 2 ^ exponent`. -/
structure Magnitude where
  mantissa : Nat
  exponent : Int
  /-- The next smaller number lies half as far away as the next larger one. -/
  narrow : Bool
  deriving Repr, DecidableEq

/-- The size of the number with this 64-bit pattern; the sign bit is ignored. -/
def Magnitude.ofBits (bits : Nat) : Magnitude :=
  let field : Nat := bits / Nat.pow 2 52 % Nat.pow 2 11
  let fraction : Nat := bits % Nat.pow 2 52
  if field = 0 then
    { mantissa := fraction, exponent := -1074, narrow := false }
  else
    { mantissa := Nat.pow 2 52 + fraction, exponent := (field : Int) - 1075,
      narrow := fraction = 0 && field ≠ 1 }

/-- A number and the interval that rounds to it, measured against the multiples of one step. -/
structure Grid where
  step : Nat
  low : Nat
  value : Nat
  high : Nat
  /-- The ends of the interval belong to it. -/
  closed : Bool

namespace Grid

/-- Whether the `n`-th grid point reads back as the number. -/
def readsBack (g : Grid) (n : Nat) : Bool :=
  if g.closed then g.low ≤ n * g.step && n * g.step ≤ g.high
  else g.low < n * g.step && n * g.step < g.high

/-- The grid point below the number or the one above, if it reads back; of two the nearer one, and
the even one when both are equally near. -/
def shortest? (g : Grid) : Option Nat :=
  let below := g.value / g.step
  let above := below + 1
  let rest := g.value % g.step
  match g.readsBack below, g.readsBack above with
  | true, true =>
    if 2 * rest < g.step then some below
    else if g.step < 2 * rest then some above
    else some (if below % 2 = 0 then below else above)
  | true, false => some below
  | false, true => some above
  | false, false => none

/-- What is found reads back. -/
theorem readsBack_of_shortest? {g : Grid} {n : Nat} (h : g.shortest? = some n) :
    g.readsBack n = true := by
  unfold shortest? at h
  grind

end Grid

namespace Magnitude

/-- The number against the multiples of `10 ^ k`. Everything is scaled by the same powers of two and
ten, so that all parts are whole. -/
def grid (m : Magnitude) (k : Int) : Grid :=
  -- A quarter of the mantissa's unit, so that the ends of the interval are whole as well.
  let quarter := Nat.pow 2 (m.exponent - 2).toNat * Nat.pow 10 (-k).toNat
  { step := Nat.pow 10 k.toNat * Nat.pow 2 (2 - m.exponent).toNat
    low := (4 * m.mantissa - if m.narrow then 1 else 2) * quarter
    value := 4 * m.mantissa * quarter
    high := (4 * m.mantissa + 2) * quarter
    closed := m.mantissa % 2 = 0 }

/-- The place of the leading digit: `10 ^ k ≤ m < 10 ^ (k + 1)`. -/
def leadingPlace (m : Magnitude) : Int :=
  let g := m.grid 0
  let k : Int := (digits g.value).length - (digits g.step).length
  if g.step * Nat.pow 10 k.toNat ≤ g.value * Nat.pow 10 (-k).toNat then k else k - 1

/-- The fewest digits that read back, as a count of units `10 ^ k` together with `k`. Seventeen
digits always read back. -/
def shortest (m : Magnitude) : Nat × Int :=
  ((List.range 17).findSome? fun (i : Nat) =>
    let k := m.leadingPlace - i
    (m.grid k).shortest?.map (·, k)).getD (0, 0)

end Magnitude

/-- Digits without the zeros at their end. -/
def trimZeros (ds : List Digit) : List Digit :=
  (ds.reverse.dropWhile (· == zeroDigit)).reverse

/-- Digits with a point after the first of them, times a power of ten. -/
structure Scientific where
  digits : List Digit
  exponent : Int
  deriving Repr, DecidableEq

/-- The shortest digits of a number other than zero. -/
def Magnitude.scientific (m : Magnitude) : Scientific :=
  let (n, k) := m.shortest
  let ds := Decimal.digits n
  { digits := trimZeros ds, exponent := k + ds.length - 1 }

end Patchbay.Decimal
