/-! # Decimal digits

Numbers as lists of decimal digits, most significant first. Writing a number and reading its digits
gives the number back (`ofDigits_digits`), and a digit is recovered from its character
(`digit?_digitChar`).
-/

namespace Patchbay.Decimal

/-- A decimal digit. -/
abbrev Digit := Fin 10

/-- The digit zero. -/
def zeroDigit : Digit := ⟨0, by decide⟩

/-- The ASCII character of a digit. -/
def digitChar (d : Digit) : Char := Char.ofNat (48 + d.val)

/-- The digit of an ASCII digit character. -/
def digit? (c : Char) : Option Digit :=
  if h : 48 ≤ c.toNat ∧ c.toNat < 58 then some ⟨c.toNat - 48, by omega⟩ else none

theorem digit?_digitChar (d : Digit) : digit? (digitChar d) = some d := by
  revert d; decide

/-- The number that digits write. -/
def ofDigits (ds : List Digit) : Nat := ds.foldl (fun n d => n * 10 + d.val) 0

/-- The digits of a number. The first is not zero, but zero itself is the one digit 0. -/
def digits (n : Nat) : List Digit :=
  if h : n < 10 then [⟨n, h⟩] else digits (n / 10) ++ [⟨n % 10, Nat.mod_lt n (by omega)⟩]

theorem ofDigits_concat (ds : List Digit) (d : Digit) :
    ofDigits (ds ++ [d]) = ofDigits ds * 10 + d.val := by
  simp [ofDigits]

theorem ofDigits_digits (n : Nat) : ofDigits (digits n) = n := by
  fun_induction digits n with
  | case1 => simp [ofDigits]
  | case2 n _ ih => rw [ofDigits_concat, ih]; dsimp only; omega

theorem digits_ne_nil (n : Nat) : digits n ≠ [] := by
  unfold digits; split <;> simp

/-- The characters of a number in decimal. -/
def text (n : Nat) : List Char := (digits n).map digitChar

/-- The digits at the front of a text, and what follows them. -/
def takeDigits : List Char → List Digit × List Char
  | [] => ([], [])
  | c :: cs =>
    match digit? c with
    | some d => let (ds, rest) := takeDigits cs; (d :: ds, rest)
    | none => ([], c :: cs)

/-- Digits are taken back off a text that does not go on with a digit. -/
theorem takeDigits_append (ds : List Digit) {rest : List Char}
    (h : ∀ c ∈ rest.head?, digit? c = none) :
    takeDigits (ds.map digitChar ++ rest) = (ds, rest) := by
  induction ds with
  | nil =>
    cases rest with
    | nil => rfl
    | cons c cs => simp [takeDigits, h c rfl]
  | cons d ds ih => simp [takeDigits, digit?_digitChar, ih]

end Patchbay.Decimal
