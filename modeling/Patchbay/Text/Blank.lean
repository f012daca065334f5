/-! # Blank characters

The characters with the Unicode property `White_Space`, and cutting them off both ends of a text.
What is left is part of the text (`trimBlank_isInfix`) and does not end with a blank
(`getLast?_trimBlank`).
-/

namespace Patchbay

/-- The ranges of code points that have the property `White_Space`, both ends included. -/
def blankRanges : List (Nat × Nat) :=
  [(0x9, 0xd), (0x20, 0x20), (0x85, 0x85), (0xa0, 0xa0), (0x1680, 0x1680), (0x2000, 0x200a),
    (0x2028, 0x2029), (0x202f, 0x202f), (0x205f, 0x205f), (0x3000, 0x3000)]

/-- Whether the character has the property `White_Space`. -/
def isBlank (c : Char) : Bool :=
  blankRanges.any fun r => r.1 ≤ c.toNat && c.toNat ≤ r.2

/-- The characters without the blank ones at either end. -/
def trimBlank (cs : List Char) : List Char :=
  ((cs.dropWhile isBlank).reverse.dropWhile isBlank).reverse

/-- Trimming takes characters away at the ends only. -/
theorem trimBlank_isInfix (cs : List Char) : trimBlank cs <:+: cs := by
  refine List.IsInfix.trans (List.IsPrefix.isInfix ?_) (List.dropWhile_suffix isBlank).isInfix
  rw [trimBlank, ← List.reverse_suffix, List.reverse_reverse]
  exact List.dropWhile_suffix isBlank

/-- A trimmed text ends with no blank. -/
theorem getLast?_trimBlank {cs : List Char} {c : Char} (h : (trimBlank cs).getLast? = some c) :
    isBlank c = false := by
  rw [trimBlank, List.getLast?_reverse] at h
  have := List.head?_dropWhile_not isBlank (cs.dropWhile isBlank).reverse
  simpa [h] using this

end Patchbay
