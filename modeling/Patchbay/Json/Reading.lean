import Patchbay.Json.Raw

/-! # Reading JSON text

From characters to `Raw`. The form of the text is checked completely here: literals, numerals,
quotes, escapes and brackets. What depends on the use of a part is left to its reader: the range of
a number, halves of surrogate pairs, repeated keys and the depth of nesting.
-/

namespace Patchbay.Json

open Decimal

/-- JSON knows four characters of space. -/
def isSpace (c : Char) : Bool := c = ' ' || c = '\n' || c = '\t' || c = '\r'

def skipSpace (cs : List Char) : List Char := cs.dropWhile isSpace

/-- The number that a hexadecimal digit of either case stands for. -/
def hex? (c : Char) : Option Nat :=
  let n := c.toNat
  if 48 ≤ n ∧ n < 58 then some (n - 48)
  else if 97 ≤ n ∧ n < 103 then some (n - 87)
  else if 65 ≤ n ∧ n < 71 then some (n - 55)
  else none

/-- A part of a quoted string: a character, or a 16-bit unit given by its number. -/
inductive Piece where
  | char (c : Char)
  | unit (n : Nat)
  deriving Repr, DecidableEq

/-- The character that a letter after a backslash stands for. -/
def unescape? (c : Char) : Option Char :=
  if c = '"' ∨ c = '\\' ∨ c = '/' then some c
  else if c = 'b' then some '\x08'
  else if c = 'f' then some '\x0c'
  else if c = 'n' then some '\n'
  else if c = 'r' then some '\r'
  else if c = 't' then some '\t'
  else none

/-- The pieces up to the closing quote, and what follows it. -/
def takePieces : List Char → Option (List Piece × List Char)
  | [] => none
  | '"' :: rest => some ([], rest)
  | '\\' :: 'u' :: a :: b :: c :: d :: rest => do
    let a ← hex? a
    let b ← hex? b
    let c ← hex? c
    let d ← hex? d
    let (ps, rest) ← takePieces rest
    some (.unit (((a * 16 + b) * 16 + c) * 16 + d) :: ps, rest)
  | '\\' :: c :: rest => do
    let c ← unescape? c
    let (ps, rest) ← takePieces rest
    some (.char c :: ps, rest)
  | c :: rest =>
    if c.toNat < 0x20 ∨ c = '\\' then none
    else do
      let (ps, rest) ← takePieces rest
      some (.char c :: ps, rest)

/-- The characters that pieces spell. A unit of the upper surrogates and the unit of the lower ones
right after it are one character; any other surrogate spells nothing. -/
def assemble : List Piece → Option (List Char)
  | [] => some []
  | .char c :: ps => (assemble ps).map (c :: ·)
  | .unit h :: .unit l :: ps =>
    if 0xd800 ≤ h ∧ h < 0xdc00 ∧ 0xdc00 ≤ l ∧ l < 0xe000 then
      (assemble ps).map (Char.ofNat (0x10000 + (h - 0xd800) * 0x400 + (l - 0xdc00)) :: ·)
    else if 0xd800 ≤ h ∧ h < 0xe000 then none
    else (assemble (.unit l :: ps)).map (Char.ofNat h :: ·)
  | .unit h :: ps =>
    if 0xd800 ≤ h ∧ h < 0xe000 then none else (assemble ps).map (Char.ofNat h :: ·)

/-- The string up to the closing quote, and what follows it. -/
def takeString (cs : List Char) : Option (Option String × List Char) := do
  let (ps, rest) ← takePieces cs
  some ((assemble ps).map String.ofList, rest)

/-- The digits after a point, if there is a point: at least one. -/
def takeFraction : List Char → Option (List Digit × List Char)
  | '.' :: cs =>
    match takeDigits cs with
    | ([], _) => none
    | (ds, rest) => some (ds, rest)
  | cs => some ([], cs)

/-- A numeral at the front of a text. More than one digit before the point start with no zero. -/
def takeNumeral (cs : List Char) : Option (Numeral × List Char) := do
  let (negative, cs) :=
    match cs with
    | '-' :: cs => (true, cs)
    | cs => (false, cs)
  let (whole, rest) ←
    match takeDigits cs with
    | ([], _) => none
    | (0 :: _ :: _, _) => none
    | (ds, rest) => some (ds, rest)
  let (fraction, rest) ← takeFraction rest
  let (exponent, rest) ← takeExponent rest
  some ({ negative, whole, fraction, exponent }, rest)

mutual

/-- A text at the front of the characters, and what follows it. The first argument bounds the number
of nested calls; as each call is for a shorter text, their length is enough. -/
def takeRaw : Nat → List Char → Option (Raw × List Char)
  | 0, _ => none
  | n + 1, cs =>
    match skipSpace cs with
    | 'n' :: 'u' :: 'l' :: 'l' :: rest => some (.null, rest)
    | 't' :: 'r' :: 'u' :: 'e' :: rest => some (.bool true, rest)
    | 'f' :: 'a' :: 'l' :: 's' :: 'e' :: rest => some (.bool false, rest)
    | '"' :: rest => (takeString rest).map fun p => (.string p.1, p.2)
    | '[' :: rest =>
      match skipSpace rest with
      | ']' :: rest => some (.array [], rest)
      | rest => do
        let (x, rest) ← takeRaw n rest
        let (xs, rest) ← takeItems n rest
        some (.array (x :: xs), rest)
    | '\x7b' :: rest =>
      match skipSpace rest with
      | '\x7d' :: rest => some (.object [], rest)
      | rest => do
        let (m, rest) ← takeMember n rest
        let (ms, rest) ← takeMembers n rest
        some (.object (m :: ms), rest)
    | rest => (takeNumeral rest).map fun p => (.number p.1, p.2)

/-- The further items of an array up to its end. -/
def takeItems : Nat → List Char → Option (List Raw × List Char)
  | 0, _ => none
  | n + 1, cs =>
    match skipSpace cs with
    | ']' :: rest => some ([], rest)
    | ',' :: rest => do
      let (x, rest) ← takeRaw n rest
      let (xs, rest) ← takeItems n rest
      some (x :: xs, rest)
    | _ => none

/-- The further members of an object up to its end. -/
def takeMembers : Nat → List Char → Option (List (Option String × Raw) × List Char)
  | 0, _ => none
  | n + 1, cs =>
    match skipSpace cs with
    | '\x7d' :: rest => some ([], rest)
    | ',' :: rest => do
      let (m, rest) ← takeMember n rest
      let (ms, rest) ← takeMembers n rest
      some (m :: ms, rest)
    | _ => none

/-- A member of an object: key, colon, text. -/
def takeMember : Nat → List Char → Option ((Option String × Raw) × List Char)
  | 0, _ => none
  | n + 1, cs =>
    match skipSpace cs with
    | '"' :: rest => do
      let (k, rest) ← takeString rest
      match skipSpace rest with
      | ':' :: rest => do
        let (x, rest) ← takeRaw n rest
        some ((k, x), rest)
      | _ => none
    | _ => none

end

/-- Reads a whole text; only space may follow it. -/
def Raw.parse? (s : String) : Option Raw :=
  match takeRaw (s.length + 1) s.toList with
  | some (r, rest) => if (skipSpace rest).isEmpty then some r else none
  | none => none

end Patchbay.Json
