import Patchbay.Json.Value

/-! # JSON as it is written

A `Raw` is a JSON text without its spacing: numbers are numerals, and an object lists its members in
the order of the text, repeated keys included. Values are written as `Raw`s (`Value.toRaw`), and
`Raw.render` gives the characters, without any space.
-/

namespace Patchbay.Json

/-- A JSON text without its spacing. A string is `none` if it holds half of a surrogate pair, which
no character sequence spells. -/
inductive Raw where
  | null
  | bool (b : Bool)
  | number (n : Decimal.Numeral)
  | string (s : Option String)
  | array (items : List Raw)
  | object (members : List (Option String × Raw))
  deriving Inhabited

/-- The lower-case hexadecimal digit of a number below 16. -/
def hexChar (n : Nat) : Char := if n < 10 then Char.ofNat (48 + n) else Char.ofNat (87 + n)

/-- A character inside quotes. Only quotes, backslashes and control characters are escaped. -/
def escape (c : Char) : List Char :=
  if c = '"' then ['\\', '"']
  else if c = '\\' then ['\\', '\\']
  else if c = '\x08' then ['\\', 'b']
  else if c = '\x0c' then ['\\', 'f']
  else if c = '\n' then ['\\', 'n']
  else if c = '\r' then ['\\', 'r']
  else if c = '\t' then ['\\', 't']
  else if c.toNat < 0x20 then ['\\', 'u', '0', '0', hexChar (c.toNat / 16), hexChar (c.toNat % 16)]
  else [c]

/-- A quoted string. Half of a surrogate pair is written as the lowest such half. -/
def quote : Option String → List Char
  | some s => '"' :: s.toList.flatMap escape ++ ['"']
  | none => ['"', '\\', 'u', 'd', '8', '0', '0', '"']

namespace Raw

mutual

/-- The characters of a JSON text, without spaces. -/
def render : Raw → List Char
  | null => ['n', 'u', 'l', 'l']
  | bool true => ['t', 'r', 'u', 'e']
  | bool false => ['f', 'a', 'l', 's', 'e']
  | number n => n.render
  | string s => quote s
  | array [] => ['[', ']']
  | array (x :: xs) => '[' :: (render x ++ renderItems xs)
  | object [] => ['\x7b', '\x7d']
  | object ((k, x) :: ms) => '\x7b' :: (quote k ++ ':' :: (render x ++ renderMembers ms))

/-- The further items of an array and its end. -/
def renderItems : List Raw → List Char
  | [] => [']']
  | x :: xs => ',' :: (render x ++ renderItems xs)

/-- The further members of an object and its end. -/
def renderMembers : List (Option String × Raw) → List Char
  | [] => ['\x7d']
  | (k, x) :: ms => ',' :: (quote k ++ ':' :: (render x ++ renderMembers ms))

end

/-- The object with these members in this order. -/
def record (ms : List (String × Raw)) : Raw := object (ms.map fun m => (some m.1, m.2))

/-- The text of a string. -/
def text (s : String) : Raw := string (some s)

/-- The text of a whole number. -/
def ofNat (n : Nat) : Raw := number (.ofInt n)

/-- The JSON text as a string. -/
def toText (r : Raw) : String := String.ofList r.render

end Raw

end Patchbay.Json

namespace Patchbay.Value

open Json

mutual

/-- The value as it is written. -/
def toRaw : Value → Raw
  | null => .null
  | bool b => .bool b
  | number n => .number n.toNumeral
  | string s => .string (some s)
  | array xs => .array (toRawItems xs)
  | object ms => .object (toRawMembers ms)

def toRawItems : List Value → List Raw
  | [] => []
  | x :: xs => toRaw x :: toRawItems xs

def toRawMembers : List (String × Value) → List (Option String × Raw)
  | [] => []
  | (k, x) :: ms => (some k, toRaw x) :: toRawMembers ms

end

/-- The JSON text of a value, without spaces. -/
def toText (v : Value) : String := v.toRaw.toText

end Patchbay.Value
