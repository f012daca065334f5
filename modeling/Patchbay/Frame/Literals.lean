import Patchbay.Frame.FourStreams

/-! # Literals

The first section of a compressed block: the bytes that are not copied from earlier content. They
are stored as they are, or as one byte and its number, or under a code for bytes. The code stands
before the bytes, or it is the one of the last coded literals in the frame.
-/

namespace Patchbay.Frame

/-- How the literals of a block are written. -/
inductive LiteralForm where
  | plain
  | repeated
  /-- Under a code that comes first. -/
  | coded
  /-- Under the code of the last coded literals. -/
  | codedAgain
  deriving Repr, DecidableEq

namespace LiteralForm

/-- The form that the lowest two bits of a section stand for. -/
def ofCode (n : Nat) : LiteralForm :=
  match n % 4 with
  | 0 => plain
  | 1 => repeated
  | 2 => coded
  | _ => codedAgain

end LiteralForm

/-- The literals of a block, the code for the next block, and the bytes after the section. -/
structure Literals where
  bytes : Array UInt8
  code : Option CodeReader
  rest : Bytes

namespace Literals

/-- The size of literals that are not coded, and the bytes after it. -/
def takeSize (bs : Bytes) : Option (Nat × Bytes) := do
  let head ← bs.head?
  let (width, shift) :=
    match head.toNat / 4 % 4 with
    | 1 => (2, 4)
    | 3 => (3, 4)
    | _ => (1, 3)
  let (n, bs) ← takeNumber width bs
  some (n / Nat.pow 2 shift, bs)

/-- How coded literals are laid out. -/
structure Layout where
  /-- The number of literals. -/
  size : Nat
  /-- The number of bytes that the code and its streams take. -/
  packed : Nat
  /-- Whether there are four streams and not one. -/
  four : Bool
  deriving Repr, DecidableEq

/-- The layout of coded literals, and the bytes after it. There are always five bytes, whatever the
layout takes. -/
def takeLayout (bs : Bytes) : Option (Layout × Bytes) := do
  let head ← bs.head?
  let format := head.toNat / 4 % 4
  let (width, bits) :=
    match format with
    | 2 => (4, 14)
    | 3 => (5, 18)
    | _ => (3, 10)
  if bs.length < 5 then none
  let (n, bs) ← takeNumber width bs
  let n := n / 16
  some (⟨n % Nat.pow 2 bits, n / Nat.pow 2 bits, format ≠ 0⟩, bs)

/-- How long reading takes. -/
def costs : List (CodeReader.Cost × CodeReader.Cost) :=
  [(⟨0, 0⟩, ⟨1, 1⟩), (⟨0, 0⟩, ⟨1, 1⟩), (⟨150, 216⟩, ⟨381, 119⟩), (⟨170, 205⟩, ⟨514, 112⟩),
    (⟨177, 199⟩, ⟨539, 110⟩), (⟨197, 194⟩, ⟨644, 107⟩), (⟨221, 192⟩, ⟨735, 107⟩),
    (⟨256, 189⟩, ⟨881, 106⟩), (⟨359, 188⟩, ⟨1167, 109⟩), (⟨582, 187⟩, ⟨1570, 114⟩),
    (⟨688, 187⟩, ⟨1712, 122⟩), (⟨825, 186⟩, ⟨1965, 136⟩), (⟨976, 185⟩, ⟨2131, 150⟩),
    (⟨1180, 186⟩, ⟨2070, 175⟩), (⟨1377, 185⟩, ⟨1731, 202⟩), (⟨1412, 185⟩, ⟨1695, 202⟩)]

/-- A code that has been prepared for the literals that follow it. Only four streams are read by
pairs. -/
def prepare (code : PrefixCode) (l : Layout) : CodeReader :=
  let byPairs := l.four && CodeReader.prefersPairs costs 32 l.size l.packed
  ⟨code, if byPairs then some (max code.log 11) else none⟩

/-- Decodes the streams of literals. -/
def decode (r : CodeReader) (l : Layout) (bs : Bytes) : Option (Array UInt8) :=
  if l.four then r.decodeFour? l.size bs else r.decode? l.size bs #[]

/-- The literals at the front of a block, of which there may be `limit`. The code is the one of the
last coded literals. -/
def take (limit : Nat) (code : Option CodeReader) (bs : Bytes) : Option Literals := do
  let head ← bs.head?
  if bs.length < 2 then none
  match LiteralForm.ofCode head.toNat with
  | .plain =>
    let (size, bs) ← takeSize bs
    if limit < size then none
    let (bytes, rest) ← takeBytes size bs
    some ⟨bytes.toArray, code, rest⟩
  | .repeated =>
    let (size, bs) ← takeSize bs
    if limit < size then none
    match bs with
    | [] => none
    | b :: rest => some ⟨Array.replicate size b, code, rest⟩
  | .coded =>
    let (l, bs) ← takeLayout bs
    if limit < l.size then none
    let (packed, rest) ← takeBytes l.packed bs
    let (code, streams) ← PrefixCode.read? packed
    let reader := prepare code l
    let bytes ← decode reader l streams
    some ⟨bytes, some reader, rest⟩
  | .codedAgain =>
    let (l, bs) ← takeLayout bs
    if limit < l.size then none
    let (packed, rest) ← takeBytes l.packed bs
    let bytes ← decode (← code) l packed
    some ⟨bytes, code, rest⟩

end Literals

end Patchbay.Frame
