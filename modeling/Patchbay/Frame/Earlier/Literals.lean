import Patchbay.Frame.Earlier.Code
import Patchbay.Frame.Literals

/-! # Literals in earlier formats

From the fifth format on the form and the sizes stand at the front with the highest digit first; in
the fourth format sizes have a fixed width. Literals are copied in words of eight bytes, so it is of
interest what stands behind them.
-/

namespace Patchbay.Frame

/-! ### Coded literals -/

namespace Edition

/-- How long reading takes. -/
def costs : List (CodeReader.Cost × CodeReader.Cost) :=
  [(⟨0, 0⟩, ⟨1, 1⟩), (⟨0, 0⟩, ⟨1, 1⟩), (⟨38, 130⟩, ⟨1313, 74⟩), (⟨448, 128⟩, ⟨1353, 74⟩),
    (⟨556, 128⟩, ⟨1353, 74⟩), (⟨714, 128⟩, ⟨1418, 74⟩), (⟨883, 128⟩, ⟨1437, 74⟩),
    (⟨897, 128⟩, ⟨1515, 75⟩), (⟨926, 128⟩, ⟨1613, 75⟩), (⟨947, 128⟩, ⟨1729, 77⟩),
    (⟨1107, 128⟩, ⟨2083, 81⟩), (⟨1177, 128⟩, ⟨2379, 87⟩), (⟨1242, 128⟩, ⟨2415, 93⟩),
    (⟨1349, 128⟩, ⟨2644, 106⟩), (⟨1455, 128⟩, ⟨2422, 124⟩), (⟨722, 128⟩, ⟨1891, 145⟩)]

/-- Whether so many literals are read by pairs. -/
def readsPairs (e : Edition) (size packed : Nat) : Bool :=
  CodeReader.prefersPairs costs (if e = .seventh then 8 else 16) size packed

/-- The longest codes that there may be. -/
def codeLimit (e : Edition) (byPairs : Bool) : Nat := if e = .seventh ∧ !byPairs then 13 else 12

/-- Decodes literals that are packed under a code of their own into one stream or into four. The
sizes have to fit together for four, and in the fifth format for one stream too. -/
def decodeLiterals (e : Edition) (four : Bool) (size : Nat) (packed : Bytes) :
    Option (Array UInt8 × Option CodeReader) := do
  let byPairs := four && e.readsPairs size packed.length
  if !four then
    let (code, bs) ← e.takeCode (e.codeLimit false) packed
    if e = .fifth ∧ size ≤ bs.length then none
    some (← CodeReader.decode? ⟨code, none⟩ size bs #[], some ⟨code, none⟩)
  else if size < packed.length ∨ size = 0 then none
  else if size = packed.length then
    if e = .fourth ∨ e = .sixth then some (packed.toArray, none) else none
  else
    match e, packed with
    | .fourth, [b] | .fifth, [b] | .sixth, [b] => some (Array.replicate size b, none)
    | _, packed =>
      let (code, bs) ← e.takeCode (e.codeLimit byPairs) packed
      let reader : CodeReader := ⟨code, if byPairs then some 12 else none⟩
      some (← reader.decodeEach? size (← takeFour bs), some reader)

end Edition

/-! ### Sections -/

/-- The literals of a block with the eight bytes that stand behind them in memory. -/
structure PaddedLiterals extends Literals where
  padding : Bytes

/-- Literals in memory of their own. Nothing stands behind them. -/
def PaddedLiterals.apart (bytes : Array UInt8) (code : Option CodeReader) (rest : Bytes) :
    PaddedLiterals :=
  ⟨⟨bytes, code, rest⟩, List.replicate 8 0⟩

/-- One byte that is repeated, behind the literals too. -/
def PaddedLiterals.repeated (b : UInt8) (size : Nat) (code : Option CodeReader) (rest : Bytes) :
    PaddedLiterals :=
  ⟨⟨Array.replicate size b, code, rest⟩, List.replicate 8 b⟩

namespace Edition

/-- The size of literals that are not coded, and the bytes after it. -/
def takeSize (bs : Bytes) : Option (Nat × Bytes) := do
  let head ← bs.head?
  let (width, range) :=
    match head.toNat / 16 % 4 with
    | 2 => (2, 4096)
    | 3 => (3, 1048576)
    | _ => (1, 32)
  let (digits, bs) ← takeBytes width bs
  some (ofBigEndian digits % range, bs)

/-- The layout of coded literals, and the bytes after it. -/
def takeLayout (bs : Bytes) : Option (Literals.Layout × Bytes) := do
  let head ← bs.head?
  let format := head.toNat / 16 % 4
  let (width, bits) :=
    match format with
    | 2 => (4, 14)
    | 3 => (5, 18)
    | _ => (3, 10)
  let (digits, bs) ← takeBytes width bs
  let n := ofBigEndian digits
  some (⟨n / Nat.pow 2 bits % Nat.pow 2 bits, n % Nat.pow 2 bits, format ≠ 1⟩, bs)

/-- The literals at the front of a block from the fifth format on. Plain ones stay where they are if
enough bytes follow. -/
def takeLaterLiterals (e : Edition) (code : Option CodeReader) (bs : Bytes) :
    Option PaddedLiterals := do
  let head ← bs.head?
  if bs.length < 3 then none
  match head.toNat / 64 with
  | 0 =>
    if bs.length < 5 then none
    let (l, bs) ← takeLayout bs
    if blockLimit < l.size then none
    let (packed, rest) ← takeBytes l.packed bs
    let (bytes, code) ← e.decodeLiterals l.four l.size packed
    some (.apart bytes code rest)
  | 1 =>
    -- Only a code that has been prepared for pairs is used again.
    let (l, bs) ← takeLayout bs
    let reader ← code.filter (·.pairs.isSome)
    if l.four ∨ e ≠ .seventh then none
    let (packed, rest) ← takeBytes l.packed bs
    some (.apart (← reader.decode? l.size packed #[]) code rest)
  | 2 =>
    let (size, bs) ← takeSize bs
    let (bytes, rest) ← takeBytes size bs
    if rest.length < 8 then some (.apart bytes.toArray code rest)
    else some ⟨⟨bytes.toArray, code, rest⟩, rest.take 8⟩
  | _ =>
    let (size, bs) ← takeSize bs
    if blockLimit < size then none
    match bs with
    | [] => none
    | b :: rest => some (.repeated b size code rest)

/-- The literals at the front of a block in the fourth format. Plain ones that reach close to the
end of the block are taken from the front of the section, its header included. -/
def takeFourthLiterals (block : Bytes) : Option PaddedLiterals := do
  let head ← block.head?
  if block.length < 11 then none
  let (header, bs) ← takeNumber 3 block
  let size := header / 4
  match head.toNat % 4 with
  | 0 =>
    let (header, bs) ← takeNumber 5 block
    let size := header / 4 % Nat.pow 2 19
    if blockLimit < size then none
    let (packed, rest) ← takeBytes (header / Nat.pow 2 21 % Nat.pow 2 19) bs
    let (bytes, _) ← decodeLiterals .fourth true size packed
    some (.apart bytes none rest)
  | 1 =>
    let (bytes, rest) ← takeBytes size bs
    if rest.length < 8 then some (.apart (block.take size).toArray none rest)
    else some ⟨⟨bytes.toArray, none, rest⟩, rest.take 8⟩
  | 2 =>
    if blockLimit < size then none
    match bs with
    | [] => none
    | b :: rest => some (.repeated b size none rest)
  | _ => none

/-- The literals at the front of a block. -/
def takeLiterals (e : Edition) (code : Option CodeReader) (bs : Bytes) : Option PaddedLiterals :=
  match e with
  | .fourth => takeFourthLiterals bs
  | _ => e.takeLaterLiterals code bs

end Edition

end Patchbay.Frame
