import Patchbay.Frame.Bits

/-! # State tables

Entropy coding by a machine with `2 ^ log` states. Each state stands for a symbol and says how many
bits lead on to the next state. A `Distribution` says how many states each symbol has; it is all
that has to be stored, since the table follows from it (`StateTable.ofDistribution`).
-/

namespace Patchbay.Frame

/-- How many states stand for a symbol. -/
inductive Share where
  | states (n : Nat)
  /-- One state, after which nothing is left of where the machine was. -/
  | rare
  deriving Repr, DecidableEq

/-- The number of states that a share counts. -/
def Share.size : Share → Nat
  | states n => n
  | rare => 1

/-- The shares of the symbols 0, 1, 2, ... in a machine with `2 ^ log` states. -/
structure Distribution where
  log : Nat
  shares : List Share
  deriving Repr, DecidableEq

namespace Distribution

/-- A distribution given by the numbers of states, with `-1` for a rare symbol. -/
def ofList (log : Nat) (shares : List Int) : Distribution :=
  ⟨log, shares.map fun n => if n < 0 then .rare else .states n.toNat⟩

/-! ### Reading -/

/-- A number from 0 to `left`. The numbers that need it least are written in one bit less. -/
def takeShare (left : Nat) (q : BitQueue) : Nat × BitQueue :=
  let k := left.log2
  let short := 2 * Nat.pow 2 k - 1 - left
  if q.peek k < short then (q.peek k, q.skip k)
  else
    let n := q.peek (k + 1)
    (if Nat.pow 2 k ≤ n then n - short else n, q.skip (k + 1))

/-- How many more symbols have no states: two bits at a time, as long as both are set. -/
def takeGap : Nat → BitQueue → Nat × BitQueue
  | 0, q => (0, q)
  | room + 1, q =>
    let n := q.peek 2
    if n = 3 then
      let (m, q) := takeGap room (q.skip 2)
      (m + 3, q)
    else (n, q.skip 2)

/-- The shares of the further symbols, of which there is room for so many and the first ones may be
known to have no states. The number `left` is one more than the number of states that are still to
be given out. -/
def takeShares : (room left gap : Nat) → BitQueue → Option (List Share × BitQueue)
  | 0, left, _, q => if left = 1 then some ([], q) else none
  | room + 1, left, gap + 1, q =>
    (takeShares room left gap q).map fun p => (.states 0 :: p.1, p.2)
  | room + 1, left, 0, q =>
    if left = 1 then some ([], q)
    else
      match takeShare left q with
      | (0, q) => (takeShares room (left - 1) 0 q).map fun p => (.rare :: p.1, p.2)
      | (1, q) =>
        let (gap, q) := takeGap (room + 1) q
        (takeShares room left gap q).map fun p => (.states 0 :: p.1, p.2)
      | (n + 2, q) =>
        (takeShares room (left - (n + 1)) 0 q).map fun p => (.states (n + 1) :: p.1, p.2)

/-- The distribution at the front of bytes, for symbols up to `maxSymbol` and at most
`2 ^ maxLog` states. -/
def read? (maxSymbol maxLog : Nat) (bs : Bytes) : Option (Distribution × Bytes) := do
  let q : BitQueue := ⟨ofLittleEndian bs, 0⟩
  let log := 5 + q.peek 4
  if maxLog < log then none
  let (shares, q) ← takeShares (maxSymbol + 1) (Nat.pow 2 log + 1) 0 (q.skip 4)
  let (_, rest) ← takeBytes q.usedBytes bs
  some (⟨log, shares⟩, rest)

end Distribution

/-- A state of the machine: its number, its symbol, and the next state, which is `base` plus the
number that the next `bits` bits are. -/
structure CodeState where
  number : Nat
  symbol : Nat
  bits : Nat
  base : Nat
  deriving Repr, DecidableEq, Inhabited

/-- The states of a machine. -/
structure StateTable where
  log : Nat
  states : Array CodeState
  deriving Repr, DecidableEq

namespace StateTable

/-- The machine that stays with one symbol. -/
def constant (symbol : Nat) : StateTable := ⟨0, #[⟨0, symbol, 0, 0⟩]⟩

/-- The machine that gives the next `log` bits as they are. -/
def plain (log : Nat) : StateTable :=
  ⟨log, ((List.range (Nat.pow 2 log)).map fun n => ⟨n, n, log, 0⟩).toArray⟩

/-- The symbol of each state. Rare symbols have the last states, the first of them the very last;
the others are spread over the rest by steps of a fixed width. -/
def symbols (d : Distribution) : Array Nat :=
  let size := Nat.pow 2 d.log
  let numbered := d.shares.zipIdx
  let rare := numbered.filterMap fun e => if e.1 = .rare then some e.2 else none
  let others := numbered.flatMap fun e =>
    match e.1 with
    | .states n => List.replicate n e.2
    | .rare => []
  let free := size - rare.length
  let step := size / 2 + size / 8 + 3
  let places := ((List.range size).map fun k => k * step % size).filter (· < free)
  let table := (places.zip others).foldl (fun t e => t.setIfInBounds e.1 e.2)
    (Array.replicate size 0)
  rare.zipIdx.foldl (fun t e => t.setIfInBounds (size - 1 - e.2) e.1) table

/-- The states of a symbol number its occurrences upwards from its share; the number decides how
many bits lead on, and where to. -/
def ofDistribution (d : Distribution) : StateTable :=
  let size := Nat.pow 2 d.log
  let start : Array CodeState × Array Nat := (#[], (d.shares.map Share.size).toArray)
  let (states, _) := (symbols d).foldl (fun (states, next) symbol =>
    let n := next.getD symbol 1
    let bits := d.log - n.log2
    (states.push ⟨states.size, symbol, bits, n * Nat.pow 2 bits - size⟩,
      next.setIfInBounds symbol (n + 1))) start
  ⟨d.log, states⟩

/-- A state by its number. -/
def state (t : StateTable) (n : Nat) : CodeState := t.states.getD n default

/-- The first state, and the bits after it. -/
def start? (t : StateTable) (s : BitStack) : Option (CodeState × BitStack) :=
  (s.take? t.log).map fun p => (t.state p.1, p.2)

/-- The state after a state, and the bits after it. -/
def next? (t : StateTable) (c : CodeState) (s : BitStack) : Option (CodeState × BitStack) :=
  (s.take? c.bits).map fun p => (t.state (c.base + p.1), p.2)

/-! ### Bits that may run out -/

/-- The first state, and the bits after it. -/
def start (t : StateTable) (s : LooseBits) : CodeState × LooseBits :=
  let (n, s) := s.take t.log
  (t.state n, s)

/-- The state after a state, and the bits after it. -/
def next (t : StateTable) (c : CodeState) (s : LooseBits) : CodeState × LooseBits :=
  let (n, s) := s.take c.bits
  (t.state (c.base + n), s)

end StateTable

end Patchbay.Frame
