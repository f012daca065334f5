import Patchbay.Table

/-! # Contexts

What the host of a run shares with the calculations: entries of four kinds by key. A reader asks for
an entry of one kind, and finds nothing if the key holds another.
-/

namespace Patchbay

/-- An entry that a host shares with a run. -/
inductive Entry where
  | text (s : String)
  /-- An unsigned 64-bit word. -/
  | word (n : Nat)
  | flag (b : Bool)
  /-- A list of lines that calculations append to. -/
  | printLog
  deriving Repr, DecidableEq

namespace Entry

def word? : Entry → Option Nat
  | word n => some n
  | _ => none

def isPrintLog : Entry → Bool
  | printLog => true
  | _ => false

end Entry

/-- The entries that a host shares with a run, by key. -/
abbrev Context := Table String Entry

namespace Context

/-- The key that the lines of print nodes are collected under. -/
def printLogKey : String := "print_log"

/-- A context that collects what is printed. -/
def printing : Context := Table.singleton printLogKey .printLog

/-- Whether the context collects what is printed. -/
def hasPrintLog (c : Context) : Bool := (c.find? printLogKey).any Entry.isPrintLog

/-- The word under a key, if there is one. -/
def word? (c : Context) (key : String) : Option Nat := (c.find? key).bind Entry.word?

/-- The context of a run over built-in nodes. -/
def initial (prints : Bool) : Context := if prints then printing else ∅

end Context

end Patchbay
