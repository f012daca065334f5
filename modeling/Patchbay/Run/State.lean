import Patchbay.Run.Event

/-! # The state of a run

What a run over a graph remembers, and the actions on it. An action ends with a result, with an
error, or because its allowance of steps is used up; the state up to that point stays in all three
cases. All that a host could notice is appended to the trace of the state: what is calculated from
which inputs, which events are sent, and what is printed.
-/

namespace Patchbay

/-- Something that happens while a run goes on. -/
inductive Step where
  /-- A value is taken for a node over a wire, from the given outputs of all nodes. -/
  | received (node : String) (wire : WireId) (value : Value) (cache : Table String PortValues)
  /-- The calculation of a node starts from these inputs. -/
  | calculated (node : String) (inputs : PortValues)
  /-- A node that is being evaluated makes outputs known. -/
  | published (node : String) (outputs : PortValues)
  /-- An event is sent to the host. -/
  | event (e : RunEvent)
  /-- The host does not take an event. -/
  | undelivered (reason : String)
  | printed (line : String)
  | informed (line : String)

namespace Step

def event? : Step → Option RunEvent
  | event e => some e
  | _ => none

def printed? : Step → Option String
  | printed line => some line
  | _ => none

end Step

/-- What a run remembers. -/
structure RunState where
  /-- What the host shares with the calculations. -/
  context : Context
  /-- The outputs that nodes have in the current run. -/
  cache : Table String PortValues
  /-- The nodes that are being evaluated, the innermost first. -/
  evaluating : List String
  /-- How many runs have been started. -/
  runs : Nat
  trace : Array Step

namespace RunState

/-- Before the first run. -/
def initial (context : Context) : RunState where
  context := context
  cache := ∅
  evaluating := []
  runs := 0
  trace := #[]

/-- The id of the current run. -/
def runId (s : RunState) : String := "run-" ++ toString s.runs

/-- The value of an output in the current run. -/
def output? (s : RunState) (node port : String) : Option Value := do
  (← s.cache.find? node).find? port

/-- The events of the trace. -/
def events (s : RunState) : List RunEvent := s.trace.toList.filterMap Step.event?

/-- The lines printed in the trace. -/
def printed (s : RunState) : List String := s.trace.toList.filterMap Step.printed?

end RunState

/-- How an action ends. -/
inductive Outcome (α : Type) where
  | done (a : α)
  | failed (e : Error)
  /-- The allowance of steps is used up. -/
  | exhausted
  deriving Repr, DecidableEq

/-- An action on the state of a run. -/
def RunM (α : Type) : Type := RunState → Outcome α × RunState

namespace RunM

variable {α β : Type}

/-- Runs an action. -/
def run (m : RunM α) (s : RunState) : Outcome α × RunState := m s

instance : Monad RunM where
  pure a := fun s => (.done a, s)
  bind m k := fun s =>
    match m s with
    | (.done a, s) => k a s
    | (.failed e, s) => (.failed e, s)
    | (.exhausted, s) => (.exhausted, s)

/-- Ends with an error. -/
def fail (e : Error) : RunM α := fun s => (.failed e, s)

/-- Ends because the allowance of steps is used up. -/
def exhaust : RunM α := fun s => (.exhausted, s)

/-- The state. -/
def read : RunM RunState := fun s => (.done s, s)

/-- Changes the state. -/
def change (f : RunState → RunState) : RunM Unit := fun s => (.done (), f s)

/-- Makes an error of the action its result. -/
def attempt (m : RunM α) : RunM (Except Error α) := fun s =>
  match m s with
  | (.done a, s) => (.done (.ok a), s)
  | (.failed e, s) => (.done (.error e), s)
  | (.exhausted, s) => (.exhausted, s)

/-- Appends a step to the trace. -/
def log (step : Step) : RunM Unit := change fun s => { s with trace := s.trace.push step }

/-- While the action runs, the node is among those being evaluated. -/
def within (node : String) (m : RunM α) : RunM α := fun s =>
  -- The node is taken off the list again, however the action ends.
  let (r, s) := m { s with evaluating := node :: s.evaluating }
  (r, { s with evaluating := s.evaluating.tail })

end RunM

end Patchbay
