import Patchbay.Snapshot.Text

/-! # Run events

What a host is told while a run goes on, and its JSON form. The form of an event is named by the
member `type`.
-/

namespace Patchbay

open Json

/-- Something that happens in a run. Every event carries the id of the run. -/
inductive RunEvent where
  | runStarted (run node : String)
  /-- The calculation of a node ended with outputs. -/
  | nodeEvaluated (run node : String) (outputs : PortValues)
  /-- Control goes on from a port of a node that is being evaluated. -/
  | flowFired (run source port target : String)
  | runCompleted (run : String)
  | runFailed (run error : String)

namespace RunEvent

/-- The id of the run. -/
def run : RunEvent → String
  | runStarted run _ | nodeEvaluated run _ _ | flowFired run _ _ _ | runCompleted run
  | runFailed run _ => run

def toRaw : RunEvent → Raw
  | runStarted run node =>
    .record [("type", .text "runStarted"), ("runId", .text run), ("nodeId", .text node)]
  | nodeEvaluated run node outputs =>
    .record [("type", .text "nodeEvaluated"), ("runId", .text run), ("nodeId", .text node),
      ("outputs", rawTable outputs)]
  | flowFired run source port target =>
    .record [("type", .text "flowFired"), ("runId", .text run), ("source", .text source),
      ("port", .text port), ("target", .text target)]
  | runCompleted run => .record [("type", .text "runCompleted"), ("runId", .text run)]
  | runFailed run error =>
    .record [("type", .text "runFailed"), ("runId", .text run), ("error", .text error)]

/-- The fields of an event of a given form. -/
def fieldNames? : String → Option (List String)
  | "runStarted" => some ["runId", "nodeId"]
  | "nodeEvaluated" => some ["runId", "nodeId", "outputs"]
  | "flowFired" => some ["runId", "source", "port", "target"]
  | "runCompleted" => some ["runId"]
  | "runFailed" => some ["runId", "error"]
  | _ => none

def shape : Reader RunEvent := fun levels r => do
  let (form, f) ← Fields.readTagged? "type" fieldNames? levels r
  let run ← f.required "runId" Reader.text
  match form with
  | "runStarted" => some (runStarted run (← f.required "nodeId" Reader.text))
  | "nodeEvaluated" =>
    let node ← f.required "nodeId" Reader.text
    some (nodeEvaluated run node (← f.required "outputs" (Reader.table Reader.value)))
  | "flowFired" =>
    let source ← f.required "source" Reader.text
    let port ← f.required "port" Reader.text
    some (flowFired run source port (← f.required "target" Reader.text))
  | "runCompleted" => some (runCompleted run)
  | "runFailed" => some (runFailed run (← f.required "error" Reader.text))
  | _ => none

end RunEvent

end Patchbay
