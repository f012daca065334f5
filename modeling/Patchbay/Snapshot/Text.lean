import Patchbay.Frame.Content
import Patchbay.Json.Bytes
import Patchbay.Json.Shape
import Patchbay.Snapshot.Basic

/-! # Snapshots as text

The JSON form of snapshots and of their parts, written (`toRaw`) and read (`shape`). In a snapshot
only ids, kinds and the ends of wires have to be there; everything else has a default. A text can be
packed into bytes, and is the same text when it is unpacked (`unpack_pack`).
-/

namespace Patchbay

open Json

/-- A floating-point number as JSON; what is not finite becomes null. -/
def rawFloat (x : Float) : Raw := (Value.ofFloat x).toRaw

/-- The members of a table as a JSON object. -/
def rawTable (t : PortValues) : Raw := (Value.ofTable t).toRaw

namespace Position

def toRaw (p : Position) : Raw := .record [("x", rawFloat p.x), ("y", rawFloat p.y)]

def shape : Reader Position := fun levels r => do
  let f ← Fields.read? ["x", "y"] levels r
  let x ← f.required "x" Reader.float
  let y ← f.required "y" Reader.float
  some { x, y }

end Position

namespace Wire

def toRaw (w : Wire) : Raw :=
  .record [("source", .text w.source), ("sourcePort", .text w.sourcePort),
    ("target", .text w.target), ("targetPort", .text w.targetPort)]

def shape : Reader Wire := fun levels r => do
  let f ← Fields.read? ["source", "sourcePort", "target", "targetPort"] levels r
  let source ← f.required "source" Reader.text
  let sourcePort ← f.required "sourcePort" Reader.text
  let target ← f.required "target" Reader.text
  let targetPort ← f.required "targetPort" Reader.text
  some { source, sourcePort, target, targetPort }

end Wire

namespace FlowMode

def toRaw (m : FlowMode) : Raw := .text m.word

def shape : Reader FlowMode := fun levels r => do ofWord? (← Reader.name levels r)

end FlowMode

/-- The settings of a patch. -/
structure Settings where
  /-- Whether kinds may have control ports. -/
  supportsFlow : Bool
  deriving Repr, DecidableEq

namespace Settings

def toRaw (s : Settings) : Raw := .record [("supportsFlow", .bool s.supportsFlow)]

/-- Control is supported unless the text says otherwise. -/
def shape : Reader Settings := fun levels r => do
  let f ← Fields.read? ["supportsFlow"] levels r
  let supportsFlow ← f.optional "supportsFlow" true Reader.bool
  some { supportsFlow }

end Settings

namespace NodeState

def toRaw (s : NodeState) : Raw :=
  .record [("id", .text s.id), ("typeId", .text s.kind), ("position", s.position.toRaw),
    ("inputs", rawTable s.inputs), ("outputs", rawTable s.outputs), ("data", s.data.toRaw)]

def shape : Reader NodeState := fun levels r => do
  let f ← Fields.read? ["id", "typeId", "position", "inputs", "outputs", "data"] levels r
  let id ← f.required "id" Reader.text
  let kind ← f.required "typeId" Reader.text
  let position ← f.optional "position" .origin Position.shape
  let inputs ← f.optional "inputs" ∅ (Reader.table Reader.value)
  let outputs ← f.optional "outputs" ∅ (Reader.table Reader.value)
  let data ← f.optional "data" .null Reader.value
  some { id, kind, position, inputs, outputs, data }

end NodeState

namespace Snapshot

def toRaw (s : Snapshot) : Raw :=
  .record [("nodes", .array (s.nodes.map NodeState.toRaw)),
    ("connections", .array (s.wires.map Wire.toRaw))]

def shape : Reader Snapshot := fun levels r => do
  let f ← Fields.read? ["nodes", "connections"] levels r
  let nodes ← f.required "nodes" (Reader.list NodeState.shape)
  let wires ← f.required "connections" (Reader.list Wire.shape)
  some { nodes, wires }

/-- The text of a snapshot. -/
def toText (s : Snapshot) : String := s.toRaw.toText

/-- The snapshot that a text spells. -/
def ofText (s : String) : Except Error Snapshot :=
  match shape.parse? s with
  | some s => .ok s
  | none => .error (.unreadable "the text spells no snapshot")

/-- The text of a snapshot as a frame of bytes. -/
def pack (s : Snapshot) : Frame.Bytes := Frame.pack s.toText.toUTF8.data.toList

/-- The snapshot whose text is in frames of bytes. -/
def unpack (bs : Frame.Bytes) : Except Error Snapshot :=
  match Frame.unpack bs with
  | none => .error (.unpackable "the bytes are no frames")
  | some text => ofText (textOfBytes ⟨text.toArray⟩)

/-- The text that was packed is the one that is read. -/
theorem unpack_pack (s : Snapshot) : unpack s.pack = ofText s.toText := by
  rw [unpack, pack, Frame.unpack_pack]
  dsimp only
  rw [Array.toArray_toList, textOfBytes_toUTF8]

theorem exists_of_ofText_eq_error {text : String} {e : Error} (h : ofText text = .error e) :
    ∃ reason, e = .unreadable reason := by
  unfold ofText at h
  split at h
  · cases h
  · exact ⟨_, (Except.error.inj h).symm⟩

/-- Unpacking fails for want of a frame, or for want of a snapshot. -/
theorem exists_of_unpack_eq_error {bs : Frame.Bytes} {e : Error} (h : unpack bs = .error e) :
    ∃ reason, e = .unreadable reason ∨ e = .unpackable reason := by
  unfold unpack at h
  split at h
  · exact ⟨_, .inr (Except.error.inj h).symm⟩
  · obtain ⟨reason, he⟩ := exists_of_ofText_eq_error h
    exact ⟨reason, .inl he⟩

end Snapshot

end Patchbay
