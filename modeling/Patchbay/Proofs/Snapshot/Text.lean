import Patchbay.Proofs.Json.Shapes
import Patchbay.Snapshot.Text

/-!
# Snapshots are read as they are written

The text of a snapshot is read as this snapshot if its floating-point numbers are read back and it
nests no deeper than texts may. A text that was not written as the text of a snapshot may be read as
one as well: fields may be missing, unknown, or not named at all, and keys may be repeated. The
snapshot nests no deeper than texts may, so it can be written and read again.

## Key results

- `Snapshot.ofText_toText`: a snapshot is read from its text
- `Snapshot.of_ofText`: what is read from any text
- `Snapshot.persists`: what was written or read once is read the same from then on
-/

namespace Patchbay

open Json

/-! ### Coordinates -/

theorem depth_rawFloat (x : Float) : (rawFloat x).depth = 0 := by
  unfold rawFloat Value.ofFloat
  cases Number.ofFloat? x with
  | none => rfl
  | some n => rfl

theorem reads_float {x : Float} (h : ReadsBack x) : Reads Reader.float x (rawFloat x) := by
  intro levels _
  obtain ⟨hx, _⟩ := Number.ofNumeral?_ofFloat h
  have hraw : rawFloat x = .number (Number.layout.ofFloat x) := by
    have hnumber : Number.ofFloat? x = some (.float x hx) := dif_pos hx
    unfold rawFloat Value.ofFloat
    rw [hnumber]
    rfl
  rw [hraw]
  exact h

namespace Position

/-- Both coordinates are read back. -/
structure Legible (p : Position) : Prop where
  x : ReadsBack p.x
  y : ReadsBack p.y

instance (p : Position) : Decidable p.Legible :=
  decidable_of_iff (ReadsBack p.x ∧ ReadsBack p.y) ⟨fun ⟨x, y⟩ => ⟨x, y⟩, fun ⟨x, y⟩ => ⟨x, y⟩⟩

theorem written_toRaw (p : Position) : p.toRaw.Written := by
  apply Raw.written_record
  simp [rawFloat, Value.written_toRaw]

theorem depth_toRaw_le (p : Position) : p.toRaw.depth ≤ 1 := by
  apply Raw.depth_record_le
  simp [depth_rawFloat]

theorem reads_shape {p : Position} (h : p.Legible) : Reads shape p p.toRaw := by
  intro levels hd
  obtain ⟨l, hf, hl⟩ := Fields.read?_record (by decide : ["x", "y"].Nodup) rfl hd
  unfold shape toRaw
  rw [hf]
  simp only [Option.bind_eq_bind, Option.bind_some, Option.bind_eq_some_iff]
  exact ⟨p.x, Fields.required_eq_some hl rfl (reads_float h.x),
    p.y, Fields.required_eq_some hl rfl (reads_float h.y), rfl⟩

end Position

/-! ### Wires -/

namespace Wire

theorem written_toRaw (w : Wire) : w.toRaw.Written := by
  apply Raw.written_record
  simp [Raw.text, Raw.Written]

theorem depth_toRaw_le (w : Wire) : w.toRaw.depth ≤ 1 := by
  apply Raw.depth_record_le
  simp [Raw.text, Raw.depth]

theorem reads_shape (w : Wire) : Reads shape w w.toRaw := by
  intro levels hd
  obtain ⟨l, hf, hl⟩ := Fields.read?_record
    (by decide : ["source", "sourcePort", "target", "targetPort"].Nodup) rfl hd
  unfold shape toRaw
  rw [hf]
  simp only [Option.bind_eq_bind, Option.bind_some, Option.bind_eq_some_iff]
  exact ⟨w.source, Fields.required_eq_some hl rfl (reads_text w.source),
    w.sourcePort, Fields.required_eq_some hl rfl (reads_text w.sourcePort),
    w.target, Fields.required_eq_some hl rfl (reads_text w.target),
    w.targetPort, Fields.required_eq_some hl rfl (reads_text w.targetPort), rfl⟩

theorem of_shape {levels : Nat} {x : Raw} {w : Wire} (h : shape levels x = some w) :
    1 ≤ levels := by
  unfold shape at h
  obtain ⟨f, hf, _⟩ := Option.bind_eq_some_iff.1 h
  rw [Fields.of_read? hf]
  exact Nat.le_add_left 1 f.levels

end Wire

/-! ### Nodes -/

namespace NodeState

/-- The keys of the values and of the data ascend. -/
structure Ordered (s : NodeState) : Prop where
  inputs : (Value.ofTable s.inputs).Ordered
  outputs : (Value.ofTable s.outputs).Ordered
  data : s.data.Ordered

/-- All numbers of the state are read back. -/
structure Legible (s : NodeState) : Prop where
  position : s.position.Legible
  inputs : (Value.ofTable s.inputs).Legible
  outputs : (Value.ofTable s.outputs).Legible
  data : s.data.Legible

instance (s : NodeState) : Decidable s.Legible :=
  decidable_of_iff (s.position.Legible ∧ (Value.ofTable s.inputs).Legible ∧
      (Value.ofTable s.outputs).Legible ∧ s.data.Legible)
    ⟨fun ⟨position, inputs, outputs, data⟩ => ⟨position, inputs, outputs, data⟩,
      fun ⟨position, inputs, outputs, data⟩ => ⟨position, inputs, outputs, data⟩⟩

theorem written_toRaw (s : NodeState) : s.toRaw.Written := by
  apply Raw.written_record
  simp [Raw.text, Raw.Written, s.position.written_toRaw, rawTable, Value.written_toRaw]

theorem reads_shape {s : NodeState} (ho : s.Ordered) (hl : s.Legible) :
    Reads shape s s.toRaw := by
  intro levels hd
  obtain ⟨l, hf, hlevels⟩ := Fields.read?_record
    (by decide : ["id", "typeId", "position", "inputs", "outputs", "data"].Nodup) rfl hd
  unfold shape toRaw
  rw [hf]
  simp only [Option.bind_eq_bind, Option.bind_some, Option.bind_eq_some_iff]
  exact ⟨s.id, Fields.required_eq_some hlevels rfl (reads_text s.id),
    s.kind, Fields.required_eq_some hlevels rfl (reads_text s.kind),
    s.position, Fields.optional_eq_some hlevels rfl _ (Position.reads_shape hl.position),
    s.inputs, Fields.optional_eq_some hlevels rfl _ (reads_table ho.inputs hl.inputs),
    s.outputs, Fields.optional_eq_some hlevels rfl _ (reads_table ho.outputs hl.outputs),
    s.data, Fields.optional_eq_some hlevels rfl _ (reads_value ho.data hl.data), rfl⟩

/-- An optional table of values was read, or it is empty. -/
theorem of_optional_table {f : Fields} {name : String} {t : PortValues}
    (h : f.optional name ∅ (Reader.table Reader.value) = some t) (hf : 1 ≤ f.levels) :
    (Value.ofTable t).Ordered ∧ (rawTable t).depth ≤ f.levels := by
  rcases Fields.of_optional h with ⟨x, hx⟩ | rfl
  · exact of_table hx
  · exact ⟨⟨List.Pairwise.nil, trivial⟩, hf⟩

/-- What is read has ascending keys and nests no deeper than was allowed. The position takes two
levels even if it was not there. -/
theorem of_shape {levels : Nat} {x : Raw} {s : NodeState} (h : shape levels x = some s)
    (hlevels : 2 ≤ levels) : s.Ordered ∧ s.toRaw.depth ≤ levels := by
  unfold shape at h
  simp only [Option.bind_eq_bind, Option.bind_eq_some_iff] at h
  obtain ⟨f, hf, id, _, kind, _, position, _, inputs, hinputs, outputs, houtputs, data, hdata,
    hstate⟩ := h
  obtain rfl := Option.some.inj hstate
  have hone : levels = f.levels + 1 := Fields.of_read? hf
  have hin := of_optional_table hinputs (by omega)
  have hout := of_optional_table houtputs (by omega)
  have hdata : data.Ordered ∧ data.toRaw.depth ≤ f.levels := by
    rcases Fields.of_optional hdata with ⟨x, hx⟩ | rfl
    · exact Value.of_value? x hx
    · exact ⟨trivial, Nat.zero_le _⟩
  have hposition : position.toRaw.depth ≤ f.levels := by
    have := position.depth_toRaw_le
    omega
  refine ⟨⟨hin.1, hout.1, hdata.1⟩, ?_⟩
  rw [hone]
  apply Raw.depth_record_le
  simp [Raw.text, Raw.depth, hposition, hin.2, hout.2, hdata.2]

end NodeState

/-! ### Snapshots -/

namespace Snapshot

/-- The keys of all objects ascend. Lists of members in another order are no objects. -/
def Ordered (s : Snapshot) : Prop := ∀ n ∈ s.nodes, n.Ordered

/-- All floating-point numbers, those of the positions included, are read back. In particular no
position is infinite or not a number, as such a coordinate is written as null. -/
def Legible (s : Snapshot) : Prop := ∀ n ∈ s.nodes, n.Legible

instance (s : Snapshot) : Decidable s.Legible :=
  inferInstanceAs (Decidable (∀ n ∈ s.nodes, n.Legible))

theorem written_toRaw (s : Snapshot) : s.toRaw.Written := by
  have hnodes : (Raw.array (s.nodes.map NodeState.toRaw)).Written :=
    Raw.writtenItems_iff.2 (List.forall_mem_map.2 fun n _ => n.written_toRaw)
  have hwires : (Raw.array (s.wires.map Wire.toRaw)).Written :=
    Raw.writtenItems_iff.2 (List.forall_mem_map.2 fun w _ => w.written_toRaw)
  apply Raw.written_record
  simp [hnodes, hwires]

theorem reads_shape {s : Snapshot} (ho : s.Ordered) (hl : s.Legible) :
    Reads shape s s.toRaw := by
  intro levels hd
  obtain ⟨l, hf, hlevels⟩ := Fields.read?_record (by decide : ["nodes", "connections"].Nodup) rfl hd
  unfold shape toRaw
  rw [hf]
  have hnodes : Reads (Reader.list NodeState.shape) s.nodes
      (.array (s.nodes.map NodeState.toRaw)) :=
    reads_list fun n hn => NodeState.reads_shape (ho n hn) (hl n hn)
  have hwires : Reads (Reader.list Wire.shape) s.wires (.array (s.wires.map Wire.toRaw)) :=
    reads_list fun w _ => w.reads_shape
  simp only [Option.bind_eq_bind, Option.bind_some, Option.bind_eq_some_iff]
  exact ⟨s.nodes, Fields.required_eq_some hlevels rfl hnodes,
    s.wires, Fields.required_eq_some hlevels rfl hwires, rfl⟩

/-- A snapshot is read from its text. -/
theorem ofText_toText {s : Snapshot} (ho : s.Ordered) (hl : s.Legible)
    (hd : s.toRaw.depth ≤ depthLimit) : ofText s.toText = .ok s := by
  have hparse : shape.parse? s.toText = some s := by
    unfold Reader.parse? toText
    rw [Raw.parse?_toText s.written_toRaw]
    exact reads_shape ho hl depthLimit hd
  rw [ofText, hparse]

/-- What is read has ascending keys and nests no deeper than was allowed, if defaults fit in. -/
theorem of_shape {levels : Nat} {x : Raw} {s : Snapshot} (h : shape levels x = some s)
    (hlevels : 4 ≤ levels) : s.Ordered ∧ s.toRaw.depth ≤ levels := by
  unfold shape at h
  simp only [Option.bind_eq_bind, Option.bind_eq_some_iff] at h
  obtain ⟨f, hf, nodes, hnodes, wires, hwires, hsnapshot⟩ := h
  obtain rfl := Option.some.inj hsnapshot
  have hone : levels = f.levels + 1 := Fields.of_read? hf
  obtain ⟨_, hnodes⟩ := Fields.of_required hnodes
  obtain ⟨_, hwires⟩ := Fields.of_required hwires
  obtain ⟨l, htwo, hnodes⟩ := of_list hnodes
  obtain ⟨_, htwo', hwires⟩ := of_list hwires
  obtain rfl : l = _ := Nat.succ.inj (htwo.symm.trans htwo')
  have hnode : ∀ n ∈ nodes, n.Ordered ∧ n.toRaw.depth ≤ l := by
    intro n hn
    obtain ⟨y, hy⟩ := hnodes n hn
    exact NodeState.of_shape hy (by omega)
  have hwire : ∀ w ∈ wires, w.toRaw.depth ≤ l := by
    intro w hw
    obtain ⟨y, hy⟩ := hwires w hw
    exact Nat.le_trans w.depth_toRaw_le (Wire.of_shape hy)
  have hnodes : (Raw.array (nodes.map NodeState.toRaw)).depth ≤ f.levels :=
    Raw.depth_array_le_iff.2 ⟨l, htwo, List.forall_mem_map.2 fun n hn => (hnode n hn).2⟩
  have hwires : (Raw.array (wires.map Wire.toRaw)).depth ≤ f.levels :=
    Raw.depth_array_le_iff.2 ⟨l, htwo, List.forall_mem_map.2 hwire⟩
  refine ⟨fun n hn => (hnode n hn).1, ?_⟩
  rw [hone]
  apply Raw.depth_record_le
  simp [hnodes, hwires]

/-- What is read from a text can be written and nests no deeper than texts may. -/
theorem of_ofText {t : String} {s : Snapshot} (h : ofText t = .ok s) :
    s.Ordered ∧ s.toRaw.depth ≤ depthLimit := by
  unfold ofText at h
  split at h
  next s' hs =>
    obtain rfl := Except.ok.inj h
    obtain ⟨x, _, hx⟩ := Option.bind_eq_some_iff.1 hs
    exact of_shape hx (by decide)
  next => cases h

/-- A snapshot is read from its text as it is, and so is one that was read from any other text. All
its floating-point numbers have to be read back, and it must not nest too deep. What was read from a
text never does, and its objects have their keys in order. -/
theorem persists :
    (∀ s : Snapshot, s.Ordered → s.Legible → s.toRaw.depth ≤ depthLimit →
      ofText s.toText = .ok s) ∧
    ∀ (t : String) (s : Snapshot), ofText t = .ok s → s.Legible → ofText s.toText = .ok s := by
  constructor
  · intro s ho hl hd
    exact ofText_toText ho hl hd
  · intro t s hread hl
    obtain ⟨ho, hd⟩ := of_ofText hread
    exact ofText_toText ho hl hd

/-- Numbers of all kinds, escapes, and values inside of values. -/
def motley : Snapshot where
  nodes := [{
    id := "a\"\\/\n\x01é😀"
    kind := "number"
    position := ⟨-0.5, 100⟩
    inputs := .singleton "value" (.number (.int 18446744073709551615))
    outputs := .singleton "" (.array [.number (.int (-3)), .null, .object [("k", .bool true)]])
    data := .object [("a", .number (.float 0.1 (by decide +kernel))), ("b", .string "\\u0041")] }]
  wires := [⟨"a", "out", "b", "in"⟩]

/-- A text that is not written like this: the snapshot and its first node are arrays of fields,
some of which are missing, and the second node has an unknown field and a repeated key. -/
def looseText : String :=
  "[[[\"a\",\"number\",[1,-0.25]],\x7b\"id\":\"\\u0062\",\"typeId\":\"print\",\"z\":[]," ++
    "\"inputs\":\x7b\"k\":1e2,\"k\":-2\x7d\x7d],[]]"

theorem persists_motley :
    (motley.Ordered ∧ motley.Legible ∧ motley.toRaw.depth ≤ depthLimit ∧
      ofText motley.toText = .ok motley) ∧
    ∃ s, ofText looseText = .ok s ∧ s.Legible ∧ s.nodes.map (·.id) = ["a", "b"] ∧
      ofText s.toText = .ok s := by
  have hordered : motley.Ordered := by
    have hinner : (Value.object [("k", .bool true)]).Ordered :=
      ⟨List.pairwise_singleton _ _, trivial, trivial⟩
    have hdata : compare "a" "b" = .lt := by decide
    exact List.forall_mem_singleton.2 ⟨⟨Table.ascending _, trivial, trivial⟩,
      ⟨Table.ascending _, ⟨trivial, trivial, hinner, trivial⟩, trivial⟩,
      List.pairwise_pair.2 hdata, trivial, trivial, trivial⟩
  have hlegible : motley.Legible := by decide +kernel
  have hdepth : motley.toRaw.depth ≤ depthLimit := by decide +kernel
  have hread : (ofText looseText).toOption.any
      (fun s => s.Legible ∧ s.nodes.map (·.id) = ["a", "b"]) = true := by decide +kernel
  cases hloose : ofText looseText with
  | error e => simp [hloose, Except.toOption] at hread
  | ok s =>
    simp only [hloose, Except.toOption, Option.any_some, decide_eq_true_eq] at hread
    exact ⟨⟨hordered, hlegible, hdepth, persists.1 motley hordered hlegible hdepth⟩,
      s, rfl, hread.1, hread.2, persists.2 looseText s hloose hread.1⟩

end Snapshot

end Patchbay
