import Patchbay.Proofs.Snapshot.Text

/-!
# Which snapshots can be read again

Any snapshot can be written, but not all that is written can be read. A coordinate that is not finite
becomes null, which is no number; the digits of a floating-point number may be read as a number that
is too large; and a text may nest deeper than is allowed. Nothing else can go wrong.

A reader is compared with a writer once more, this time by when it reads anything at all (`Accepts`).
What is read may differ from what was written, but it has nodes of the same kinds.

## Key results

- `Value.isSome_value?_toRaw`: when a value can be read
- `Snapshot.exists_ofText_iff`: when a snapshot can be read
- `Snapshot.kinds_of_ofText`: what is read has the kinds of what was written
-/

namespace Patchbay

open Json

/-! ### Numbers and values -/

/-- The digits that a floating-point number is written in are read as some number. -/
def Readable (x : Float) : Prop :=
  x.isFinite = true ∧ (Number.ofNumeral? (Number.layout.ofFloat x)).isSome = true

instance (x : Float) : Decidable (Readable x) := inferInstanceAs (Decidable (_ ∧ _))

/-- A floating-point number can be read; nothing is asked of integers. -/
def Number.Readable : Number → Prop
  | int _ _ => True
  | float x _ => Patchbay.Readable x

theorem Number.isSome_ofNumeral?_toNumeral (n : Number) :
    (ofNumeral? n.toNumeral).isSome ↔ n.Readable := by
  cases n with
  | int n hn =>
    rw [ofNumeral?_toNumeral (n := int n hn) trivial]
    exact iff_of_true rfl trivial
  | float x hx => exact ⟨fun h => ⟨hx, h⟩, fun h => h.2⟩

namespace Value

mutual

/-- Every number in the value can be read. -/
def Readable : Value → Prop
  | number n => n.Readable
  | array xs => ReadableItems xs
  | object ms => ReadableMembers ms
  | _ => True

def ReadableItems : List Value → Prop
  | [] => True
  | x :: xs => Readable x ∧ ReadableItems xs

def ReadableMembers : List (String × Value) → Prop
  | [] => True
  | (_, x) :: ms => Readable x ∧ ReadableMembers ms

end

end Value

namespace Json

variable {α β : Type}

/-- Parts are read one after the other. -/
theorem isSome_bind_iff {x : Option α} {k : α → Option β} {Q : Prop}
    (h : ∀ a, (k a).isSome ↔ Q) : (x.bind k).isSome ↔ x.isSome ∧ Q := by
  cases x with
  | none => simp
  | some a => simpa using h a

/-- The last part is read, and the whole is put together. -/
theorem isSome_bind_some_iff {x : Option α} {f : α → β} :
    (x.bind fun a => some (f a)).isSome ↔ x.isSome := by
  cases x <;> simp

theorem isSome_mapM_iff {f : α → Option β} {xs : List α} :
    (xs.mapM f).isSome ↔ ∀ x ∈ xs, (f x).isSome := by
  induction xs with
  | nil => simp
  | cons x xs ih =>
    rw [List.mapM_cons, List.forall_mem_cons, ← ih]
    exact isSome_bind_iff fun b => isSome_bind_some_iff

end Json

namespace Value

mutual

/-- A value can be read if its numbers can, and it does not nest too deep. -/
theorem isSome_value?_toRaw (v : Value) (levels : Nat) :
    (Raw.value? levels v.toRaw).isSome ↔ v.Readable ∧ v.toRaw.depth ≤ levels := by
  match v, levels with
  | null, levels | bool _, levels | string _, levels =>
    rw [toRaw, Raw.value?]
    exact iff_of_true rfl ⟨trivial, Nat.zero_le _⟩
  | number n, levels =>
    rw [toRaw, Raw.value?, Option.isSome_map, n.isSome_ofNumeral?_toNumeral]
    exact ⟨fun h => ⟨h, Nat.zero_le _⟩, fun h => h.1⟩
  | array xs, 0 =>
    rw [toRaw, Raw.value?, Raw.depth]
    simp
  | array xs, levels + 1 =>
    rw [toRaw, Raw.value?, Option.isSome_map, isSome_values?_toRawItems, Raw.depth,
      Nat.succ_le_succ_iff]
    rfl
  | object ms, 0 =>
    rw [toRaw, Raw.value?, Raw.depth]
    simp
  | object ms, levels + 1 =>
    rw [toRaw, Raw.value?, Option.isSome_map, isSome_members?_toRawMembers, Raw.depth,
      Nat.succ_le_succ_iff]
    rfl

theorem isSome_values?_toRawItems (xs : List Value) (levels : Nat) :
    (Raw.values? levels (toRawItems xs)).isSome ↔
      ReadableItems xs ∧ Raw.depthItems (toRawItems xs) ≤ levels := by
  match xs with
  | [] => exact iff_of_true rfl ⟨trivial, Nat.zero_le _⟩
  | x :: xs =>
    have hparts : (Raw.values? levels (toRawItems (x :: xs))).isSome ↔
        (Raw.value? levels x.toRaw).isSome ∧ (Raw.values? levels (toRawItems xs)).isSome := by
      rw [toRawItems, Raw.values?]
      exact isSome_bind_iff fun v => isSome_bind_some_iff
    rw [hparts, isSome_value?_toRaw, isSome_values?_toRawItems, toRawItems, Raw.depthItems,
      Nat.max_le]
    exact and_and_and_comm

theorem isSome_members?_toRawMembers (ms : List (String × Value)) (levels : Nat) :
    (Raw.members? levels (toRawMembers ms)).isSome ↔
      ReadableMembers ms ∧ Raw.depthMembers (toRawMembers ms) ≤ levels := by
  match ms with
  | [] => exact iff_of_true rfl ⟨trivial, Nat.zero_le _⟩
  | (k, x) :: ms =>
    have hparts : (Raw.members? levels (toRawMembers ((k, x) :: ms))).isSome ↔
        (Raw.value? levels x.toRaw).isSome ∧ (Raw.members? levels (toRawMembers ms)).isSome := by
      rw [toRawMembers, Raw.members?]
      exact isSome_bind_iff fun v => isSome_bind_some_iff
    rw [hparts, isSome_value?_toRaw, isSome_members?_toRawMembers, toRawMembers, Raw.depthMembers,
      Nat.max_le]
    exact and_and_and_comm

end

end Value

/-! ### Lists, tables and records -/

namespace Json

variable {α β : Type} {r : Reader α}

/-- The reader reads something from the text if the condition holds and the text nests no deeper
than it may. -/
def Accepts (r : Reader α) (P : Prop) (x : Raw) : Prop :=
  ∀ levels, (r levels x).isSome ↔ P ∧ x.depth ≤ levels

theorem accepts_text (s : String) : Accepts Reader.text True (.text s) :=
  fun _ => iff_of_true rfl ⟨trivial, Nat.zero_le _⟩

theorem accepts_value (v : Value) : Accepts Reader.value v.Readable v.toRaw :=
  v.isSome_value?_toRaw

/-- A number that is not finite is written as null, which is no number. -/
theorem accepts_float (x : Float) : Accepts Reader.float (Readable x) (rawFloat x) := by
  intro levels
  rw [depth_rawFloat]
  unfold rawFloat Value.ofFloat
  by_cases hx : x.isFinite = true
  · have hnumber : Number.ofFloat? x = some (.float x hx) := dif_pos hx
    rw [hnumber]
    show ((Number.ofNumeral? (Number.layout.ofFloat x)).map Number.toFloat).isSome ↔ _
    rw [Option.isSome_map]
    exact ⟨fun h => ⟨⟨hx, h⟩, Nat.zero_le _⟩, fun h => h.1.2⟩
  · have hnumber : Number.ofFloat? x = none := dif_neg hx
    rw [hnumber]
    exact iff_of_false Bool.false_ne_true fun h => hx h.1.1

/-- A list can be read if its items can. -/
theorem accepts_list {f : α → Raw} {P : α → Prop} {as : List α}
    (h : ∀ a ∈ as, Accepts r (P a) (f a)) :
    Accepts (Reader.list r) (∀ a ∈ as, P a) (.array (as.map f)) := by
  intro levels
  match levels with
  | 0 => exact iff_of_false Bool.false_ne_true fun h => absurd h.2 (Nat.not_succ_le_zero _)
  | l + 1 =>
    have hitems : (Reader.list r (l + 1) (.array (as.map f))).isSome ↔
        ∀ a ∈ as, P a ∧ (f a).depth ≤ l := by
      show ((as.map f).mapM (r l)).isSome ↔ _
      rw [isSome_mapM_iff, List.forall_mem_map]
      exact forall₂_congr fun a ha => h a ha l
    rw [hitems, Raw.depth, Nat.succ_le_succ_iff, Raw.depthItems_le_iff, List.forall_mem_map]
    exact ⟨fun h => ⟨fun a ha => (h a ha).1, fun a ha => (h a ha).2⟩,
      fun h a ha => ⟨h.1 a ha, h.2 a ha⟩⟩

/-- A table can be read if the object with its members can. -/
theorem accepts_table (t : Table String Value) :
    Accepts (Reader.table Reader.value) (Value.ofTable t).Readable (Value.ofTable t).toRaw := by
  intro levels
  rw [← Value.isSome_value?_toRaw]
  match levels with
  | 0 => rfl
  | l + 1 =>
    show ((Value.toRawMembers t.entries).mapM (Reader.member Reader.value l) |>.map
      Table.ofList).isSome ↔ ((Raw.members? l (Value.toRawMembers t.entries)).map
        Value.ofMembers).isSome
    rw [Option.isSome_map, Option.isSome_map, mapM_member_value]

/-- A record can be read if its fields can. -/
theorem accepts_record {names : List String} (hnames : names.Nodup) {ms : List (String × Raw)}
    (hms : ms.map (·.1) = names) {k : Fields → Option α} {P : Prop}
    (hk : ∀ l, (k ⟨l, ms⟩).isSome ↔ P ∧ ∀ m ∈ ms, m.2.depth ≤ l) :
    Accepts (fun levels x => (Fields.read? names levels x).bind k) P (.record ms) := by
  intro levels
  match levels with
  | 0 => exact iff_of_false Bool.false_ne_true fun h => absurd h.2 (Nat.not_succ_le_zero _)
  | l + 1 =>
    have hknown : Fields.known? names (ms.map fun m => (some m.1, m.2)) = some ms :=
      Fields.known?_eq_some (fun m hm => hms ▸ List.mem_map_of_mem hm) (hms ▸ hnames)
    have hfields : Fields.read? names (l + 1) (.record ms) = some ⟨l, ms⟩ := by
      rw [Raw.record, Fields.read?, hknown, Option.map_some]
    show ((Fields.read? names (l + 1) (.record ms)).bind k).isSome ↔ _
    rw [hfields, Option.bind_some, hk, Raw.record, Raw.depth, Nat.succ_le_succ_iff,
      Raw.depthMembers_le_iff, List.forall_mem_map]

variable {x : Raw} {P : Prop}

theorem isSome_required (l : Nat) (ms : List (String × Raw)) (name : String)
    (hx : Entries.find? name ms = some x) (h : Accepts r P x) :
    (Fields.required ⟨l, ms⟩ name r).isSome ↔ P ∧ x.depth ≤ l := by
  rw [Fields.required, hx]
  exact h l

theorem isSome_optional (l : Nat) (ms : List (String × Raw)) (name : String)
    (hx : Entries.find? name ms = some x) (default : α) (h : Accepts r P x) :
    (Fields.optional ⟨l, ms⟩ name default r).isSome ↔ P ∧ x.depth ≤ l := by
  rw [Fields.optional, hx]
  exact h l

end Json

/-! ### Snapshots -/

namespace Position

/-- Both coordinates can be read. -/
structure Readable (p : Position) : Prop where
  x : Patchbay.Readable p.x
  y : Patchbay.Readable p.y

theorem accepts_shape (p : Position) : Accepts shape p.Readable p.toRaw := by
  let fields := [("x", rawFloat p.x), ("y", rawFloat p.y)]
  refine accepts_record (by decide : ["x", "y"].Nodup) rfl fun l => ?_
  have hx := isSome_required l fields "x" rfl (accepts_float p.x)
  have hy := isSome_required l fields "y" rfl (accepts_float p.y)
  refine (isSome_bind_iff fun _ => isSome_bind_some_iff).trans ((and_congr hx hy).trans ?_)
  simp only [List.forall_mem_cons]
  exact ⟨fun ⟨⟨hx, dx⟩, hy, dy⟩ => ⟨⟨hx, hy⟩, dx, dy, List.forall_mem_nil _⟩,
    fun ⟨⟨hx, hy⟩, dx, dy, _⟩ => ⟨⟨hx, dx⟩, hy, dy⟩⟩

end Position

namespace Wire

theorem accepts_shape (w : Wire) : Accepts shape True w.toRaw := by
  intro levels
  refine ⟨fun h => ⟨trivial, ?_⟩, fun h => ?_⟩
  · obtain ⟨w', hw'⟩ := Option.isSome_iff_exists.1 h
    exact Nat.le_trans w.depth_toRaw_le (of_shape hw')
  · rw [w.reads_shape levels h.2]
    rfl

end Wire

namespace NodeState

/-- All numbers of the state can be read. -/
structure Readable (s : NodeState) : Prop where
  position : s.position.Readable
  inputs : (Value.ofTable s.inputs).Readable
  outputs : (Value.ofTable s.outputs).Readable
  data : s.data.Readable

theorem accepts_shape (s : NodeState) : Accepts shape s.Readable s.toRaw := by
  let fields := [("id", Raw.text s.id), ("typeId", .text s.kind), ("position", s.position.toRaw),
    ("inputs", rawTable s.inputs), ("outputs", rawTable s.outputs), ("data", s.data.toRaw)]
  refine accepts_record
    (by decide : ["id", "typeId", "position", "inputs", "outputs", "data"].Nodup) rfl fun l => ?_
  have hid := isSome_required l fields "id" rfl (accepts_text s.id)
  have hkind := isSome_required l fields "typeId" rfl (accepts_text s.kind)
  have hposition := isSome_optional l fields "position" rfl .origin s.position.accepts_shape
  have hinputs := isSome_optional l fields "inputs" rfl ∅ (accepts_table s.inputs)
  have houtputs := isSome_optional l fields "outputs" rfl ∅ (accepts_table s.outputs)
  have hdata := isSome_optional l fields "data" rfl .null (accepts_value s.data)
  refine (isSome_bind_iff fun _ => isSome_bind_iff fun _ => isSome_bind_iff fun _ =>
    isSome_bind_iff fun _ => isSome_bind_iff fun _ => isSome_bind_some_iff).trans
      ((and_congr hid <| and_congr hkind <| and_congr hposition <| and_congr hinputs <|
        and_congr houtputs hdata).trans ?_)
  simp only [List.forall_mem_cons]
  constructor
  · rintro ⟨⟨-, did⟩, ⟨-, dkind⟩, ⟨hp, dp⟩, ⟨hi, di⟩, ⟨ho, do_⟩, hd, dd⟩
    exact ⟨⟨hp, hi, ho, hd⟩, did, dkind, dp, di, do_, dd, List.forall_mem_nil _⟩
  · rintro ⟨⟨hp, hi, ho, hd⟩, did, dkind, dp, di, do_, dd, -⟩
    exact ⟨⟨trivial, did⟩, ⟨trivial, dkind⟩, ⟨hp, dp⟩, ⟨hi, di⟩, ⟨ho, do_⟩, hd, dd⟩

/-- The kind is read as it was written. -/
theorem kind_of_shape {s t : NodeState} {levels : Nat} (h : shape levels s.toRaw = some t) :
    t.kind = s.kind := by
  have hsome : (shape levels s.toRaw).isSome := by rw [h]; rfl
  obtain ⟨l, hf, -⟩ := Fields.read?_record
    (by decide : ["id", "typeId", "position", "inputs", "outputs", "data"].Nodup) rfl
    ((s.accepts_shape levels).1 hsome).2
  unfold shape toRaw at h
  rw [hf] at h
  simp only [Option.bind_eq_bind, Option.bind_some, Option.bind_eq_some_iff] at h
  obtain ⟨id, -, kind, hkind, position, -, inputs, -, outputs, -, data, -, hstate⟩ := h
  obtain rfl := Option.some.inj hstate
  exact (Option.some.inj hkind).symm

end NodeState

namespace Snapshot

/-- All floating-point numbers can be read, those of the positions included. -/
def Readable (s : Snapshot) : Prop := ∀ n ∈ s.nodes, n.Readable

theorem accepts_shape (s : Snapshot) : Accepts shape s.Readable s.toRaw := by
  let fields := [("nodes", Raw.array (s.nodes.map NodeState.toRaw)),
    ("connections", .array (s.wires.map Wire.toRaw))]
  refine accepts_record (by decide : ["nodes", "connections"].Nodup) rfl fun l => ?_
  have hnodes := isSome_required l fields "nodes" rfl
    (accepts_list fun n (_ : n ∈ s.nodes) => n.accepts_shape)
  have hwires := isSome_required l fields "connections" rfl
    (accepts_list fun w (_ : w ∈ s.wires) => w.accepts_shape)
  refine (isSome_bind_iff fun _ => isSome_bind_some_iff).trans ((and_congr hnodes hwires).trans ?_)
  simp only [List.forall_mem_cons]
  exact ⟨fun ⟨⟨hn, dn⟩, _, dw⟩ => ⟨hn, dn, dw, List.forall_mem_nil _⟩,
    fun ⟨hn, dn, dw, _⟩ => ⟨⟨hn, dn⟩, fun _ _ => trivial, dw⟩⟩

theorem parse?_toText (s : Snapshot) : shape.parse? s.toText = shape depthLimit s.toRaw := by
  rw [Reader.parse?, toText, Raw.parse?_toText s.written_toRaw]
  rfl

/-- A snapshot can be read again from its text iff its numbers can and it nests no deeper than texts
may. -/
theorem exists_ofText_iff (s : Snapshot) :
    (∃ t, ofText s.toText = .ok t) ↔ s.Readable ∧ s.toRaw.depth ≤ depthLimit := by
  rw [← s.accepts_shape depthLimit]
  rw [ofText, parse?_toText]
  cases shape depthLimit s.toRaw <;> simp

/-- Each of the nodes is read on its own. -/
theorem kinds_of_mapM {levels : Nat} {ss ts : List NodeState}
    (h : (ss.map NodeState.toRaw).mapM (NodeState.shape levels) = some ts) :
    ts.map (·.kind) = ss.map (·.kind) := by
  induction ss generalizing ts with
  | nil =>
    obtain rfl := Option.some.inj h
    rfl
  | cons s ss ih =>
    simp only [List.map_cons, List.mapM_cons, Option.bind_eq_bind, Option.bind_eq_some_iff] at h
    obtain ⟨t, ht, ts, hts, hcons⟩ := h
    obtain rfl := Option.some.inj hcons
    rw [List.map_cons, List.map_cons, NodeState.kind_of_shape ht, ih hts]

/-- What is read has nodes of the kinds that were written. -/
theorem kinds_of_ofText {s t : Snapshot} (h : ofText s.toText = .ok t) :
    t.nodes.map (·.kind) = s.nodes.map (·.kind) := by
  obtain ⟨l, hf, hl⟩ := Fields.read?_record (by decide : ["nodes", "connections"].Nodup) rfl
    ((exists_ofText_iff s).1 ⟨t, h⟩).2
  have hread : shape depthLimit s.toRaw = some t := by
    rw [ofText, parse?_toText] at h
    cases hshape : shape depthLimit s.toRaw <;> simp [hshape] at h
    rw [h]
  unfold shape toRaw at hread
  rw [hf] at hread
  simp only [Option.bind_eq_bind, Option.bind_some, Option.bind_eq_some_iff] at hread
  obtain ⟨nodes, hnodes, wires, -, hsnapshot⟩ := hread
  obtain rfl := Option.some.inj hsnapshot
  have hitems : Reader.list NodeState.shape l (.array (s.nodes.map NodeState.toRaw)) = some nodes :=
    hnodes
  match l, hitems with
  | l + 1, hitems => exact kinds_of_mapM hitems

end Snapshot

end Patchbay
