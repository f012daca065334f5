import Patchbay.Proofs.Json.Values

/-!
# Data are read as they are written

A reader is compared with a writer at one datum at a time: it reads the datum from the text that the
writer made, under any limit that this text keeps to. What lists, tables and records need for this
is asked of their parts. In the other direction, what is read by a reader for lists or records was
read by the readers for the parts, one level further down.

## Key results

- `reads_list` / `reads_table` / `Fields.read?_record`: data of several parts are read
- `of_list` / `of_table` / `Fields.of_read?`: what was read has several parts
-/

namespace Patchbay.Json

variable {α β : Type}

/-- The reader reads `a` from the text if this nests no deeper than it may. -/
def Reads (r : Reader α) (a : α) (x : Raw) : Prop :=
  ∀ levels, x.depth ≤ levels → r levels x = some a

theorem reads_text (s : String) : Reads Reader.text s (.text s) := fun _ _ => rfl

theorem reads_value {v : Value} (ho : v.Ordered) (hl : v.Legible) :
    Reads Reader.value v v.toRaw := fun _ hd => Value.value?_toRaw v ho hl hd

/-! ### Lists and tables -/

/-- Brackets take one level. -/
theorem Raw.depth_array_le_iff {xs : List Raw} {levels : Nat} :
    (array xs).depth ≤ levels ↔ ∃ l, levels = l + 1 ∧ ∀ x ∈ xs, x.depth ≤ l := by
  rw [depth]
  constructor
  · intro h
    exact ⟨levels - 1, by omega, depthItems_le_iff.1 (by omega)⟩
  · rintro ⟨l, rfl, h⟩
    exact Nat.succ_le_succ (depthItems_le_iff.2 h)

theorem Raw.depth_object_le_iff {ms : List (Option String × Raw)} {levels : Nat} :
    (object ms).depth ≤ levels ↔ ∃ l, levels = l + 1 ∧ ∀ m ∈ ms, m.2.depth ≤ l := by
  rw [depth]
  constructor
  · intro h
    exact ⟨levels - 1, by omega, depthMembers_le_iff.1 (by omega)⟩
  · rintro ⟨l, rfl, h⟩
    exact Nat.succ_le_succ (depthMembers_le_iff.2 h)

theorem mapM_map_eq_some {f : β → Option α} {g : α → β} {as : List α}
    (h : ∀ a ∈ as, f (g a) = some a) : (as.map g).mapM f = some as := by
  induction as with
  | nil => rfl
  | cons a as ih =>
    obtain ⟨ha, has⟩ := List.forall_mem_cons.1 h
    rw [List.map_cons, List.mapM_cons, ha, ih has]
    rfl

theorem exists_of_mapM_eq_some {f : β → Option α} {xs : List β} {as : List α}
    (h : xs.mapM f = some as) : ∀ a ∈ as, ∃ x, f x = some a := by
  induction xs generalizing as with
  | nil =>
    obtain rfl := Option.some.inj h
    exact fun a ha => absurd ha List.not_mem_nil
  | cons x xs ih =>
    simp only [List.mapM_cons, Option.bind_eq_bind, Option.bind_eq_some_iff] at h
    obtain ⟨b, hb, bs, hbs, hcons⟩ := h
    obtain rfl := Option.some.inj hcons
    exact List.forall_mem_cons.2 ⟨⟨x, hb⟩, ih hbs⟩

/-- A list is read if its items are. -/
theorem reads_list {r : Reader α} {f : α → Raw} {as : List α} (h : ∀ a ∈ as, Reads r a (f a)) :
    Reads (Reader.list r) as (.array (as.map f)) := by
  intro levels hd
  obtain ⟨l, rfl, hl⟩ := Raw.depth_array_le_iff.1 hd
  exact mapM_map_eq_some fun a ha => h a ha l (hl (f a) (List.mem_map_of_mem ha))

/-- The members of a table are read as those of an object. -/
theorem mapM_member_value (levels : Nat) (ms : List (Option String × Raw)) :
    ms.mapM (Reader.member Reader.value levels) = Raw.members? levels ms := by
  induction ms with
  | nil => rfl
  | cons m ms ih =>
    obtain ⟨k, x⟩ := m
    rw [List.mapM_cons, ih, Raw.members?]
    cases k with
    | none => rfl
    | some k => cases hv : Raw.value? levels x <;> simp [Reader.member, Reader.value, hv]

/-- A table is read if the object with its members is. -/
theorem reads_table {t : Table String Value} (ho : (Value.ofTable t).Ordered)
    (hl : (Value.ofTable t).Legible) :
    Reads (Reader.table Reader.value) t (Value.ofTable t).toRaw := by
  intro levels hd
  rw [Value.ofTable, Value.toRaw] at hd ⊢
  obtain ⟨l, rfl, hmembers⟩ := Raw.depth_object_le_iff.1 hd
  have hread := Value.members?_toRawMembers t.entries ho.2 hl (Raw.depthMembers_le_iff.2 hmembers)
  rw [Reader.table, mapM_member_value, hread, Option.map_some, Table.ofList_entries]

/-- The items of a list that was read were read one by one. -/
theorem of_list {r : Reader α} {levels : Nat} {x : Raw} {as : List α}
    (h : Reader.list r levels x = some as) :
    ∃ l, levels = l + 1 ∧ ∀ a ∈ as, ∃ y, r l y = some a := by
  match levels, x, h with
  | l + 1, .array xs, h => exact ⟨l, rfl, exists_of_mapM_eq_some h⟩

/-- A table that was read has the members of an object that was read. -/
theorem of_table {levels : Nat} {x : Raw} {t : Table String Value}
    (h : Reader.table Reader.value levels x = some t) :
    (Value.ofTable t).Ordered ∧ (Value.ofTable t).toRaw.depth ≤ levels := by
  match levels, x, h with
  | l + 1, .object ms, h =>
    rw [Reader.table, mapM_member_value, Option.map_eq_some_iff] at h
    obtain ⟨vs, hvs, rfl⟩ := h
    have hobject : Raw.value? (l + 1) (.object ms) = some (Value.ofMembers vs) := by
      rw [Raw.value?, hvs, Option.map_some]
    exact Value.of_value? _ hobject

/-! ### Records -/

theorem Raw.written_record {ms : List (String × Raw)} (h : ∀ m ∈ ms, m.2.Written) :
    (record ms).Written :=
  writtenMembers_iff.2 (List.forall_mem_map.2 h)

theorem Raw.depth_record_le {ms : List (String × Raw)} {levels : Nat}
    (h : ∀ m ∈ ms, m.2.depth ≤ levels) : (record ms).depth ≤ levels + 1 :=
  depth_object_le_iff.2 ⟨levels, rfl, List.forall_mem_map.2 h⟩

namespace Fields

/-- Known fields with different names are taken as they stand. -/
theorem known?_eq_some {names : List String} {ms : List (String × Raw)}
    (hnames : ∀ m ∈ ms, m.1 ∈ names) (hdistinct : (ms.map (·.1)).Nodup) :
    known? names (ms.map fun m => (some m.1, m.2)) = some ms := by
  induction ms with
  | nil => rfl
  | cons m ms ih =>
    obtain ⟨hm, hms⟩ := List.forall_mem_cons.1 hnames
    rw [List.map_cons, List.nodup_cons] at hdistinct
    have hunrepeated : (ms.any fun d => decide (d.1 = m.1)) = false := by
      rw [List.any_eq_false]
      intro d hd heq
      exact hdistinct.1 (List.mem_map.2 ⟨d, hd, of_decide_eq_true heq⟩)
    rw [List.map_cons, known?, ih hms hdistinct.2]
    simp only [Option.bind_eq_bind, Option.bind_some, hunrepeated, Bool.false_eq_true, if_false,
      if_pos hm]

/-- The fields of a written record are there, and nest one level less. -/
theorem read?_record {names : List String} (hnames : names.Nodup) {ms : List (String × Raw)}
    (hms : ms.map (·.1) = names) {levels : Nat} (hd : (Raw.record ms).depth ≤ levels) :
    ∃ l, read? names levels (.record ms) = some ⟨l, ms⟩ ∧ ∀ m ∈ ms, m.2.depth ≤ l := by
  obtain ⟨l, rfl, hl⟩ := Raw.depth_object_le_iff.1 hd
  have hknown : known? names (ms.map fun m => (some m.1, m.2)) = some ms :=
    known?_eq_some (fun m hm => hms ▸ List.mem_map_of_mem hm) (hms ▸ hnames)
  refine ⟨l, ?_, fun m hm => hl (some m.1, m.2) (List.mem_map_of_mem hm)⟩
  rw [Raw.record, read?, hknown, Option.map_some]

variable {l : Nat} {ms : List (String × Raw)} {name : String} {x : Raw} {r : Reader α} {a : α}

theorem required_eq_some (hl : ∀ m ∈ ms, m.2.depth ≤ l) (hx : Entries.find? name ms = some x)
    (h : Reads r a x) : required ⟨l, ms⟩ name r = some a := by
  rw [required, hx]
  exact h l (hl (name, x) (Entries.mem_of_find?_eq_some hx))

theorem optional_eq_some (hl : ∀ m ∈ ms, m.2.depth ≤ l) (hx : Entries.find? name ms = some x)
    (default : α) (h : Reads r a x) : optional ⟨l, ms⟩ name default r = some a := by
  rw [optional, hx]
  exact h l (hl (name, x) (Entries.mem_of_find?_eq_some hx))

/-- The fields of a record nest one level less, whether it is an object or an array. -/
theorem of_read? {names : List String} {levels : Nat} {f : Fields}
    (h : read? names levels x = some f) : levels = f.levels + 1 := by
  match levels, x, h with
  | l + 1, .object ms, h =>
    obtain ⟨_, _, rfl⟩ := Option.map_eq_some_iff.1 h
    rfl
  | l + 1, .array xs, h =>
    rw [read?] at h
    split at h
    next =>
      obtain rfl := Option.some.inj h
      rfl
    next => cases h

theorem of_required {f : Fields} (h : f.required name r = some a) : ∃ x, r f.levels x = some a := by
  rw [required, Option.bind_eq_bind, Option.bind_eq_some_iff] at h
  obtain ⟨x, _, hx⟩ := h
  exact ⟨x, hx⟩

/-- An optional field was read, or it has its default value. -/
theorem of_optional {f : Fields} {default : α} (h : f.optional name default r = some a) :
    (∃ x, r f.levels x = some a) ∨ a = default := by
  unfold optional at h
  split at h
  next x _ => exact .inl ⟨x, h⟩
  next => exact .inr (Option.some.inj h).symm

end Fields

end Patchbay.Json
