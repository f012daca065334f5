/-! # Tables

A `Table κ α` is a finite map kept as a list of entries whose keys ascend. The order makes the
representation canonical: two tables with the same lookups are equal (`Table.ext_find?`), and
listing a table always gives the same order. One equation per operation describes it through
`find?`: `find?_insert`, `find?_erase`, `find?_modify`, `find?_map`.

The operations on bare entry lists are in `Patchbay.Entries`, because the members of a JSON object
are such a list inside an inductive type.
-/

namespace Patchbay

namespace Entries

variable {κ α : Type}

/-- The value of the first entry under a key. -/
def find? [DecidableEq κ] (k : κ) : List (κ × α) → Option α
  | [] => none
  | (j, v) :: es => if j = k then some v else find? k es

variable [Ord κ]

/-- The keys of the list ascend strictly, so no key occurs twice. -/
def Ascending (es : List (κ × α)) : Prop :=
  es.Pairwise fun a b => compare a.1 b.1 = .lt

/-- Puts an entry at its place in an ascending list; an entry with the same key is replaced. -/
def insert (k : κ) (v : α) : List (κ × α) → List (κ × α)
  | [] => [(k, v)]
  | e :: es =>
    match compare k e.1 with
    | .lt => (k, v) :: e :: es
    | .eq => (k, v) :: es
    | .gt => e :: insert k v es

/-- The entries of `es`, added from left to right: of two entries with one key the later stays. -/
def ofList (es : List (κ × α)) : List (κ × α) :=
  es.foldl (fun acc e => insert e.1 e.2 acc) []

/-- Changing values keeps the order of the keys. -/
theorem Ascending.map {β : Type} {es : List (κ × α)} (f : κ × α → β) (h : Ascending es) :
    Ascending (es.map fun e => (e.1, f e)) :=
  List.pairwise_map.2 h

theorem mem_insert {k : κ} {v : α} {es : List (κ × α)} {e : κ × α} (h : e ∈ insert k v es) :
    e = (k, v) ∨ e ∈ es := by
  induction es with
  | nil => simpa [insert] using h
  | cons d ds ih =>
    rw [insert] at h
    split at h <;> grind

/-- A key before all others is not in the list. -/
theorem find?_eq_none_of_lt [Std.ReflOrd κ] [DecidableEq κ] {k : κ} {es : List (κ × α)}
    (h : ∀ e ∈ es, compare k e.1 = .lt) : find? k es = none := by
  induction es with
  | nil => rfl
  | cons e es ih =>
    obtain ⟨j, v⟩ := e
    have hj : j ≠ k := by
      rintro rfl
      have := h (j, v) List.mem_cons_self
      simp at this
    rw [find?, if_neg hj]
    exact ih fun e he => h e (List.mem_cons_of_mem _ he)

variable [Std.TransOrd κ] [Std.LawfulEqOrd κ]

theorem Ascending.insert (k : κ) (v : α) {es : List (κ × α)} (h : Ascending es) :
    Ascending (Entries.insert k v es) := by
  induction es with
  | nil => simp [Entries.insert, Ascending]
  | cons d ds ih =>
    rw [Ascending, List.pairwise_cons] at h
    rw [Entries.insert]
    split
    next hlt =>
      refine List.pairwise_cons.2 ⟨fun e he => ?_, List.pairwise_cons.2 h⟩
      rcases List.mem_cons.1 he with rfl | he
      · exact hlt
      · exact Std.TransCmp.lt_trans hlt (h.1 e he)
    next heq =>
      have hk : k = d.1 := Std.LawfulEqCmp.eq_of_compare heq
      exact List.pairwise_cons.2 ⟨fun e he => hk ▸ h.1 e he, h.2⟩
    next hgt =>
      refine List.pairwise_cons.2 ⟨fun e he => ?_, ih h.2⟩
      rcases mem_insert he with rfl | he
      · exact Std.OrientedCmp.gt_iff_lt.1 hgt
      · exact h.1 e he

theorem ascending_ofList (es : List (κ × α)) : Ascending (ofList es) := by
  suffices ∀ acc : List (κ × α), Ascending acc →
      Ascending (es.foldl (fun acc e => insert e.1 e.2 acc) acc) from this [] List.Pairwise.nil
  induction es with
  | nil => exact fun acc h => h
  | cons e es ih => exact fun acc h => ih _ (h.insert e.1 e.2)

variable [DecidableEq κ]

omit [Std.TransOrd κ] in
theorem find?_insert (k j : κ) (v : α) (es : List (κ × α)) :
    find? j (insert k v es) = if j = k then some v else find? j es := by
  induction es with
  | nil => grind [insert, find?]
  | cons d ds ih =>
    obtain ⟨i, w⟩ := d
    rw [insert]
    split
    next => grind [find?]
    next heq =>
      obtain rfl : k = i := Std.LawfulEqCmp.eq_of_compare heq
      grind [find?]
    next hgt =>
      have hne : k ≠ i := by rintro rfl; simp at hgt
      grind [find?]

/-- Replacing the entry under a key changes a count by that entry alone. -/
theorem countP_insert {k : κ} {v w : α} {es : List (κ × α)} (p : κ × α → Bool)
    (hs : Ascending es) (h : find? k es = some w) :
    (insert k v es).countP p + (if p (k, w) then 1 else 0) =
      es.countP p + (if p (k, v) then 1 else 0) := by
  induction es with
  | nil => simp [find?] at h
  | cons d ds ih =>
    obtain ⟨j, u⟩ := d
    rw [Ascending, List.pairwise_cons] at hs
    rw [insert]
    split
    next hlt =>
      have hnone : find? k ((j, u) :: ds) = none := by
        apply find?_eq_none_of_lt
        intro e he
        rcases List.mem_cons.1 he with rfl | he
        · exact hlt
        · exact Std.TransCmp.lt_trans hlt (hs.1 e he)
      simp [hnone] at h
    next heq =>
      obtain rfl : k = j := Std.LawfulEqCmp.eq_of_compare heq
      simp only [find?, if_pos, Option.some.injEq] at h
      subst h
      simp only [List.countP_cons]
      omega
    next hgt =>
      have hne : j ≠ k := by rintro rfl; simp at hgt
      simp only [find?, if_neg hne] at h
      have := ih hs.2 h
      simp only [List.countP_cons]
      omega

/-- An ascending list is determined by its lookups. -/
theorem eq_of_find?_eq {xs ys : List (κ × α)} (hx : Ascending xs) (hy : Ascending ys)
    (h : ∀ k, find? k xs = find? k ys) : xs = ys := by
  induction xs generalizing ys with
  | nil =>
    cases ys with
    | nil => rfl
    | cons e es => simpa [find?] using h e.1
  | cons d ds ih =>
    obtain ⟨i, v⟩ := d
    rw [Ascending, List.pairwise_cons] at hx
    cases ys with
    | nil => simpa [find?] using h i
    | cons e es =>
      obtain ⟨j, w⟩ := e
      rw [Ascending, List.pairwise_cons] at hy
      have hi : find? i ((i, v) :: ds) = some v := if_pos rfl
      have hj : find? j ((j, w) :: es) = some w := if_pos rfl
      have hij : i = j := by
        cases hc : compare i j with
        | eq => exact Std.LawfulEqCmp.eq_of_compare hc
        | lt =>
          have hnone : find? i ((j, w) :: es) = none := by
            refine find?_eq_none_of_lt fun e he => ?_
            rcases List.mem_cons.1 he with rfl | he
            · exact hc
            · exact Std.TransCmp.lt_trans hc (hy.1 e he)
          rw [h i, hnone] at hi
          cases hi
        | gt =>
          have hc' := Std.OrientedCmp.gt_iff_lt.1 hc
          have hnone : find? j ((i, v) :: ds) = none := by
            refine find?_eq_none_of_lt fun e he => ?_
            rcases List.mem_cons.1 he with rfl | he
            · exact hc'
            · exact Std.TransCmp.lt_trans hc' (hx.1 e he)
          rw [← h j, hnone] at hj
          cases hj
      subst hij
      obtain rfl : v = w := by simpa [find?] using h i
      congr 1
      refine ih hx.2 hy.2 fun k => ?_
      have hk := h k
      by_cases hki : i = k
      · subst hki
        rw [find?_eq_none_of_lt hx.1, find?_eq_none_of_lt hy.1]
      · simpa [find?, hki] using hk

end Entries

/-- A finite map: entries with distinct keys, in ascending order of the keys. -/
structure Table (κ α : Type) [Ord κ] where
  /-- The entries, in ascending order of their keys. -/
  entries : List (κ × α)
  ascending : Entries.Ascending entries

namespace Table

variable {κ α β : Type} [Ord κ]

instance : EmptyCollection (Table κ α) := ⟨⟨[], List.Pairwise.nil⟩⟩

instance : Inhabited (Table κ α) := ⟨∅⟩

theorem ext_entries {s t : Table κ α} (h : s.entries = t.entries) : s = t := by
  cases s; cases t; cases h; rfl

instance [DecidableEq κ] [DecidableEq α] : DecidableEq (Table κ α) := fun s t =>
  decidable_of_iff (s.entries = t.entries) ⟨ext_entries, fun h => h ▸ rfl⟩

/-- The keys, in ascending order. -/
def keys (t : Table κ α) : List κ := t.entries.map (·.1)

/-- The number of entries. -/
def size (t : Table κ α) : Nat := t.entries.length

def isEmpty (t : Table κ α) : Bool := t.entries.isEmpty

/-- The same keys, every value changed by `f`. -/
def map (f : α → β) (t : Table κ α) : Table κ β :=
  ⟨t.entries.map fun e => (e.1, f e.2), Entries.Ascending.map (fun e => f e.2) t.ascending⟩

/-- Keeps the entries for which `f` gives a value. -/
def filterMap (f : α → Option β) (t : Table κ α) : Table κ β :=
  ⟨t.entries.filterMap fun e => (f e.2).map (e.1, ·), by
    refine List.Pairwise.filterMap _ (fun a b h a' ha b' hb => ?_) t.ascending
    obtain ⟨_, _, rfl⟩ := Option.map_eq_some_iff.1 ha
    obtain ⟨_, _, rfl⟩ := Option.map_eq_some_iff.1 hb
    exact h⟩

section Lookup

variable [DecidableEq κ]

/-- The value under a key. -/
def find? (t : Table κ α) (k : κ) : Option α := Entries.find? k t.entries

def contains (t : Table κ α) (k : κ) : Bool := (t.find? k).isSome

/-- Removes the entry under a key, if there is one. -/
def erase (t : Table κ α) (k : κ) : Table κ α :=
  ⟨t.entries.filter fun e => e.1 ≠ k, List.Pairwise.filter _ t.ascending⟩

/-- Changes the value under a key, if there is one. -/
def modify (t : Table κ α) (k : κ) (f : α → α) : Table κ α :=
  ⟨t.entries.map fun e => (e.1, if e.1 = k then f e.2 else e.2),
    Entries.Ascending.map (fun e => if e.1 = k then f e.2 else e.2) t.ascending⟩

@[simp]
theorem find?_empty (k : κ) : (∅ : Table κ α).find? k = none := rfl

theorem find?_erase (t : Table κ α) (k j : κ) :
    (t.erase k).find? j = if j = k then none else t.find? j := by
  obtain ⟨es, h⟩ := t
  simp only [erase, find?]
  clear h
  induction es with
  | nil => simp [Entries.find?]
  | cons e es ih => grind [Entries.find?]

theorem find?_modify (t : Table κ α) (k j : κ) (f : α → α) :
    (t.modify k f).find? j = if j = k then (t.find? j).map f else t.find? j := by
  obtain ⟨es, h⟩ := t
  simp only [modify, find?]
  clear h
  induction es with
  | nil => simp [Entries.find?]
  | cons e es ih => grind [Entries.find?]

theorem find?_map (f : α → β) (t : Table κ α) (k : κ) : (t.map f).find? k = (t.find? k).map f := by
  obtain ⟨es, h⟩ := t
  simp only [map, find?]
  clear h
  induction es with
  | nil => rfl
  | cons e es ih => grind [Entries.find?]

end Lookup

variable [Std.TransOrd κ] [Std.LawfulEqOrd κ]

/-- Puts a value under a key; a value that was there is replaced. -/
def insert (t : Table κ α) (k : κ) (v : α) : Table κ α :=
  ⟨Entries.insert k v t.entries, t.ascending.insert k v⟩

/-- The entries of a list, added from left to right. -/
def ofList (es : List (κ × α)) : Table κ α :=
  ⟨Entries.ofList es, Entries.ascending_ofList es⟩

/-- The elements of a list without repetition, in ascending order. -/
def distinct (ks : List κ) : List κ := (ofList (ks.map (·, ()))).keys

/-- A table with one entry. -/
def singleton (k : κ) (v : α) : Table κ α := Table.insert ∅ k v

/-- The entries of `s` overridden, key by key, by those of `t`. -/
def override (s t : Table κ α) : Table κ α :=
  t.entries.foldl (fun acc e => acc.insert e.1 e.2) s

variable [DecidableEq κ]

theorem find?_insert (t : Table κ α) (k j : κ) (v : α) :
    (t.insert k v).find? j = if j = k then some v else t.find? j :=
  Entries.find?_insert k j v t.entries

/-- Replacing the value under a key changes a count of entries by that entry alone. -/
theorem countP_insert {t : Table κ α} {k : κ} {v w : α} (p : κ × α → Bool)
    (h : t.find? k = some w) :
    (t.insert k v).entries.countP p + (if p (k, w) then 1 else 0) =
      t.entries.countP p + (if p (k, v) then 1 else 0) :=
  Entries.countP_insert p t.ascending h

/-- A table is determined by its lookups. -/
theorem ext_find? {s t : Table κ α} (h : ∀ k, s.find? k = t.find? k) : s = t :=
  ext_entries (Entries.eq_of_find?_eq s.ascending t.ascending h)

end Table

end Patchbay
