import Patchbay.Table

/-!
# Entries and look-ups of tables

A table is looked at in two ways: through `find?` and as its list of entries. The lemmas here lead
from one to the other.

## Key results

- `mem_entries_iff`: an entry is listed iff it is found under its key
- `find?_eraseAll`: what is left after several keys were erased
- `entries_insert_of_lt`: a key beyond all others goes to the end
- `find?_insertAll` / `find?_override`: what is found after many insertions
- `find?_filterMap`: what is left of a table whose values are dropped or changed
- `find?_ofList` / `find?_ofList_const`: what is found in a list of entries that becomes a table
-/

namespace Patchbay

namespace Entries

variable {κ α : Type} [Ord κ] [Std.LawfulEqOrd κ] [DecidableEq κ]

/-- In an ascending list every entry is the first one under its key. -/
theorem find?_eq_some_iff {es : List (κ × α)} (hs : Ascending es) (k : κ) (v : α) :
    find? k es = some v ↔ (k, v) ∈ es := by
  induction es with
  | nil => simp [find?]
  | cons d ds ih =>
    obtain ⟨j, w⟩ := d
    rw [Ascending, List.pairwise_cons] at hs
    by_cases hjk : j = k
    · subst hjk
      have hnot : (j, v) ∉ ds := fun hmem => by simpa using hs.1 _ hmem
      simp [find?, hnot, eq_comm]
    · rw [find?, if_neg hjk, ih hs.2]
      simp [Ne.symm hjk]

/-- The first entry of an ascending list does not hide another one. -/
theorem find?_cons_of_ascending {e : κ × α} {es : List (κ × α)} (hs : Ascending (e :: es)) (k : κ) :
    find? k (e :: es) = (find? k es).or (if k = e.1 then some e.2 else none) := by
  have he := (List.pairwise_cons.1 hs).1
  by_cases hk : e.1 = k
  · have hnone : find? k es = none := find?_eq_none_of_lt (hk ▸ he)
    simp [find?, hk, hnone]
  · simp [find?, hk, Ne.symm hk]

omit [Ord κ] [Std.LawfulEqOrd κ] in
theorem find?_eq_map (k : κ) (es : List (κ × α)) :
    find? k es = (es.find? fun e => e.1 = k).map (·.2) := by
  induction es with
  | nil => rfl
  | cons e es ih =>
    rw [find?, List.find?_cons, ih]
    by_cases h : e.1 = k <;> simp [h]

omit [Ord κ] [Std.LawfulEqOrd κ] in
theorem mem_of_find?_eq_some {es : List (κ × α)} {k : κ} {v : α} (h : find? k es = some v) :
    (k, v) ∈ es := by
  induction es with
  | nil => cases h
  | cons e es ih =>
    rw [find?] at h
    split at h
    next hk =>
      obtain rfl := Option.some.inj h
      exact hk ▸ List.mem_cons_self
    next => exact List.mem_cons_of_mem e (ih h)

omit [Std.LawfulEqOrd κ] [DecidableEq κ] in
/-- What is in the sorted list was in the list. -/
theorem mem_ofList {es : List (κ × α)} {e : κ × α} (h : e ∈ ofList es) : e ∈ es := by
  have hfold : ∀ acc : List (κ × α),
      e ∈ es.foldl (fun acc e => insert e.1 e.2 acc) acc → e ∈ acc ∨ e ∈ es := by
    clear h
    induction es with
    | nil => exact fun acc h => .inl h
    | cons d ds ih =>
      intro acc h
      rcases ih _ h with hacc | hds
      · rcases mem_insert hacc with rfl | hacc
        · exact .inr List.mem_cons_self
        · exact .inl hacc
      · exact .inr (List.mem_cons_of_mem d hds)
  exact (hfold [] h).resolve_left List.not_mem_nil

end Entries

namespace Table

variable {κ α β : Type} [Ord κ]

section Lookup

variable [DecidableEq κ]

/-- Several keys are erased one after the other. -/
theorem find?_eraseAll (key : β → κ) (xs : List β) (t : Table κ α) (j : κ) :
    (xs.foldl (fun t x => t.erase (key x)) t).find? j =
      if j ∈ xs.map key then none else t.find? j := by
  induction xs generalizing t with
  | nil => simp
  | cons x xs ih =>
    rw [List.foldl_cons, ih, find?_erase]
    by_cases hj : j ∈ xs.map key
    · simp only [List.map_cons, List.mem_cons, hj, or_true, ↓reduceIte]
    · simp only [List.map_cons, List.mem_cons, hj, or_false, ↓reduceIte]

end Lookup

variable [Std.LawfulEqOrd κ]

/-- The entries are what is found under the keys. -/
theorem mem_entries_iff [DecidableEq κ] {t : Table κ α} {k : κ} {v : α} :
    (k, v) ∈ t.entries ↔ t.find? k = some v :=
  (Entries.find?_eq_some_iff t.ascending k v).symm

/-- No key is listed twice. -/
theorem nodup_keys (t : Table κ α) : t.keys.Nodup :=
  List.pairwise_map.2 (t.ascending.imp fun {a b} hab heq => by simp [heq] at hab)

theorem mem_keys_iff [DecidableEq κ] {t : Table κ α} {k : κ} :
    k ∈ t.keys ↔ (t.find? k).isSome := by
  rw [Option.isSome_iff_exists]
  refine ⟨fun h => ?_, fun ⟨v, hv⟩ => List.mem_map_of_mem (mem_entries_iff.2 hv)⟩
  obtain ⟨⟨_, v⟩, hmem, rfl⟩ := List.mem_map.1 h
  exact ⟨v, mem_entries_iff.1 hmem⟩

/-- Keys that are not dropped have their values changed. -/
theorem find?_filterMap [DecidableEq κ] (f : α → Option β) (t : Table κ α) (k : κ) :
    (t.filterMap f).find? k = (t.find? k).bind f := by
  obtain ⟨es, hs⟩ := t
  simp only [filterMap, find?]
  induction es with
  | nil => rfl
  | cons e es ih =>
    obtain ⟨he, hes⟩ := List.pairwise_cons.1 hs
    have hrest := ih hes
    by_cases hk : e.1 = k
    -- The first key is not found again further on, should it be dropped.
    · have hnone : Entries.find? k es = none := Entries.find?_eq_none_of_lt (hk ▸ he)
      cases hf : f e.2 with
      | none =>
        rw [List.filterMap_cons_none (by rw [hf]; rfl), hrest, hnone]
        simp [Entries.find?, hk, hf]
      | some v =>
        rw [List.filterMap_cons_some (by rw [hf]; rfl)]
        simp [Entries.find?, hk, hf]
    · cases hf : f e.2 with
      | none =>
        rw [List.filterMap_cons_none (by rw [hf]; rfl), hrest]
        simp [Entries.find?, hk]
      | some v =>
        rw [List.filterMap_cons_some (by rw [hf]; rfl)]
        simp [Entries.find?, hk, hrest]

variable [Std.TransOrd κ]

/-- A key beyond all others goes to the end. -/
theorem entries_insert_of_lt {t : Table κ α} {k : κ} {v : α}
    (h : ∀ e ∈ t.entries, compare e.1 k = .lt) :
    (t.insert k v).entries = t.entries ++ [(k, v)] := by
  obtain ⟨es, hs⟩ := t
  simp only [insert] at h ⊢
  clear hs
  induction es with
  | nil => rfl
  | cons d ds ih =>
    have hgt : compare k d.1 = .gt := Std.OrientedCmp.gt_iff_lt.2 (h d List.mem_cons_self)
    rw [Entries.insert, hgt]
    simp only [List.cons_append, ih fun e he => h e (List.mem_cons_of_mem _ he)]

/-- Values are put under different keys, one after the other. -/
theorem find?_insertAll [DecidableEq κ] {xs : List β} (key : β → κ) (val : β → α) (t : Table κ α)
    (hkeys : xs.Pairwise fun a b => key a ≠ key b) (j : κ) :
    (xs.foldl (fun t x => t.insert (key x) (val x)) t).find? j =
      ((xs.find? fun x => key x = j).map val).or (t.find? j) := by
  induction xs generalizing t with
  | nil => rfl
  | cons x xs ih =>
    obtain ⟨hx, hxs⟩ := List.pairwise_cons.1 hkeys
    rw [List.foldl_cons, ih _ hxs, find?_insert, List.find?_cons]
    by_cases hj : key x = j
    · have hnone : (xs.find? fun y => key y = j) = none := by
        refine List.find?_eq_none.2 fun y hy => ?_
        simpa [← hj] using (hx y hy).symm
      simp [hj, hnone]
    · simp [hj, Ne.symm hj]

/-- A list of entries is put into the empty table. -/
theorem ofList_eq_foldl (es : List (κ × α)) :
    ofList es = es.foldl (fun t e => t.insert e.1 e.2) ∅ := by
  have hfold : ∀ t : Table κ α, (es.foldl (fun t e => t.insert e.1 e.2) t).entries =
      es.foldl (fun acc e => Entries.insert e.1 e.2 acc) t.entries := by
    intro t
    induction es generalizing t with
    | nil => rfl
    | cons e es ih =>
      simp only [List.foldl_cons]
      exact ih _
  exact ext_entries (hfold ∅).symm

/-- Where keys differ, the only entry under a key is found. -/
theorem find?_ofList [DecidableEq κ] {es : List (κ × α)} (h : (es.map (·.1)).Nodup) (k : κ) :
    (ofList es).find? k = Entries.find? k es := by
  have hkeys : es.Pairwise fun a b => a.1 ≠ b.1 := List.pairwise_map.1 h
  rw [ofList_eq_foldl, find?_insertAll Prod.fst Prod.snd ∅ hkeys k, find?_empty, Option.or_none,
    Entries.find?_eq_map]

/-- Entries that ascend are already in their places. -/
theorem ofList_entries [DecidableEq κ] (t : Table κ α) : ofList t.entries = t :=
  ext_find? fun k => find?_ofList t.nodup_keys k

/-- Keys that all have one value may be repeated. -/
theorem find?_ofList_const [DecidableEq κ] (ks : List κ) (v : α) (k : κ) :
    (ofList (ks.map (·, v))).find? k = if k ∈ ks then some v else none := by
  have hfold : ∀ t : Table κ α, ((ks.map (·, v)).foldl (fun t e => t.insert e.1 e.2) t).find? k =
      if k ∈ ks then some v else t.find? k := by
    induction ks with
    | nil => exact fun t => rfl
    | cons j ks ih =>
      intro t
      rw [List.map_cons, List.foldl_cons, ih, find?_insert]
      by_cases hk : k ∈ ks
      · simp [hk]
      · simp [hk]
  rw [ofList_eq_foldl, hfold, find?_empty]

/-- Each of some keys is listed once. -/
theorem mem_distinct [DecidableEq κ] (ks : List κ) (k : κ) : k ∈ distinct ks ↔ k ∈ ks := by
  have hfind := find?_ofList_const ks () k
  constructor
  · intro hk
    obtain ⟨e, he, rfl⟩ := List.mem_map.1 hk
    rw [mem_entries_iff.1 he] at hfind
    refine Decidable.byContradiction fun hnot => ?_
    rw [if_neg hnot] at hfind
    cases hfind
  · intro hk
    rw [if_pos hk] at hfind
    exact List.mem_map.2 ⟨(k, ()), mem_entries_iff.2 hfind, rfl⟩

/-- They are listed in ascending order. -/
theorem distinct_ascending (ks : List κ) :
    (distinct ks).Pairwise fun a b => compare a b = .lt :=
  List.pairwise_map.2 (ofList (ks.map (·, ()))).ascending

theorem find?_override [DecidableEq κ] (s t : Table κ α) (j : κ) :
    (s.override t).find? j = (t.find? j).or (s.find? j) := by
  have hkeys : t.entries.Pairwise fun a b => a.1 ≠ b.1 := List.pairwise_map.1 t.nodup_keys
  have hfind : t.find? j = (t.entries.find? fun e => e.1 = j).map (·.2) :=
    Entries.find?_eq_map j t.entries
  rw [override, find?_insertAll Prod.fst Prod.snd s hkeys j, hfind]

end Table

end Patchbay
