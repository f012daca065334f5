import Mathlib.Data.List.Nodup
import Patchbay.Graph
import Patchbay.Proofs.Table

/-!
# Kinds and the lists of their categories

A graph keeps its kinds twice: by their ids, and as lists of ids by category. A declaration may
replace a kind, which was in the list of the same category, or of another one that is left empty
by it. So a step on one table has to fit a step on the other.

What both tables hold is said by the declarations that were made one after the other: of those
with one id the last one counts, and it stands where it was made (`Declaration.latest`).

## Key results

- `latest_concat`: what one more declaration does to those that count
- `Graph.Lists.declare`: a declaration keeps the two tables in step
- `Graph.Lists.count_listed`: each kind is listed once, and nothing else is
-/

namespace Patchbay

namespace Declaration

/-- The declarations of a list that no later one with the same id replaces. -/
def latest : List Declaration → List Declaration
  | [] => []
  | d :: ds => if ds.any (·.id = d.id) then latest ds else d :: latest ds

/-- The ids of the declarations that belong to a category. -/
def idsOf (category : String) (ds : List Declaration) : List String :=
  (ds.filter (·.category = category)).map (·.id)

variable {ds : List Declaration} {d : Declaration}

/-- One more declaration replaces the one with its id, and goes to the end. -/
theorem latest_concat (ds : List Declaration) (d : Declaration) :
    latest (ds ++ [d]) = (latest ds).filter (·.id ≠ d.id) ++ [d] := by
  induction ds with
  | nil => rfl
  | cons e ds ih =>
    rw [List.cons_append, latest, latest, ih, List.any_append]
    by_cases hany : (ds.any (·.id = e.id)) = true
    · simp [hany]
    · by_cases he : d.id = e.id
      · simp [hany, he]
      · simp [hany, he, Ne.symm he]

theorem mem_of_mem_latest (h : d ∈ latest ds) : d ∈ ds := by
  induction ds with
  | nil => cases h
  | cons e ds ih =>
    rw [latest] at h
    split at h
    · exact List.mem_cons_of_mem e (ih h)
    · rcases List.mem_cons.1 h with rfl | h
      · exact List.mem_cons_self
      · exact List.mem_cons_of_mem e (ih h)

/-- No two of the declarations that count have one id. -/
theorem nodup_latest (ds : List Declaration) : ((latest ds).map (·.id)).Nodup := by
  induction ds with
  | nil => exact List.nodup_nil
  | cons d ds ih =>
    rw [latest]
    split
    next => exact ih
    next hnot =>
      refine List.nodup_cons.2 ⟨fun hmem => hnot ?_, ih⟩
      obtain ⟨e, he, hid⟩ := List.mem_map.1 hmem
      exact List.any_eq_true.2 ⟨e, mem_of_mem_latest he, decide_eq_true hid⟩

theorem eq_of_mem_latest {e : Declaration} (hd : d ∈ latest ds) (he : e ∈ latest ds)
    (hid : d.id = e.id) : d = e :=
  List.inj_on_of_nodup_map (nodup_latest ds) hd he hid

theorem find?_latest_eq_some_iff {id : String} :
    (latest ds).find? (·.id = id) = some d ↔ d ∈ latest ds ∧ d.id = id := by
  constructor
  · intro h
    exact ⟨List.mem_of_find?_eq_some h, by simpa using List.find?_some h⟩
  · rintro ⟨hd, rfl⟩
    obtain ⟨e, he⟩ := Option.isSome_iff_exists.1
      (List.find?_isSome.2 ⟨d, hd, decide_eq_true rfl⟩ :
        ((latest ds).find? (·.id = d.id)).isSome = true)
    rw [he, eq_of_mem_latest (List.mem_of_find?_eq_some he) hd (by simpa using List.find?_some he)]

/-- The last declaration is found under its id. -/
theorem find?_latest_concat (ds : List Declaration) (d : Declaration) (id : String) :
    (latest (ds ++ [d])).find? (·.id = id) =
      if id = d.id then some d else (latest ds).find? (·.id = id) := by
  split
  next h =>
    rw [find?_latest_eq_some_iff, latest_concat]
    exact ⟨List.mem_append_right _ List.mem_cons_self, h.symm⟩
  next h =>
    ext e
    rw [find?_latest_eq_some_iff, find?_latest_eq_some_iff, latest_concat]
    constructor
    · rintro ⟨he, rfl⟩
      rcases List.mem_append.1 he with he | he
      · exact ⟨(List.mem_filter.1 he).1, rfl⟩
      · exact absurd (congrArg Declaration.id (List.mem_singleton.1 he)) h
    · rintro ⟨he, rfl⟩
      exact ⟨List.mem_append_left _ (List.mem_filter.2 ⟨he, decide_eq_true h⟩), rfl⟩

theorem mem_idsOf {category id : String} :
    id ∈ idsOf category ds ↔ ∃ d ∈ ds, d.category = category ∧ d.id = id := by
  simp [idsOf, and_assoc]

/-- Without an id the lists are those of the other declarations. -/
theorem idsOf_filter (category id : String) (ds : List Declaration) :
    idsOf category (ds.filter (·.id ≠ id)) = (idsOf category ds).filter (· ≠ id) := by
  simp only [idsOf, List.filter_filter, List.filter_map]
  congr 2
  funext d
  exact Bool.and_comm _ _

theorem idsOf_concat (category : String) (ds : List Declaration) (d : Declaration) :
    idsOf category (ds ++ [d]) =
      if category = d.category then idsOf category ds ++ [d.id] else idsOf category ds := by
  by_cases h : d.category = category
  · simp [idsOf, h]
  · simp [idsOf, h, Ne.symm h]

end Declaration

namespace Graph

open Declaration

/-- A list of ids, if there is anything in it. -/
def unlessEmpty (ids : List String) : Option (List String) := if ids = [] then none else some ids

theorem unlessEmpty_eq_some_iff {ids l : List String} :
    unlessEmpty ids = some l ↔ ids = l ∧ l ≠ [] := by
  unfold unlessEmpty
  split
  next h => simp [h]
  next h =>
    rw [Option.some.injEq]
    exact ⟨fun hl => ⟨hl, hl ▸ h⟩, fun hl => hl.1⟩

theorem getD_unlessEmpty (ids : List String) : (unlessEmpty ids).getD [] = ids := by
  unfold unlessEmpty
  split
  next h => exact h.symm
  next => rfl

/-- An id leaves the list of one category, and the list disappears with its last id. -/
theorem find?_unlist {cs : Table String (List String)} {f : String → List String}
    (h : ∀ c, cs.find? c = unlessEmpty (f c)) (category id c : String) :
    (unlist cs category id).find? c =
      unlessEmpty (if c = category then (f c).filter (· ≠ id) else f c) := by
  unfold unlist
  rw [h category]
  cases hf : unlessEmpty (f category) with
  | none =>
    have hnil : f category = [] := by simpa [unlessEmpty] using hf
    rw [h c]
    split
    next hc => rw [hc, hnil, List.filter_nil]
    next => rfl
  | some ids =>
    obtain ⟨rfl, -⟩ := unlessEmpty_eq_some_iff.1 hf
    dsimp only
    cases hleft : ((f category).filter (· ≠ id)).isEmpty with
    | true =>
      rw [if_pos rfl, Table.find?_erase, h c]
      split
      next hc => rw [hc, List.isEmpty_iff.1 hleft, unlessEmpty, if_pos rfl]
      next => rfl
    | false =>
      have hne : (f category).filter (· ≠ id) ≠ [] := fun hnil => by
        rw [hnil] at hleft
        cases hleft
      rw [if_neg Bool.false_ne_true, Table.find?_insert, h c]
      split
      next hc => rw [hc, unlessEmpty, if_neg hne]
      next => rfl

/-- An id goes to the end of the list of its category. -/
theorem find?_list {cs : Table String (List String)} {f : String → List String}
    (h : ∀ c, cs.find? c = unlessEmpty (f c)) (category id c : String) :
    (list cs category id).find? c =
      unlessEmpty (if c = category then f c ++ [id] else f c) := by
  rw [list, Table.find?_insert, h category, getD_unlessEmpty, h c]
  split
  next hc => rw [hc, unlessEmpty, if_neg (by simp)]
  next => rfl

/-- The kinds of the graph are those that were declared last under their ids, and the list of each
category has the ids of its kinds in the order in which these were declared. -/
structure Lists (g : Graph) (ds : List Declaration) : Prop where
  kinds : ∀ id, g.kinds.find? id = (latest ds).find? (·.id = id)
  categories : ∀ c, g.categories.find? c = unlessEmpty (idsOf c (latest ds))

variable {g : Graph} {ds : List Declaration}

theorem lists_empty (supportsFlow : Bool) (conversions : Conversions) :
    (Graph.empty supportsFlow conversions).Lists [] :=
  ⟨fun _ => rfl, fun _ => rfl⟩

theorem Lists.congr {h : Graph} (hg : g.Lists ds) (hkinds : h.kinds = g.kinds)
    (hcategories : h.categories = g.categories) : h.Lists ds :=
  ⟨fun id => by rw [hkinds, hg.kinds], fun c => by rw [hcategories, hg.categories]⟩

/-- An id is in no list but that of the category of its kind. -/
theorem Lists.filter_idsOf (hg : g.Lists ds) {id c : String}
    (h : ∀ d, g.kinds.find? id = some d → d.category ≠ c) :
    (idsOf c (latest ds)).filter (· ≠ id) = idsOf c (latest ds) := by
  refine List.filter_eq_self.2 fun j hj => decide_eq_true ?_
  rintro rfl
  obtain ⟨d, hd, hcategory, hid⟩ := mem_idsOf.1 hj
  exact h d ((hg.kinds j).trans (find?_latest_eq_some_iff.2 ⟨hd, hid⟩)) hcategory

/-- A declaration takes its id out of the list that has it, and puts it at the end of the list of
its own category. -/
theorem Lists.find?_categories_declare (hg : g.Lists ds) (d : Declaration) (c : String) :
    (g.declare d).categories.find? c =
      unlessEmpty (if c = d.category then (idsOf c (latest ds)).filter (· ≠ d.id) ++ [d.id]
        else (idsOf c (latest ds)).filter (· ≠ d.id)) := by
  unfold declare
  split
  next old hold =>
    have hid : old.id = d.id := (find?_latest_eq_some_iff.1 ((hg.kinds d.id).symm.trans hold)).2
    refine find?_list (f := fun c => (idsOf c (latest ds)).filter (· ≠ d.id)) (fun c => ?_) _ _ _
    rw [find?_unlist hg.categories, hid]
    split
    next => rfl
    next hc =>
      rw [hg.filter_idsOf]
      intro e he hcategory
      obtain rfl := Option.some.inj (hold.symm.trans he)
      exact hc hcategory.symm
  next hnone =>
    refine find?_list (f := fun c => (idsOf c (latest ds)).filter (· ≠ d.id)) (fun c => ?_) _ _ _
    rw [hg.categories, hg.filter_idsOf]
    intro e he
    cases hnone.symm.trans he

/-- A declaration is one more in the two tables. -/
theorem Lists.declare (hg : g.Lists ds) (d : Declaration) : (g.declare d).Lists (ds ++ [d]) where
  kinds := fun id => by
    show (g.kinds.insert d.id d).find? id = _
    rw [Table.find?_insert, hg.kinds, find?_latest_concat]
  categories := fun c => by
    rw [hg.find?_categories_declare, latest_concat, idsOf_concat, idsOf_filter]

/-! ### What is listed -/

/-- The ids in the lists of all categories. -/
def listed (g : Graph) : List String := g.categories.entries.flatMap (·.2)

/-- A list has the kinds of its category. -/
theorem Lists.mem_iff (hg : g.Lists ds) {c : String} {ids : List String}
    (hc : g.categories.find? c = some ids) (id : String) :
    id ∈ ids ↔ ∃ d, g.kinds.find? id = some d ∧ d.category = c := by
  obtain ⟨rfl, -⟩ := unlessEmpty_eq_some_iff.1 ((hg.categories c).symm.trans hc)
  simp only [mem_idsOf, hg.kinds, find?_latest_eq_some_iff]
  constructor
  · rintro ⟨d, hd, hcategory, hid⟩
    exact ⟨d, ⟨hd, hid⟩, hcategory⟩
  · rintro ⟨d, ⟨hd, hid⟩, hcategory⟩
    exact ⟨d, hd, hcategory, hid⟩

/-- There is a list for the category of every kind. -/
theorem Lists.exists_list (hg : g.Lists ds) {id : String} {d : Declaration}
    (hd : g.kinds.find? id = some d) : ∃ ids, g.categories.find? d.category = some ids := by
  obtain ⟨hmem, -⟩ := find?_latest_eq_some_iff.1 ((hg.kinds id).symm.trans hd)
  refine ⟨_, (hg.categories d.category).trans (unlessEmpty_eq_some_iff.2 ⟨rfl, fun hnil => ?_⟩)⟩
  have hid : d.id ∈ idsOf d.category (latest ds) := mem_idsOf.2 ⟨d, hmem, rfl, rfl⟩
  rw [hnil] at hid
  cases hid

/-- Nothing is listed twice, neither in one list nor in two. -/
theorem Lists.nodup_listed (hg : g.Lists ds) : g.listed.Nodup := by
  refine List.nodup_flatMap.2 ⟨fun e he => ?_, ?_⟩
  · obtain ⟨hids, -⟩ := unlessEmpty_eq_some_iff.1
      ((hg.categories e.1).symm.trans (Table.mem_entries_iff.1 he))
    rw [← hids]
    exact (List.filter_sublist.map _).nodup (nodup_latest ds)
  · refine List.Pairwise.imp_of_mem (fun {a b} ha hb hab => ?_)
      (List.pairwise_map.1 g.categories.nodup_keys)
    -- A kind has only one category.
    refine List.disjoint_iff_ne.2 ?_
    rintro id ha' _ hb' rfl
    obtain ⟨d, hd, hda⟩ := (hg.mem_iff (Table.mem_entries_iff.1 ha) id).1 ha'
    obtain ⟨e, he, heb⟩ := (hg.mem_iff (Table.mem_entries_iff.1 hb) id).1 hb'
    obtain rfl := Option.some.inj (hd.symm.trans he)
    exact hab (hda.symm.trans heb)

/-- Every kind is listed once, and nothing else is listed. -/
theorem Lists.count_listed (hg : g.Lists ds) (id : String) :
    g.listed.count id = if g.kinds.contains id then 1 else 0 := by
  have hmem : id ∈ g.listed ↔ g.kinds.contains id = true := by
    rw [listed, List.mem_flatMap, Table.contains, Option.isSome_iff_exists]
    constructor
    · rintro ⟨e, he, hid⟩
      obtain ⟨d, hd, -⟩ := (hg.mem_iff (Table.mem_entries_iff.1 he) id).1 hid
      exact ⟨d, hd⟩
    · rintro ⟨d, hd⟩
      obtain ⟨ids, hids⟩ := hg.exists_list hd
      exact ⟨(d.category, ids), Table.mem_entries_iff.2 hids, (hg.mem_iff hids id).2 ⟨d, hd, rfl⟩⟩
  rw [hg.nodup_listed.count]
  simp only [hmem]

end Graph

end Patchbay
