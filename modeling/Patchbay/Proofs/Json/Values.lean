import Patchbay.Json.Shape
import Patchbay.Proofs.Json.Parsing
import Patchbay.Proofs.Table

/-!
# Values are read as they are written

A value is read back if its floating-point numbers are, and if it does not nest too deep. Integers
always are, and strings of any characters. A floating-point number may be read as a neighbour of
itself, because reading rounds more than once.

## Key results

- `Number.ofNumeral?_toNumeral`: when a number is read back
- `value?_toRaw`: when a value is read back
- `of_value?`: what is read has ascending members, and nests no deeper than is allowed
-/

namespace Patchbay

open Json

/-! ### Numbers -/

/-- The digits that a floating-point number is written in are read as this number. -/
def ReadsBack (x : Float) : Prop :=
  (Number.ofNumeral? (Number.layout.ofFloat x)).map Number.toFloat = some x

instance (x : Float) : Decidable (ReadsBack x) :=
  inferInstanceAs (Decidable ((Number.ofNumeral? (Number.layout.ofFloat x)).map Number.toFloat = _))

namespace Number

/-- A floating-point number reads back; nothing is asked of integers. -/
def Legible : Number → Prop
  | int _ _ => True
  | float x _ => ReadsBack x

instance : (n : Number) → Decidable n.Legible
  | int _ _ => isTrue trivial
  | float x _ => inferInstanceAs (Decidable (ReadsBack x))

/-- A numeral with a point or an exponent is no integer. -/
theorem ofNumeral?_of_not_isWhole {n : Decimal.Numeral} (h : n.isWhole = false) :
    ofNumeral? n = n.stepwise.bind ofFloat? := by
  unfold ofNumeral?
  rw [h]
  rfl

/-- What reads back is finite, and is read as a floating-point number. -/
theorem ofNumeral?_ofFloat {x : Float} (h : ReadsBack x) :
    ∃ hx : x.isFinite = true, ofNumeral? (layout.ofFloat x) = some (float x hx) := by
  unfold ReadsBack at h
  obtain ⟨m, hm, rfl⟩ := Option.map_eq_some_iff.1 h
  have hfloat := hm
  rw [ofNumeral?_of_not_isWhole (Decimal.Layout.written_ofFloat (by decide) _).2,
    Option.bind_eq_some_iff] at hfloat
  obtain ⟨y, _, hy⟩ := hfloat
  unfold ofFloat? at hy
  split at hy
  next hfinite =>
    obtain rfl := Option.some.inj hy
    exact ⟨hfinite, hm⟩
  next => cases hy

/-- An integer is read back, and a floating-point number that reads back. -/
theorem ofNumeral?_toNumeral {n : Number} (h : n.Legible) : ofNumeral? n.toNumeral = some n := by
  cases n with
  | float x hx =>
    obtain ⟨_, hread⟩ := ofNumeral?_ofFloat h
    exact hread
  | int n hn =>
    have hint : ofInt? n = some (int n hn) := dif_pos hn
    have hwhole : (Decimal.Numeral.ofInt n).isWhole = true := rfl
    have hsize : Decimal.ofDigits (Decimal.Numeral.ofInt n).whole = n.natAbs :=
      Decimal.ofDigits_digits n.natAbs
    unfold ofNumeral? toNumeral
    simp only [hwhole, hsize, if_true]
    by_cases hneg : n < 0
    · have hsign : (Decimal.Numeral.ofInt n).negative = true := decide_eq_true hneg
      have habs : -(n.natAbs : Int) = n := by omega
      rw [hsign, if_pos rfl, if_neg (by omega), habs, hint]
      rfl
    · have hsign : (Decimal.Numeral.ofInt n).negative = false := decide_eq_false hneg
      have habs : (n.natAbs : Int) = n := by omega
      rw [hsign, if_neg Bool.false_ne_true, habs, hint]
      rfl

theorem written_toNumeral (n : Number) : n.toNumeral.Written := by
  cases n with
  | int n _ => exact Decimal.Numeral.written_ofInt n
  | float x _ => exact (Decimal.Layout.written_ofFloat (by decide) x).1

end Number

/-! ### Values -/

namespace Json.Raw

mutual

/-- How deep arrays and objects nest. -/
def depth : Raw → Nat
  | array xs => depthItems xs + 1
  | object ms => depthMembers ms + 1
  | _ => 0

def depthItems : List Raw → Nat
  | [] => 0
  | x :: xs => max (depth x) (depthItems xs)

def depthMembers : List (Option String × Raw) → Nat
  | [] => 0
  | (_, x) :: ms => max (depth x) (depthMembers ms)

end

theorem depthItems_le_iff {xs : List Raw} {levels : Nat} :
    depthItems xs ≤ levels ↔ ∀ x ∈ xs, x.depth ≤ levels := by
  induction xs with
  | nil => simp [depthItems]
  | cons x xs ih => rw [depthItems, Nat.max_le, List.forall_mem_cons, ih]

theorem depthMembers_le_iff {ms : List (Option String × Raw)} {levels : Nat} :
    depthMembers ms ≤ levels ↔ ∀ m ∈ ms, m.2.depth ≤ levels := by
  induction ms with
  | nil => simp [depthMembers]
  | cons m ms ih => rw [depthMembers, Nat.max_le, List.forall_mem_cons, ih]

end Json.Raw

namespace Value

mutual

/-- The keys of every object ascend. -/
def Ordered : Value → Prop
  | array xs => OrderedItems xs
  | object ms => Entries.Ascending ms ∧ OrderedMembers ms
  | _ => True

def OrderedItems : List Value → Prop
  | [] => True
  | x :: xs => Ordered x ∧ OrderedItems xs

def OrderedMembers : List (String × Value) → Prop
  | [] => True
  | (_, x) :: ms => Ordered x ∧ OrderedMembers ms

end

mutual

/-- Every number in the value is read back. -/
def Legible : Value → Prop
  | number n => n.Legible
  | array xs => LegibleItems xs
  | object ms => LegibleMembers ms
  | _ => True

def LegibleItems : List Value → Prop
  | [] => True
  | x :: xs => Legible x ∧ LegibleItems xs

def LegibleMembers : List (String × Value) → Prop
  | [] => True
  | (_, x) :: ms => Legible x ∧ LegibleMembers ms

end

mutual

/-- The numbers of a value are tried one after the other. -/
def decideLegible : (v : Value) → Decidable v.Legible
  | null | bool _ | string _ => isTrue trivial
  | number n => inferInstanceAs (Decidable n.Legible)
  | array xs => decideLegibleItems xs
  | object ms => decideLegibleMembers ms

def decideLegibleItems : (xs : List Value) → Decidable (LegibleItems xs)
  | [] => isTrue trivial
  | x :: xs => @instDecidableAnd _ _ (decideLegible x) (decideLegibleItems xs)

def decideLegibleMembers : (ms : List (String × Value)) → Decidable (LegibleMembers ms)
  | [] => isTrue trivial
  | (_, x) :: ms => @instDecidableAnd _ _ (decideLegible x) (decideLegibleMembers ms)

end

instance (v : Value) : Decidable v.Legible := v.decideLegible

mutual

/-- Values are written with numerals that can be read. -/
theorem written_toRaw (v : Value) : v.toRaw.Written := by
  match v with
  | null | bool _ | string _ => trivial
  | number n => exact n.written_toNumeral
  | array xs => exact written_toRawItems xs
  | object ms => exact written_toRawMembers ms

theorem written_toRawItems (xs : List Value) : Raw.WrittenItems (toRawItems xs) := by
  match xs with
  | [] => trivial
  | x :: xs => exact ⟨written_toRaw x, written_toRawItems xs⟩

theorem written_toRawMembers (ms : List (String × Value)) :
    Raw.WrittenMembers (toRawMembers ms) := by
  match ms with
  | [] => trivial
  | (_, x) :: ms => exact ⟨written_toRaw x, written_toRawMembers ms⟩

end

mutual

/-- A value is read back if its numbers are and it does not nest too deep. -/
theorem value?_toRaw (v : Value) (ho : v.Ordered) (hl : v.Legible) {levels : Nat}
    (hd : v.toRaw.depth ≤ levels) : Raw.value? levels v.toRaw = some v := by
  -- The recursion is the writer's; each bracket takes one of the levels that are left.
  match v with
  | null | bool _ => rw [toRaw, Raw.value?]
  | string s => rw [toRaw, Raw.value?, Option.map_some]
  | number n =>
    rw [toRaw, Raw.value?, Number.ofNumeral?_toNumeral hl, Option.map_some]
  | array xs =>
    rw [toRaw, Raw.depth] at hd
    obtain ⟨levels, rfl⟩ : ∃ l, levels = l + 1 := ⟨levels - 1, by omega⟩
    have hxs := values?_toRawItems xs ho hl (Nat.le_of_succ_le_succ hd)
    rw [toRaw, Raw.value?, hxs, Option.map_some]
  | object ms =>
    rw [toRaw, Raw.depth] at hd
    obtain ⟨levels, rfl⟩ : ∃ l, levels = l + 1 := ⟨levels - 1, by omega⟩
    have hms := members?_toRawMembers ms ho.2 hl (Nat.le_of_succ_le_succ hd)
    have hplaces : Entries.ofList ms = ms :=
      congrArg Table.entries (Table.ofList_entries ⟨ms, ho.1⟩)
    rw [toRaw, Raw.value?, hms, Option.map_some, ofMembers, hplaces]

theorem values?_toRawItems (xs : List Value) (ho : OrderedItems xs) (hl : LegibleItems xs)
    {levels : Nat} (hd : Raw.depthItems (toRawItems xs) ≤ levels) :
    Raw.values? levels (toRawItems xs) = some xs := by
  match xs with
  | [] => rfl
  | x :: xs =>
    rw [toRawItems, Raw.depthItems, Nat.max_le] at hd
    rw [toRawItems, Raw.values?, value?_toRaw x ho.1 hl.1 hd.1,
      values?_toRawItems xs ho.2 hl.2 hd.2]
    rfl

theorem members?_toRawMembers (ms : List (String × Value)) (ho : OrderedMembers ms)
    (hl : LegibleMembers ms) {levels : Nat} (hd : Raw.depthMembers (toRawMembers ms) ≤ levels) :
    Raw.members? levels (toRawMembers ms) = some ms := by
  match ms with
  | [] => rfl
  | (k, x) :: ms =>
    rw [toRawMembers, Raw.depthMembers, Nat.max_le] at hd
    rw [toRawMembers, Raw.members?, value?_toRaw x ho.1 hl.1 hd.1,
      members?_toRawMembers ms ho.2 hl.2 hd.2]
    rfl

end

theorem orderedMembers_iff {ms : List (String × Value)} :
    OrderedMembers ms ↔ ∀ m ∈ ms, m.2.Ordered := by
  induction ms with
  | nil => simp [OrderedMembers]
  | cons m ms ih => rw [OrderedMembers, List.forall_mem_cons, ih]

theorem toRawMembers_eq_map (ms : List (String × Value)) :
    toRawMembers ms = ms.map fun m => (some m.1, m.2.toRaw) := by
  induction ms with
  | nil => rfl
  | cons m ms ih => rw [toRawMembers, ih, List.map_cons]

mutual

/-- What is read has ascending members, and nests no deeper than was allowed. -/
theorem of_value? (r : Raw) {levels : Nat} {v : Value} (h : Raw.value? levels r = some v) :
    v.Ordered ∧ v.toRaw.depth ≤ levels := by
  match r, levels with
  | .null, levels | .bool _, levels =>
    rw [Raw.value?] at h
    obtain rfl := Option.some.inj h
    exact ⟨trivial, Nat.zero_le _⟩
  | .number n, levels =>
    rw [Raw.value?] at h
    obtain ⟨m, _, rfl⟩ := Option.map_eq_some_iff.1 h
    exact ⟨trivial, Nat.zero_le _⟩
  | .string s, levels =>
    rw [Raw.value?] at h
    obtain ⟨s, _, rfl⟩ := Option.map_eq_some_iff.1 h
    exact ⟨trivial, Nat.zero_le _⟩
  | .array _, 0 | .object _, 0 =>
    rw [Raw.value?] at h
    cases h
  | .array xs, levels + 1 =>
    rw [Raw.value?] at h
    obtain ⟨vs, hvs, rfl⟩ := Option.map_eq_some_iff.1 h
    obtain ⟨hordered, hdepth⟩ := of_values? xs hvs
    exact ⟨hordered, Nat.succ_le_succ hdepth⟩
  | .object ms, levels + 1 =>
    rw [Raw.value?] at h
    obtain ⟨vs, hvs, rfl⟩ := Option.map_eq_some_iff.1 h
    -- Of members under one key the last stays; the others are not looked at again.
    have hmem : ∀ m ∈ Entries.ofList vs, m.2.Ordered ∧ m.2.toRaw.depth ≤ levels :=
      fun m hm => of_members? ms hvs m (Entries.mem_ofList hm)
    have hordered := orderedMembers_iff.2 fun m hm => (hmem m hm).1
    have hdepth : Raw.depthMembers (toRawMembers (Entries.ofList vs)) ≤ levels := by
      rw [toRawMembers_eq_map, Raw.depthMembers_le_iff]
      exact List.forall_mem_map.2 fun m hm => (hmem m hm).2
    exact ⟨⟨Entries.ascending_ofList vs, hordered⟩, Nat.succ_le_succ hdepth⟩

theorem of_values? (xs : List Raw) {levels : Nat} {vs : List Value}
    (h : Raw.values? levels xs = some vs) :
    OrderedItems vs ∧ Raw.depthItems (toRawItems vs) ≤ levels := by
  match xs with
  | [] =>
    rw [Raw.values?] at h
    obtain rfl := Option.some.inj h
    exact ⟨trivial, Nat.zero_le _⟩
  | x :: xs =>
    simp only [Raw.values?, Option.bind_eq_bind, Option.bind_eq_some_iff] at h
    obtain ⟨v, hv, vs, hvs, hcons⟩ := h
    obtain rfl := Option.some.inj hcons
    obtain ⟨hordered, hdepth⟩ := of_value? x hv
    obtain ⟨hordereds, hdepths⟩ := of_values? xs hvs
    exact ⟨⟨hordered, hordereds⟩, Nat.max_le.2 ⟨hdepth, hdepths⟩⟩

theorem of_members? (ms : List (Option String × Raw)) {levels : Nat} {vs : List (String × Value)}
    (h : Raw.members? levels ms = some vs) :
    ∀ m ∈ vs, m.2.Ordered ∧ m.2.toRaw.depth ≤ levels := by
  match ms with
  | [] =>
    rw [Raw.members?] at h
    obtain rfl := Option.some.inj h
    exact fun m hm => absurd hm List.not_mem_nil
  | (k, x) :: ms =>
    simp only [Raw.members?, Option.bind_eq_bind, Option.bind_eq_some_iff] at h
    obtain ⟨k, _, v, hv, vs, hvs, hcons⟩ := h
    obtain rfl := Option.some.inj hcons
    exact List.forall_mem_cons.2 ⟨of_value? x hv, of_members? ms hvs⟩

end

end Value

end Patchbay
