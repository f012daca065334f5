import Patchbay.Proofs.Json.Tokens

/-!
# JSON texts are read as they are written

The reader is given back what the writer was given, as long as its numerals are of the written form.
The proofs follow the writer: a text is read in front of whatever may follow it, items and members
up to the end of their brackets. The bound on nested calls is compared with the number of characters
of the part that is read.

## Key results

- `takeRaw_render`: a text is read in front of what follows it
- `parse?_toText`: the whole text is read
-/

namespace Patchbay.Json

open Decimal

namespace Raw

mutual

/-- All numerals are of the written form. -/
def Written : Raw → Prop
  | number n => n.Written
  | array xs => WrittenItems xs
  | object ms => WrittenMembers ms
  | _ => True

def WrittenItems : List Raw → Prop
  | [] => True
  | x :: xs => Written x ∧ WrittenItems xs

def WrittenMembers : List (Option String × Raw) → Prop
  | [] => True
  | (_, x) :: ms => Written x ∧ WrittenMembers ms

end

theorem writtenItems_iff {xs : List Raw} : WrittenItems xs ↔ ∀ x ∈ xs, x.Written := by
  induction xs with
  | nil => simp [WrittenItems]
  | cons x xs ih => rw [WrittenItems, List.forall_mem_cons, ih]

theorem writtenMembers_iff {ms : List (Option String × Raw)} :
    WrittenMembers ms ↔ ∀ m ∈ ms, m.2.Written := by
  induction ms with
  | nil => simp [WrittenMembers]
  | cons m ms ih => rw [WrittenMembers, List.forall_mem_cons, ih]

/-- What can follow a text inside of another one: nothing, or something that no text starts with or
goes on with. -/
def Follows (rest : List Char) : Prop :=
  ∀ c ∈ rest.head?, c = ',' ∨ c = ']' ∨ c = '\x7d'

theorem Follows.endsNumeral {rest : List Char} (h : Follows rest) : EndsNumeral rest := by
  intro c hc
  rcases h c hc with rfl | rfl | rfl <;> decide

/-- Further items start with a comma or a bracket. -/
theorem follows_renderItems (xs : List Raw) (rest : List Char) :
    Follows (renderItems xs ++ rest) := by
  intro c hc
  cases xs with
  | nil => exact .inr (.inl (Option.some.inj hc).symm)
  | cons x xs => exact .inl (Option.some.inj hc).symm

theorem follows_renderMembers (ms : List (Option String × Raw)) (rest : List Char) :
    Follows (renderMembers ms ++ rest) := by
  intro c hc
  cases ms with
  | nil => exact .inr (.inr (Option.some.inj hc).symm)
  | cons m ms => exact .inl (Option.some.inj hc).symm

/-- No space is written. -/
theorem skipSpace_cons {c : Char} (h : isSpace c = false) (rest : List Char) :
    skipSpace (c :: rest) = c :: rest := by
  simp [skipSpace, h]

theorem isSpace_digitChar (d : Digit) : isSpace (digitChar d) = false := by
  revert d
  decide

/-- No other text starts with a digit. -/
theorem digitChar_not_mem (d : Digit) :
    digitChar d ∉ ['n', 't', 'f', '"', '[', '\x7b', ']'] := by
  revert d
  decide

/-- A numeral starts with a sign or a digit. -/
theorem exists_render_numeral {n : Numeral} (h : n.Written) :
    ∃ c cs, n.render = c :: cs ∧ (c = '-' ∨ ∃ d, c = digitChar d) := by
  obtain ⟨d, ds, hds⟩ := List.exists_cons_of_ne_nil h.whole
  have hrender := render_numeral n []
  rw [List.append_nil] at hrender
  rw [hrender]
  cases n.negative with
  | true => exact ⟨'-', _, rfl, .inl rfl⟩
  | false =>
    rw [hds]
    exact ⟨digitChar d, _, rfl, .inr ⟨d, rfl⟩⟩

/-- A numeral is read where no other text starts. -/
theorem takeRaw_numeral {n : Numeral} (h : n.Written) {rest : List Char} (hrest : Follows rest)
    (bound : Nat) : takeRaw (bound + 1) (n.render ++ rest) = some (.number n, rest) := by
  have htake := takeNumeral_render h hrest.endsNumeral
  obtain ⟨c, cs, hcs, hc⟩ := exists_render_numeral h
  have hspace : isSpace c = false := by
    rcases hc with rfl | ⟨d, rfl⟩
    · rfl
    · exact isSpace_digitChar d
  have hother : c ∉ ['n', 't', 'f', '"', '[', '\x7b', ']'] := by
    rcases hc with rfl | ⟨d, rfl⟩
    · decide
    · exact digitChar_not_mem d
  rw [hcs, List.cons_append] at htake ⊢
  rw [takeRaw, skipSpace_cons hspace]
  split
  -- Every other case starts with one of these characters.
  case h_7 => rw [htake, Option.map_some]
  all_goals
    rename_i heq
    obtain rfl := (List.cons.inj heq).1
    exact absurd hother (by decide)

/-- What is written starts with no space, and not with a closing bracket. -/
theorem exists_render {r : Raw} (h : r.Written) :
    ∃ c cs, r.render = c :: cs ∧ isSpace c = false ∧ c ≠ ']' := by
  cases r with
  | null => exact ⟨_, _, by rw [render], rfl, by decide⟩
  | bool b => cases b <;> exact ⟨_, _, by rw [render], rfl, by decide⟩
  | number n =>
    obtain ⟨c, cs, hcs, rfl | ⟨d, rfl⟩⟩ := exists_render_numeral h
    · exact ⟨_, cs, by rw [render, hcs], rfl, by decide⟩
    · have hbracket : digitChar d ≠ ']' := by
        intro heq
        have hother := digitChar_not_mem d
        rw [heq] at hother
        exact absurd hother (by decide)
      exact ⟨_, cs, by rw [render, hcs], isSpace_digitChar d, hbracket⟩
  | string s => exact ⟨_, _, by rw [render, quote_eq_cons], rfl, by decide⟩
  | array xs => cases xs <;> exact ⟨_, _, by rw [render], rfl, by decide⟩
  | object ms => cases ms <;> exact ⟨_, _, by rw [render], rfl, by decide⟩

/-- A member is read if its text is. -/
theorem takeMember_render (k : Option String) {x : Raw} {bound : Nat} {rest : List Char}
    (h : takeRaw bound (x.render ++ rest) = some (x, rest)) :
    takeMember (bound + 1) (quote k ++ ':' :: (x.render ++ rest)) = some ((k, x), rest) := by
  rw [quote_eq_cons, List.cons_append, takeMember, skipSpace_cons rfl]
  simp [takeString_quoteBody, skipSpace_cons, h, isSpace]

/-- The first item of an array is read after the bracket. -/
theorem takeRaw_array {x : Raw} (h : x.Written) {xs : List Raw} {bound : Nat}
    {rest rest' : List Char} (hx : takeRaw bound (x.render ++ rest) = some (x, rest))
    (hxs : takeItems bound rest = some (xs, rest')) :
    takeRaw (bound + 1) ('[' :: (x.render ++ rest)) = some (.array (x :: xs), rest') := by
  obtain ⟨c, cs, hcs, hspace, hne⟩ := exists_render h
  rw [hcs, List.cons_append] at hx ⊢
  rw [takeRaw, skipSpace_cons rfl]
  split
  case h_5 heq =>
    rw [← (List.cons.inj heq).2, skipSpace_cons hspace]
    split
    next hend => exact absurd (List.cons.inj hend).1 hne
    next => simp [hx, hxs]
  case h_7 hopens _ => exact (hopens _ rfl).elim
  all_goals
    rename_i heq
    exact absurd (List.cons.inj heq).1 (by decide)

/-- The first member of an object is read after the bracket. -/
theorem takeRaw_object {k : Option String} {x : Raw} {ms : List (Option String × Raw)} {bound : Nat}
    {rest rest' : List Char}
    (hm : takeMember bound (quote k ++ ':' :: (x.render ++ rest)) = some ((k, x), rest))
    (hms : takeMembers bound rest = some (ms, rest')) :
    takeRaw (bound + 1) ('\x7b' :: (quote k ++ ':' :: (x.render ++ rest))) =
      some (.object ((k, x) :: ms), rest') := by
  rw [quote_eq_cons, List.cons_append] at hm ⊢
  rw [takeRaw, skipSpace_cons rfl]
  split
  case h_6 heq =>
    rw [← (List.cons.inj heq).2, skipSpace_cons rfl]
    split
    next hend => exact absurd (List.cons.inj hend).1 (by decide)
    next => simp [hm, hms]
  case h_7 hopens => exact (hopens _ rfl).elim
  all_goals
    rename_i heq
    exact absurd (List.cons.inj heq).1 (by decide)

mutual

/-- A text is read in front of whatever may follow it. -/
theorem takeRaw_render (r : Raw) (h : r.Written) {bound : Nat} {rest : List Char}
    (hrest : Follows rest) (hbound : r.render.length < bound) :
    takeRaw bound (r.render ++ rest) = some (r, rest) := by
  obtain ⟨bound, rfl⟩ : ∃ b, bound = b + 1 := ⟨bound - 1, by omega⟩
  match r with
  | null =>
    rw [render]
    rfl
  | bool true =>
    rw [render]
    rfl
  | bool false =>
    rw [render]
    rfl
  | number n =>
    rw [render]
    exact takeRaw_numeral h hrest bound
  | string s =>
    rw [render, quote_eq_cons, List.cons_append, takeRaw, skipSpace_cons rfl]
    simp [takeString_quoteBody]
  | array [] =>
    rw [render]
    rfl
  | array (x :: xs) =>
    simp only [render, List.length_cons, List.length_append] at hbound
    have hx := takeRaw_render x h.1 (follows_renderItems xs rest) (show _ < bound by omega)
    have hxs := takeItems_renderItems xs h.2 rest (show _ < bound by omega)
    rw [render, List.cons_append, List.append_assoc]
    exact takeRaw_array h.1 hx hxs
  | object [] =>
    rw [render]
    rfl
  | object ((k, x) :: ms) =>
    simp only [render, List.length_cons, List.length_append] at hbound
    obtain ⟨bound, rfl⟩ : ∃ b, bound = b + 1 := ⟨bound - 1, by omega⟩
    have hx := takeRaw_render x h.1 (follows_renderMembers ms rest) (show _ < bound by omega)
    have hms := takeMembers_renderMembers ms h.2 rest (show _ < bound + 1 by omega)
    rw [render, List.cons_append, List.append_assoc, List.cons_append, List.append_assoc]
    exact takeRaw_object (takeMember_render k hx) hms

/-- Items are read up to the end of their array. -/
theorem takeItems_renderItems (xs : List Raw) (h : WrittenItems xs) {bound : Nat}
    (rest : List Char) (hbound : (renderItems xs).length < bound) :
    takeItems bound (renderItems xs ++ rest) = some (xs, rest) := by
  obtain ⟨bound, rfl⟩ : ∃ b, bound = b + 1 := ⟨bound - 1, by omega⟩
  match xs with
  | [] =>
    rw [renderItems]
    rfl
  | x :: xs =>
    simp only [renderItems, List.length_cons, List.length_append] at hbound
    have hx := takeRaw_render x h.1 (follows_renderItems xs rest) (show _ < bound by omega)
    have hxs := takeItems_renderItems xs h.2 rest (show _ < bound by omega)
    rw [renderItems, List.cons_append, List.append_assoc, takeItems, skipSpace_cons rfl]
    simp [hx, hxs]

/-- Members are read up to the end of their object. -/
theorem takeMembers_renderMembers (ms : List (Option String × Raw)) (h : WrittenMembers ms)
    {bound : Nat} (rest : List Char) (hbound : (renderMembers ms).length < bound) :
    takeMembers bound (renderMembers ms ++ rest) = some (ms, rest) := by
  obtain ⟨bound, rfl⟩ : ∃ b, bound = b + 1 := ⟨bound - 1, by omega⟩
  match ms with
  | [] =>
    rw [renderMembers]
    rfl
  | (k, x) :: ms =>
    simp only [renderMembers, List.length_cons, List.length_append] at hbound
    obtain ⟨bound, rfl⟩ : ∃ b, bound = b + 1 := ⟨bound - 1, by omega⟩
    have hx := takeRaw_render x h.1 (follows_renderMembers ms rest) (show _ < bound by omega)
    have hms := takeMembers_renderMembers ms h.2 rest (show _ < bound + 1 by omega)
    have hm := takeMember_render k hx
    rw [renderMembers, List.cons_append, List.append_assoc, List.cons_append, List.append_assoc,
      takeMembers, skipSpace_cons rfl]
    simp [hm, hms]

end

/-- A text is read as it was written. -/
theorem parse?_toText {r : Raw} (h : r.Written) : Raw.parse? r.toText = some r := by
  have hread : takeRaw (r.render.length + 1) (r.render ++ []) = some (r, []) :=
    takeRaw_render r h (fun _ hc => by cases hc) (Nat.lt_succ_self _)
  rw [List.append_nil] at hread
  unfold Raw.parse? toText
  rw [String.toList_ofList, String.length_ofList, hread]
  rfl

end Raw

end Patchbay.Json
