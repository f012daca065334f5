import Patchbay.Json.Reading
import Patchbay.Proofs.Decimal.Written

/-!
# Strings and numerals are read as they are written

The parts of a JSON text that have no parts themselves. A string is read piece by piece, and its
pieces are put together afterwards; a numeral is read up to the first character that cannot belong
to it.

## Key results

- `takeString_quoteBody`: any string comes back from between its quotes
- `takeNumeral_render`: a numeral comes back, if what follows does not go on with it
-/

namespace Patchbay.Json

open Decimal

/-! ### Strings -/

theorem hex?_hexChar {n : Nat} (h : n < 16) : hex? (hexChar n) = some n := by
  have hall : ∀ i : Fin 16, hex? (hexChar i.val) = some i.val := by decide
  exact hall ⟨n, h⟩

/-- The piece that the escaped form of a character is read as. -/
def Piece.ofChar (c : Char) : Piece :=
  if c = '\x08' ∨ c = '\x0c' ∨ c = '\n' ∨ c = '\r' ∨ c = '\t' then .char c
  else if c.toNat < 0x20 then .unit c.toNat
  else .char c

/-- A letter after a backslash is read as one piece. -/
theorem takePieces_letter {l c : Char} (hl : l ≠ 'u') (h : unescape? l = some c)
    (rest : List Char) :
    takePieces ('\\' :: l :: rest) = (takePieces rest).map fun p => (.char c :: p.1, p.2) := by
  rw [takePieces.eq_4 _ _ fun _ _ _ _ _ hu => absurd hu hl, h]
  cases takePieces rest <;> rfl

/-- A character that needs no escape is read as one piece. -/
theorem takePieces_plain {c : Char} (hquote : c ≠ '"') (hback : c ≠ '\\') (hlow : ¬ c.toNat < 0x20)
    (rest : List Char) :
    takePieces (c :: rest) = (takePieces rest).map fun p => (.char c :: p.1, p.2) := by
  rw [takePieces.eq_5 _ _ hquote (fun _ _ _ _ _ h => absurd h hback) (fun _ _ h => absurd h hback),
    if_neg (by simp [hlow, hback])]
  cases takePieces rest <;> rfl

/-- The four digits of a control character are read as one piece. -/
theorem takePieces_control {c : Char} (hlow : c.toNat < 0x20) (rest : List Char) :
    takePieces ('\\' :: 'u' :: '0' :: '0' :: hexChar (c.toNat / 16) :: hexChar (c.toNat % 16) ::
      rest) = (takePieces rest).map fun p => (.unit c.toNat :: p.1, p.2) := by
  have hhigh := hex?_hexChar (show c.toNat / 16 < 16 by omega)
  have hrest := hex?_hexChar (show c.toNat % 16 < 16 by omega)
  have hzero : hex? '0' = some 0 := rfl
  have hnumber : ((0 * 16 + 0) * 16 + c.toNat / 16) * 16 + c.toNat % 16 = c.toNat := by omega
  simp only [takePieces, hzero, hhigh, hrest, Option.bind_eq_bind, Option.bind_some, hnumber]
  cases takePieces rest <;> rfl

/-- An escaped character is read as one piece. -/
theorem takePieces_escape (c : Char) (rest : List Char) :
    takePieces (escape c ++ rest) = (takePieces rest).map fun p => (.ofChar c :: p.1, p.2) := by
  by_cases hletter : c ∈ ['"', '\\', '\x08', '\x0c', '\n', '\r', '\t']
  · simp only [List.mem_cons, List.not_mem_nil, or_false] at hletter
    rcases hletter with rfl | rfl | rfl | rfl | rfl | rfl | rfl
    all_goals exact takePieces_letter (by decide) rfl rest
  · simp only [List.mem_cons, List.not_mem_nil, or_false, not_or] at hletter
    obtain ⟨hquote, hback, hb, hf, hn, hr, ht⟩ := hletter
    simp only [escape, Piece.ofChar, hquote, hback, hb, hf, hn, hr, ht, or_false, if_false]
    split
    next hlow => exact takePieces_control hlow rest
    next hhigh => exact takePieces_plain hquote hback hhigh rest

/-- The pieces of escaped characters, up to the closing quote. -/
theorem takePieces_flatMap_escape (cs rest : List Char) :
    takePieces (cs.flatMap escape ++ '"' :: rest) = some (cs.map .ofChar, rest) := by
  induction cs with
  | nil => rfl
  | cons c cs ih =>
    rw [List.flatMap_cons, List.append_assoc, takePieces_escape, ih]
    rfl

/-- Characters come back from their pieces. -/
theorem assemble_map_ofChar (cs : List Char) : assemble (cs.map .ofChar) = some cs := by
  induction cs with
  | nil => rfl
  | cons c cs ih =>
    rw [List.map_cons]
    generalize cs.map Piece.ofChar = ps at ih ⊢
    have hchar : assemble (.char c :: ps) = some (c :: cs) := by
      rw [assemble, ih, Option.map_some]
    unfold Piece.ofChar
    split
    next => exact hchar
    split
    next hlow =>
      -- A control character is far below the surrogates.
      cases ps with
      | nil =>
        rw [assemble, if_neg (by omega), ih, Option.map_some, Char.ofNat_toNat]
        intro l ps' h
        cases h
      | cons p ps =>
        cases p with
        | char d =>
          rw [assemble, if_neg (by omega), ih, Option.map_some, Char.ofNat_toNat]
          intro l ps' h
          cases h
        | unit l =>
          rw [assemble, if_neg (by omega), if_neg (by omega), ih, Option.map_some,
            Char.ofNat_toNat]
    next => exact hchar

/-- What stands after the opening quote of a string. -/
def quoteBody : Option String → List Char
  | some s => s.toList.flatMap escape ++ ['"']
  | none => ['\\', 'u', 'd', '8', '0', '0', '"']

theorem quote_eq_cons (s : Option String) : quote s = '"' :: quoteBody s := by
  cases s <;> rfl

/-- A string comes back from between its quotes, and half of a surrogate pair is none. -/
theorem takeString_quoteBody (s : Option String) (rest : List Char) :
    takeString (quoteBody s ++ rest) = some (s, rest) := by
  cases s with
  | none => rfl
  | some s =>
    have hpieces := takePieces_flatMap_escape s.toList rest
    unfold takeString quoteBody
    rw [List.append_assoc, List.singleton_append, hpieces]
    simp [assemble_map_ofChar]

/-! ### Numerals -/

/-- A numeral does not go on here. -/
def EndsNumeral (rest : List Char) : Prop :=
  ∀ c ∈ rest.head?, digit? c = none ∧ c ≠ '.' ∧ c ≠ 'e' ∧ c ≠ 'E'

theorem digitChar_ne_minus (d : Digit) : digitChar d ≠ '-' := by
  revert d
  decide

/-- The exponent of a numeral as it is written. -/
def renderExponent : Option Exponent → List Char
  | none => []
  | some e => 'e' :: (if e.negative then '-' else '+') :: e.digits.map digitChar

/-- The fraction of a numeral as it is written. -/
def renderFraction (ds : List Digit) : List Char :=
  if ds.isEmpty then [] else '.' :: ds.map digitChar

theorem render_numeral (n : Numeral) (rest : List Char) :
    n.render ++ rest = (if n.negative then ['-'] else []) ++ (n.whole.map digitChar ++
      (renderFraction n.fraction ++ (renderExponent n.exponent ++ rest))) := by
  have hexponent : n.render = (if n.negative then ['-'] else []) ++ n.whole.map digitChar ++
      renderFraction n.fraction ++ renderExponent n.exponent := by
    unfold Numeral.render renderFraction renderExponent
    cases n.exponent <;> rfl
  simp only [hexponent, List.append_assoc]

theorem takeExponent_render {e : Option Exponent} (he : ∀ x ∈ e, x.digits ≠ [])
    {rest : List Char} (hrest : EndsNumeral rest) :
    takeExponent (renderExponent e ++ rest) = some (e, rest) := by
  cases e with
  | none =>
    cases rest with
    | nil => rfl
    | cons c cs =>
      obtain ⟨_, _, he, hE⟩ := hrest c rfl
      show takeExponent (c :: cs) = _
      simp [takeExponent, he, hE]
  | some e =>
    obtain ⟨negative, ds⟩ := e
    have hds : ds ≠ [] := he _ rfl
    have htake := takeDigits_append ds fun c hc => (hrest c hc).1
    cases negative <;> cases ds <;> simp_all [renderExponent, takeExponent, takeSign]

/-- After the digits of a part, the next part starts with no digit. -/
theorem digit?_head_renderExponent {e : Option Exponent} {rest : List Char}
    (hrest : EndsNumeral rest) :
    ∀ c ∈ (renderExponent e ++ rest).head?, digit? c = none ∧ c ≠ '.' := by
  intro c hc
  cases e with
  | none => exact ⟨(hrest c hc).1, (hrest c hc).2.1⟩
  | some e =>
    obtain rfl : 'e' = c := Option.some.inj hc
    decide

theorem takeFraction_render (ds : List Digit) {rest : List Char}
    (hrest : ∀ c ∈ rest.head?, digit? c = none ∧ c ≠ '.') :
    takeFraction (renderFraction ds ++ rest) = some (ds, rest) := by
  cases ds with
  | nil =>
    show takeFraction rest = _
    unfold takeFraction
    split
    next => exact absurd rfl (hrest '.' rfl).2
    next => rfl
  | cons d ds =>
    have htake := takeDigits_append (d :: ds) fun c hc => (hrest c hc).1
    show takeFraction ('.' :: ((d :: ds).map digitChar ++ rest)) = _
    simp only [takeFraction, htake]

theorem digit?_head_renderFraction (ds : List Digit) {rest : List Char}
    (hrest : ∀ c ∈ rest.head?, digit? c = none ∧ c ≠ '.') :
    ∀ c ∈ (renderFraction ds ++ rest).head?, digit? c = none := by
  intro c hc
  cases ds with
  | nil => exact (hrest c hc).1
  | cons d ds =>
    obtain rfl : '.' = c := Option.some.inj hc
    decide

/-- A numeral of the written form comes back. -/
theorem takeNumeral_render {n : Numeral} (h : n.Written) {rest : List Char}
    (hrest : EndsNumeral rest) : takeNumeral (n.render ++ rest) = some (n, rest) := by
  have hexponent := takeExponent_render h.exponent hrest
  have htail := digit?_head_renderExponent (e := n.exponent) hrest
  have hfraction := takeFraction_render n.fraction htail
  have hwhole := takeDigits_append n.whole (digit?_head_renderFraction n.fraction htail)
  obtain ⟨d, ds, hds⟩ := List.exists_cons_of_ne_nil h.whole
  rw [render_numeral]
  -- A digit is no sign.
  have hsign : ∀ cs, n.whole.map digitChar ++ (renderFraction n.fraction ++
      (renderExponent n.exponent ++ rest)) = '-' :: cs → False := by
    intro cs hcs
    rw [hds, List.map_cons, List.cons_append] at hcs
    exact digitChar_ne_minus d (List.cons.inj hcs).1
  cases hnegative : n.negative
  case' true => rw [if_pos rfl, List.singleton_append, takeNumeral.eq_1, hwhole]
  case' false =>
    rw [if_neg Bool.false_ne_true, List.nil_append, takeNumeral.eq_2 _ hsign, hwhole]
  -- With or without a sign, the digits before the point are of the written form.
  all_goals
    split
    next hnone => exact absurd (Prod.mk.inj hnone).1 h.whole
    next hzero => exact absurd (h.leading _ (Prod.mk.inj hzero).1) (by simp)
    next heq =>
      obtain ⟨rfl, rfl⟩ := Prod.mk.inj heq
      simp [hfraction, hexponent, ← hnegative]

end Patchbay.Json
