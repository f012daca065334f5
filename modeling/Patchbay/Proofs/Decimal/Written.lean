import Patchbay.Decimal.Numeral

/-!
# Numerals as they are written

A numeral that is read has at least one digit before the point, more than one of them start with no
zero, and an exponent has digits. The numerals of whole numbers and of floating-point numbers are of
this form (`Numeral.Written`), and those of floating-point numbers have a point or an exponent, so
that no integer is read from them.

## Key results

- `Numeral.written_ofInt`: the numeral of a whole number is of the written form
- `Layout.written_ofFloat` / `Layout.isWhole_ofFloat`: so is that of a floating-point number, and it
  is not that of an integer
-/

namespace Patchbay.Decimal

/-! ### Leading digits -/

theorem digits_zero : digits 0 = [0] := by
  unfold digits
  rfl

/-- The digits of a number other than zero start with another digit than zero. -/
theorem exists_digits_eq_cons {n : Nat} (h : n ≠ 0) :
    ∃ d ds, digits n = d :: ds ∧ d ≠ 0 := by
  fun_induction digits n with
  | case1 n hn =>
    refine ⟨⟨n, hn⟩, [], rfl, fun hd => h ?_⟩
    exact congrArg Fin.val hd
  | case2 n hn ih =>
    obtain ⟨d, ds, hds, hd⟩ := ih (by omega)
    exact ⟨d, _, by rw [hds]; rfl, hd⟩

/-- Zeros at the end are not in front of the first digit. -/
theorem exists_trimZeros_eq_cons {d : Digit} (hd : d ≠ 0) (ds : List Digit) :
    ∃ es, trimZeros (d :: ds) = d :: es := by
  have hkept : ([d] : List Digit).dropWhile (· == zeroDigit) = [d] := by
    have hne : (d == zeroDigit) = false := by simpa [zeroDigit] using hd
    simp [hne]
  unfold trimZeros
  rw [List.reverse_cons, List.dropWhile_append, hkept]
  split
  · exact ⟨[], rfl⟩
  · rw [List.reverse_append]
    exact ⟨_, rfl⟩

/-- Zero does not read back as another number. -/
theorem Magnitude.not_readsBack_zero {m : Magnitude} (h : m.mantissa ≠ 0) (k : Int) :
    (m.grid k).readsBack 0 = false := by
  have hquarter : 0 < Nat.pow 2 (m.exponent - 2).toNat * Nat.pow 10 (-k).toNat :=
    Nat.mul_pos (Nat.pow_pos (by omega)) (Nat.pow_pos (by omega))
  have hlow : 0 < (m.grid k).low := by
    refine Nat.mul_pos ?_ hquarter
    split <;> omega
  unfold Grid.readsBack
  split
  next =>
    simp
    omega
  next => simp

/-- The shortest digits are not those of zero, unless none were found. -/
theorem Magnitude.shortest_cases {m : Magnitude} (h : m.mantissa ≠ 0) :
    m.shortest = (0, 0) ∨ m.shortest.1 ≠ 0 := by
  unfold shortest
  cases hfound : (List.range 17).findSome? _ with
  | none => exact .inl rfl
  | some x =>
    right
    obtain ⟨i, _, hi⟩ := List.exists_of_findSome?_eq_some hfound
    obtain ⟨n, hn, rfl⟩ := Option.map_eq_some_iff.1 hi
    rintro rfl
    have hback := Grid.readsBack_of_shortest? hn
    rw [not_readsBack_zero h] at hback
    cases hback

/-- The digits start with another digit than zero; only where there are none at all, they stand for
the place of the units. -/
def Scientific.Leads (s : Scientific) : Prop :=
  s.digits = [] ∧ s.exponent = 0 ∨ ∃ d ds, s.digits = d :: ds ∧ d ≠ 0

theorem Magnitude.leads_scientific {m : Magnitude} (h : m.mantissa ≠ 0) : m.scientific.Leads := by
  unfold scientific
  rcases shortest_cases h with hnone | hsome
  · rw [hnone]
    dsimp only
    rw [digits_zero]
    exact .inl ⟨rfl, rfl⟩
  · obtain ⟨d, ds, hds, hd⟩ := exists_digits_eq_cons hsome
    obtain ⟨es, hes⟩ := exists_trimZeros_eq_cons hd ds
    exact .inr ⟨d, es, by rw [← hes, ← hds], hd⟩

/-! ### Numerals -/

/-- The numeral can be read: there is a digit before the point, there are no zeros in front of other
digits there, and an exponent has a digit. -/
structure Numeral.Written (n : Numeral) : Prop where
  whole : n.whole ≠ []
  leading : ∀ ds, n.whole = 0 :: ds → ds = []
  exponent : ∀ e ∈ n.exponent, e.digits ≠ []

theorem Numeral.written_ofInt (n : Int) : (Numeral.ofInt n).Written where
  whole := digits_ne_nil _
  leading := by
    intro ds hds
    replace hds : digits n.natAbs = 0 :: ds := hds
    by_cases hn : n.natAbs = 0
    · rw [hn, digits_zero] at hds
      exact (List.cons.inj hds).2.symm
    · obtain ⟨d, es, hes, hd⟩ := exists_digits_eq_cons hn
      rw [hes] at hds
      exact absurd (List.cons.inj hds).1 hd
  exponent := fun _ he => by cases he

namespace Layout

/-- The numeral of leading digits can be read, and has a point or an exponent. -/
theorem written_numeral {l : Layout} (hl : l.lowest ≤ 0 ∧ 0 < l.beyond) (negative : Bool)
    {s : Scientific} (hs : s.Leads) :
    (l.numeral negative s).Written ∧ (l.numeral negative s).isWhole = false := by
  unfold numeral
  split
  next =>
    split
    next hnonneg =>
      refine ⟨⟨?_, ?_, fun _ he => by cases he⟩, ?_⟩
      · rcases hs with ⟨hnone, hzero⟩ | ⟨d, ds, hds, _⟩
        · simp [hnone, hzero]
        · simp [hds]
      · -- The leading digit stays in front, or there is a single zero.
        intro es hes
        rcases hs with ⟨hnone, hzero⟩ | ⟨d, ds, hds, hd⟩
        · simp only [hnone, hzero, List.take_nil, List.length_nil] at hes
          exact (List.cons.inj hes).2.symm
        · simp only [hds, List.take_succ_cons, List.cons_append] at hes
          exact absurd (List.cons.inj hes).1 hd
      · show ((if _ then _ else _ : List Digit).isEmpty && _) = false
        split <;> simp_all
    next hneg =>
      refine ⟨⟨by simp, fun es hes => (List.cons.inj hes).2.symm, fun _ he => by cases he⟩, ?_⟩
      -- Digits for a place after the point are there.
      rcases hs with ⟨_, hzero⟩ | ⟨d, ds, hds, _⟩
      · omega
      · simp [Numeral.isWhole, hds]
  next hplace =>
    obtain ⟨_, hzero⟩ | ⟨d, ds, hds, hd⟩ := hs
    · omega
    · rw [hds]
      refine ⟨⟨by simp, fun es hes => absurd (List.cons.inj hes).1 hd, ?_⟩, by
        simp [Numeral.isWhole]⟩
      intro e he
      obtain rfl := Option.some.inj he
      exact digits_ne_nil _

/-- The numeral of a floating-point number can be read, and is not that of an integer. -/
theorem written_ofFloat {l : Layout} (hl : l.lowest ≤ 0 ∧ 0 < l.beyond) (x : Float) :
    (l.ofFloat x).Written ∧ (l.ofFloat x).isWhole = false := by
  unfold ofFloat
  dsimp only
  split
  next =>
    exact ⟨⟨by simp, fun es hes => (List.cons.inj hes).2.symm, fun _ he => by cases he⟩, rfl⟩
  next h => exact written_numeral hl _ (Magnitude.leads_scientific h)

end Layout

end Patchbay.Decimal
