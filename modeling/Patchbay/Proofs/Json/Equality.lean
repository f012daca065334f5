import Patchbay.Builtin.Operator
import Patchbay.Proofs.Number.Nearest

/-!
# Equality of values

Values are compared in two ways. Two numbers are compared as floating-point numbers, whatever their
kinds, so that whole numbers of more than 53 bits may be taken for others. All other values are
compared member by member, and then a whole number differs from a floating-point number of the same
size.

Both are said by replacing the numbers in a value (`Value.form`): by the rational numbers that they
stand for, or by their kinds.

## Key results

- `Number.toFloat_beq_iff`: when two numbers are the same as floating-point numbers
- `Value.same_iff`: when two values are the same member by member
- `equivalence_valuesEqual`: equality of values is an equivalence
- `valuesEqual_spec`: when two values are equal
-/

namespace Patchbay

open Builtin

namespace Number

/-- The rational number that a number stands for. -/
def value : Number → ℚ
  | int n _ => n
  | float x _ => Binary64.value x

/-- Whether the number is a whole number by its kind. -/
def isInt : Number → Bool
  | int _ _ => true
  | float _ _ => false

/-- The rational number that the nearest floating-point number stands for: a whole number is rounded
to 53 significant bits, and of two that are equally near to the one whose last bit is zero. -/
def nearest : Number → ℚ
  | int n _ => n.sign * Binary64.rounded n.natAbs
  | float x _ => Binary64.value x

theorem natAbs_lt {n : ℤ} (h : FitsWord n) : n.natAbs < 2 ^ 64 := by
  obtain ⟨hlow, hhigh⟩ := h
  omega

/-- Every number has a nearest floating-point number, which is finite. -/
theorem value_toFloat (m : Number) :
    m.toFloat.isFinite = true ∧ Binary64.value m.toFloat = m.nearest := by
  cases m with
  | int n hn => exact Binary64.value_ofInt (natAbs_lt hn)
  | float x hx => exact ⟨hx, rfl⟩

/-- Numbers are the same as floating-point numbers if they are rounded to the same number. -/
theorem toFloat_beq_iff (m n : Number) :
    (m.toFloat == n.toFloat) = true ↔ m.nearest = n.nearest := by
  obtain ⟨hm, hmvalue⟩ := m.value_toFloat
  obtain ⟨hn, hnvalue⟩ := n.value_toFloat
  rw [Binary64.beq_iff_value hm hn, hmvalue, hnvalue]

theorem nearest_int {n : ℤ} (hn : FitsWord n) (h : Binary64.rounded n.natAbs = n.natAbs) :
    (int n hn).nearest = n := by
  rw [nearest, h, ← Int.cast_natCast, ← Int.cast_mul, Int.sign_mul_natAbs]

/-- A whole number of at most 53 bits is not rounded, nor is a floating-point number. -/
theorem nearest_eq_value {m : Number} (h : m.isInt = true → |m.value| ≤ 2 ^ 53) :
    m.nearest = m.value := by
  cases m with
  | float x _ => rfl
  | int n hn =>
    have hsize : n.natAbs ≤ 2 ^ 53 := by
      have := h rfl
      rw [value, ← Int.cast_abs, Int.abs_eq_natAbs] at this
      exact_mod_cast this
    refine nearest_int hn ?_
    rcases hsize.lt_or_eq with hlt | heq
    · exact Binary64.rounded_of_lt hlt
    · rw [heq]
      rfl

/-- Numbers that stand for the same number are rounded to the same number. -/
theorem nearest_congr {m n : Number} (h : m.value = n.value) : m.nearest = n.nearest := by
  cases m with
  | int a ha =>
    cases n with
    | int b hb =>
      obtain rfl : a = b := Int.cast_injective h
      rfl
    | float y hy => exact (nearest_int ha (Binary64.rounded_of_value hy h.symm)).trans h
  | float x hx =>
    cases n with
    | int b hb => exact h.trans (nearest_int hb (Binary64.rounded_of_value hx h)).symm
    | float y hy => exact h

/-- Numbers are the same if they are of the same kind and stand for the same number. -/
theorem same_iff (m n : Number) :
    m.same n = true ↔ m.value = n.value ∧ m.isInt = n.isInt := by
  cases m with
  | int a ha =>
    cases n with
    | int b hb => simp [same, value, isInt]
    | float y hy => simp [same, isInt]
  | float x hx =>
    cases n with
    | int b hb => simp [same, isInt]
    | float y hy => simp [same, value, isInt, Binary64.beq_iff_value hx hy]

end Number

/-- A value in which something else stands for the numbers. -/
inductive Form (κ : Type) where
  | null
  | bool (b : Bool)
  | number (k : κ)
  | string (s : String)
  | array (items : List (Form κ))
  | object (members : List (String × Form κ))

namespace Value

variable {κ : Type} (f : Number → κ)

mutual

/-- The value with its numbers replaced. -/
def form : Value → Form κ
  | null => .null
  | bool b => .bool b
  | number n => .number (f n)
  | string s => .string s
  | array xs => .array (formItems xs)
  | object ms => .object (formMembers ms)

def formItems : List Value → List (Form κ)
  | [] => []
  | x :: xs => form x :: formItems xs

def formMembers : List (String × Value) → List (String × Form κ)
  | [] => []
  | (k, x) :: ms => (k, form x) :: formMembers ms

end

mutual

/-- Values are the same if they have the same numbers of the same kinds in the same places, and
nothing else in them differs. -/
theorem same_iff (a b : Value) : a.same b = true ↔
    a.form Number.value = b.form Number.value ∧ a.form Number.isInt = b.form Number.isInt := by
  cases a with
  | null => cases b <;> simp [same, form]
  | bool c => cases b <;> simp [same, form]
  | number m => cases b <;> simp [same, form, Number.same_iff]
  | string s => cases b <;> simp [same, form]
  | array xs => cases b <;> simp [same, form, sameItems_iff]
  | object ms => cases b <;> simp [same, form, sameMembers_iff]

theorem sameItems_iff (xs ys : List Value) : sameItems xs ys = true ↔
    formItems Number.value xs = formItems Number.value ys ∧
      formItems Number.isInt xs = formItems Number.isInt ys := by
  cases xs with
  | nil => cases ys <;> simp [sameItems, formItems]
  | cons x xs =>
    cases ys with
    | nil => simp [sameItems, formItems]
    | cons y ys =>
      simp only [sameItems, formItems, Bool.and_eq_true, List.cons.injEq, same_iff x y,
        sameItems_iff xs ys]
      tauto

theorem sameMembers_iff (xs ys : List (String × Value)) : sameMembers xs ys = true ↔
    formMembers Number.value xs = formMembers Number.value ys ∧
      formMembers Number.isInt xs = formMembers Number.isInt ys := by
  cases xs with
  | nil => cases ys <;> simp [sameMembers, formMembers]
  | cons x xs =>
    cases ys with
    | nil => simp [sameMembers, formMembers]
    | cons y ys =>
      obtain ⟨k, x⟩ := x
      obtain ⟨l, y⟩ := y
      simp only [sameMembers, formMembers, Bool.and_eq_true, List.cons.injEq, Prod.mk.injEq,
        beq_iff_eq, same_iff x y, sameMembers_iff xs ys]
      tauto

end

/-- Whether the value is a number. -/
def isNumber : Value → Bool
  | number _ => true
  | _ => false

/-- The same numbers of the same kinds are in the same places, and nothing else differs. -/
def Agree (a b : Value) : Prop :=
  a.form Number.value = b.form Number.value ∧ a.form Number.isInt = b.form Number.isInt

theorem agree_array (xs ys : List Value) :
    (array xs).Agree (array ys) ↔ List.Forall₂ Agree xs ys := by
  simp only [Agree, form, Form.array.injEq]
  induction xs generalizing ys with
  | nil => cases ys <;> simp [formItems]
  | cons x xs ih =>
    cases ys with
    | nil => simp [formItems]
    | cons y ys =>
      simp only [formItems, List.cons.injEq, List.forall₂_cons, ← ih, Agree]
      tauto

theorem agree_object (ms ns : List (String × Value)) :
    (object ms).Agree (object ns) ↔
      List.Forall₂ (fun m n => m.1 = n.1 ∧ m.2.Agree n.2) ms ns := by
  simp only [Agree, form, Form.object.injEq]
  induction ms generalizing ns with
  | nil => cases ns <;> simp [formMembers]
  | cons m ms ih =>
    cases ns with
    | nil => simp [formMembers]
    | cons n ns =>
      simp only [formMembers, List.cons.injEq, Prod.mk.injEq, List.forall₂_cons, ← ih]
      tauto

/-- What is compared of a value: of a number what it is rounded to, of others all that is in it. -/
def comparand : Value → Form ℚ × Form Bool
  | number m => (.number m.nearest, .number true)
  | a => (a.form Number.value, a.form Number.isInt)

end Value

section

variable {a b : Value}

theorem exists_numbers (h : (a.isNumber && b.isNumber) = true) :
    ∃ m n, a = .number m ∧ b = .number n := by
  cases a <;> cases b <;> cases h
  exact ⟨_, _, rfl, rfl⟩

/-- A value that is not a number is compared member by member. -/
theorem valuesEqual_iff_agree (h : (a.isNumber && b.isNumber) = false) :
    valuesEqual a b = true ↔ a.Agree b := by
  have hsame : valuesEqual a b = a.same b := by
    cases a <;> cases b <;> first | rfl | cases h
  rw [hsame, Value.same_iff]
  rfl

theorem comparand_eq_iff_agree (h : (a.isNumber && b.isNumber) = false) :
    a.comparand = b.comparand ↔ a.Agree b := by
  cases a with
  | number m =>
    cases b with
    | number n => cases h
    | _ => simp [Value.comparand, Value.Agree, Value.form]
  | _ => cases b <;> simp [Value.comparand, Value.Agree, Value.form]

/-- Two numbers are rounded before they are compared. -/
theorem valuesEqual_iff (a b : Value) : valuesEqual a b = true ↔
    if a.isNumber && b.isNumber then a.form Number.nearest = b.form Number.nearest
    else a.Agree b := by
  cases h : a.isNumber && b.isNumber with
  | false => exact valuesEqual_iff_agree h
  | true =>
    obtain ⟨m, n, rfl, rfl⟩ := exists_numbers h
    rw [valuesEqual, Number.toFloat_beq_iff]
    simp [Value.form]

theorem valuesEqual_iff_comparand (a b : Value) :
    valuesEqual a b = true ↔ a.comparand = b.comparand := by
  rw [valuesEqual_iff]
  cases h : a.isNumber && b.isNumber with
  | false => exact (comparand_eq_iff_agree h).symm
  | true =>
    obtain ⟨m, n, rfl, rfl⟩ := exists_numbers h
    simp [Value.comparand, Value.form]

/-- Equality of values is an equivalence. -/
theorem equivalence_valuesEqual : Equivalence fun a b => valuesEqual a b = true := by
  simp only [valuesEqual_iff_comparand]
  exact ⟨fun _ => rfl, Eq.symm, Eq.trans⟩

/-- Equality of two numbers tells whether they stand for the same one, unless they are rounded to
one; equality of other values tells whether they have the same numbers in the same places, unless
these are of different kinds. -/
theorem valuesEqual_iff_form_iff (a b : Value) :
    (valuesEqual a b = true ↔ a.form Number.value = b.form Number.value) ↔
      if a.isNumber && b.isNumber then
        a.form Number.nearest = b.form Number.nearest → a.form Number.value = b.form Number.value
      else
        a.form Number.value = b.form Number.value → a.form Number.isInt = b.form Number.isInt := by
  rw [valuesEqual_iff]
  cases h : a.isNumber && b.isNumber with
  | false =>
    show (a.Agree b ↔ _) ↔ (_ → _)
    rw [Value.Agree]
    tauto
  | true =>
    obtain ⟨m, n, rfl, rfl⟩ := exists_numbers h
    -- Rounding never tells numbers apart that stand for the same one.
    have hcongr : (Value.number m).form Number.value = (Value.number n).form Number.value →
        (Value.number m).form Number.nearest = (Value.number n).form Number.nearest := by
      simpa [Value.form] using Number.nearest_congr
    exact ⟨Iff.mp, fun hof => ⟨hof, hcongr⟩⟩

end

/-- Two numbers are equal if they are rounded to the same number, and so if they stand for the same
one; the converse holds of numbers that are not rounded. All other values are equal if they have the
same numbers, of the same kinds, in the same places. So equality tells whether values have the same
numbers in the same places if two numbers are not rounded to one, and inside arrays and objects the
same numbers are of the same kinds. It is an equivalence; but the members of equal arrays and
objects correspond by `Value.Agree`, which is finer. -/
theorem valuesEqual_spec (a b : Value) :
    (valuesEqual a b = true ↔
      if a.isNumber && b.isNumber then a.form Number.nearest = b.form Number.nearest
      else a.Agree b) ∧
    ((valuesEqual a b = true ↔ a.form Number.value = b.form Number.value) ↔
      if a.isNumber && b.isNumber then
        a.form Number.nearest = b.form Number.nearest → a.form Number.value = b.form Number.value
      else
        a.form Number.value = b.form Number.value → a.form Number.isInt = b.form Number.isInt) ∧
    (∀ m n : Number, m.value = n.value → m.nearest = n.nearest) ∧
    (∀ m : Number, (m.isInt = true → |m.value| ≤ 2 ^ 53) → m.nearest = m.value) ∧
    (Equivalence fun a b => valuesEqual a b = true) ∧
    (∀ xs ys : List Value,
      valuesEqual (.array xs) (.array ys) = true ↔ List.Forall₂ Value.Agree xs ys) ∧
    ∀ ms ns : List (String × Value), valuesEqual (.object ms) (.object ns) = true ↔
      List.Forall₂ (fun m n => m.1 = n.1 ∧ m.2.Agree n.2) ms ns := by
  refine ⟨valuesEqual_iff a b, valuesEqual_iff_form_iff a b, fun _ _ => Number.nearest_congr,
    fun _ => Number.nearest_eq_value, equivalence_valuesEqual, fun xs ys => ?array,
    fun ms ns => ?object⟩
  case array => exact (valuesEqual_iff_agree rfl).trans (Value.agree_array xs ys)
  case object => exact (valuesEqual_iff_agree rfl).trans (Value.agree_object ms ns)

/-! ### Not the same numbers -/

/-- The number two as a floating-point number. -/
def Number.two : Number := .float 2.0 rfl

theorem Number.value_two : two.value = 2 := by
  have hunpack : (2.0 : Float).toModel.unpack =
      .finite .positive (2 ^ 52) (-51) (Nat.two_pow_pos 52) := rfl
  show Binary64.worth (2.0 : Float).toModel.unpack = 2
  rw [hunpack]
  norm_num [Binary64.worth, Float.Model.UnpackedFloat.Sign.apply]

/-- Whether values have the same numbers in the same places does not decide whether they are equal:
`2` equals `2.0`, but `[2]` does not equal `[2.0]`, and of two whole numbers one of which is rounded
to the other each equals the other. -/
theorem valuesEqual_unlike :
    ¬ (∀ a b, valuesEqual a b = true ↔ a.form Number.value = b.form Number.value) ∧
    (valuesEqual (.number (.int 2)) (.number .two) = true ∧
      valuesEqual (.array [.number (.int 2)]) (.array [.number .two]) = false ∧
      (Value.array [.number (.int 2)]).form Number.value =
        (Value.array [.number .two]).form Number.value) ∧
    (valuesEqual (.number (.int 9007199254740993)) (.number (.int 9007199254740992)) = true ∧
      (Value.number (.int 9007199254740993)).form Number.value ≠
        (Value.number (.int 9007199254740992)).form Number.value) := by
  have harray : valuesEqual (.array [.number (.int 2)]) (.array [.number .two]) = false := rfl
  have hform : (Value.array [.number (.int 2)]).form Number.value =
      (Value.array [.number .two]).form Number.value := by
    have hint : (Number.int 2).value = 2 := rfl
    simp [Value.form, Value.formItems, Number.value_two, hint]
  refine ⟨fun h => ?_, ⟨by decide +kernel, harray, hform⟩, by decide +kernel, ?_⟩
  · rw [(h _ _).2 hform] at harray
    cases harray
  · simp [Value.form, Number.value]

end Patchbay
