import Patchbay.Proofs.Number.Rounding

/-!
# The floating-point number nearest to a whole number

A whole number that fits a word is read like a numeral without a point. If it has at most 53 bits,
it is stored exactly and multiplied by one; otherwise it is rounded once. In both cases the result
is the number rounded to 53 significant bits. The sign is put before at the end.

## Key results

- `value_ofInt`: a whole number becomes the floating-point number that it is rounded to
- `rounded_of_value`: what floating-point numbers stand for is not rounded
-/

namespace Patchbay.Binary64

open Float.Model (Format UnpackedFloat)
open Float.Model.UnpackedFloat

/-- A canonical number that stands for a whole number of at most 53 bits. -/
theorem eq_finite_of_worth {u : UnpackedFloat} (hu : Canonical u) {n : ℕ} (hn : 0 < n)
    (hlt : n < 2 ^ 53) (h : worth u = n) :
    ∃ hpos, u = .finite .positive (n * 2 ^ (52 - n.log2)) (-(52 - n.log2 : ℕ)) hpos := by
  have hlog : n.log2 < 53 := (Nat.log2_lt hn.ne').2 hlt
  have hpow := Nat.two_pow_pos (52 - n.log2)
  have hn' : (n : ℚ) ≠ 0 := Nat.cast_ne_zero.2 hn.ne'
  cases u with
  | infinity | notANumber => exact hu.elim
  | zero s => exact absurd h.symm hn'
  | finite s m e hpos =>
    obtain rfl : s = .positive := (worth_finite_pos hpos).1 (h ▸ Nat.cast_pos.2 hn)
    obtain ⟨hm, hlong, hlow, -⟩ := hu
    have hlt' : n * 2 ^ (52 - n.log2) < 2 ^ 53 := by
      calc n * 2 ^ (52 - n.log2) < 2 ^ (n.log2 + 1) * 2 ^ (52 - n.log2) :=
            Nat.mul_lt_mul_of_pos_right Nat.lt_log2_self hpow
        _ = 2 ^ 53 := by rw [← pow_add]; congr 1; omega
    have hlong' : 2 ^ 52 ≤ n * 2 ^ (52 - n.log2) := by
      calc 2 ^ 52 = 2 ^ n.log2 * 2 ^ (52 - n.log2) := by rw [← pow_add]; congr 1; omega
        _ ≤ n * 2 ^ (52 - n.log2) := Nat.mul_le_mul_right _ (Nat.log2_self_le hn.ne')
    obtain ⟨rfl, rfl⟩ := eq_of_mul_zpow_eq hm hlong hlow hlt' (.inl hlong')
      (f := -(52 - n.log2 : ℕ)) (by omega) (by
        rw [zpow_neg, zpow_natCast]
        push_cast
        rw [mul_assoc, mul_inv_cancel₀ (pow_ne_zero _ two_ne_zero), mul_one]
        exact h)
    exact ⟨hpos, rfl⟩

/-- The number one. -/
theorem unpack_one : (Float.exactlyRepresentablePowersOfTen[0]).toModel.unpack =
    .finite .positive (2 ^ 52) (-52) (Nat.two_pow_pos 52) := rfl

theorem unpack_zero : (Float.ofNat 0).toModel.unpack = .zero .positive := rfl

/-- A word is rounded once. -/
theorem unpack_toFloat {n : ℕ} (hn : 0 < n) (hlt : n < 2 ^ 64) :
    n.toUInt64.toFloat.toModel.unpack = round .binary64 .positive n 0 := by
  have hword : n.toUInt64.toNat = n := UInt64.toNat_ofNat_of_lt hlt
  have hpositive : compare (n : ℤ) 0 = .gt := Int.compare_eq_gt.2 (by omega)
  have hround : ofUInt64 .binary64 n.toUInt64 = round .binary64 .positive n 0 := by
    unfold ofUInt64 UnpackedFloat.ofNat UnpackedFloat.ofInt
      UnpackedFloat.normalize
    rw [hword, hpositive]
    rfl
  show unpack .binary64 (pack .binary64 (ofUInt64 .binary64 n.toUInt64)) = _
  rw [hround, unpack_pack (worth_round .positive hn hlt).1]

/-- What is left of a whole number that is rounded and stored. -/
theorem value_rounded {n i : ℕ} (hn : 0 < n) (hlt : n < 2 ^ 64) (hi : 52 ≤ n.log2 + i) {x : Float}
    (hx : x = .ofModel (.pack (roundWithAccuracy .binary64 .positive (n * 2 ^ i) (-i) .exact))) :
    x.isFinite = true ∧ value x = rounded n := by
  obtain ⟨hcanonical, hworth⟩ := worth_roundWithAccuracy .positive hn hlt hi
  obtain ⟨hfinite, hvalue⟩ := value_ofModel_pack hcanonical
  exact hx ▸ ⟨hfinite, hvalue.trans hworth⟩

/-- A whole number that fits a word is rounded to 53 significant bits. -/
theorem value_ofNat {n : ℕ} (hlt : n < 2 ^ 64) :
    (Float.ofNat n).isFinite = true ∧ value (Float.ofNat n) = rounded n := by
  rcases Nat.eq_zero_or_pos n with rfl | hn
  · exact ⟨rfl, congrArg worth unpack_zero⟩
  have hof : Float.ofNat n = Float.ofScientific n false 0 := rfl
  rw [hof, Float.ofScientific]
  split
  next h =>
    -- A short number is exact, and stays so when it is multiplied by one.
    obtain ⟨hcanonical, hworth⟩ := worth_round .positive hn hlt
    rw [rounded_of_lt h.1] at hworth
    obtain ⟨hpos, hunpack⟩ := eq_finite_of_worth hcanonical hn h.1 hworth
    refine value_rounded (i := 52 - n.log2 + 52) hn hlt (by omega) ?_
    show Float.ofModel (.pack (mul .binary64 n.toUInt64.toFloat.toModel.unpack
      (Float.exactlyRepresentablePowersOfTen[0]).toModel.unpack)) = _
    rw [unpack_toFloat hn hlt, hunpack, unpack_one, mul, mul_assoc, ← pow_add]
    push_cast
    rw [neg_add]
    rfl
  next h =>
    -- A long number is rounded once.
    refine value_rounded (i := 53) hn hlt (by omega) ?_
    have hsmall : ¬ (Int.ofNat 0 < -((2 ^ Format.binary64.exponentBits : ℤ) + n.log2)) := by
      rw [not_lt]
      show -((2 : ℤ) ^ 11 + n.log2) ≤ 0
      omega
    show Float.ofModel (.pack (UnpackedFloat.ofScientific .binary64 n (Int.ofNat 0))) = _
    rw [UnpackedFloat.ofScientific, dif_neg hn.ne', if_neg (by decide), if_neg hsmall,
      if_pos (show (0 : ℤ) ≤ Int.ofNat 0 from le_rfl), mul, Nat.shiftLeft_eq]
    show Float.ofModel (.pack (roundWithAccuracy .binary64 .positive (n * 2 ^ 53 * 1)
      (-((53 : ℕ) : ℤ) + 0) .exact)) = _
    rw [mul_one, add_zero]

/-! ### Signs -/

/-- The opposite number is the one with the other sign. -/
theorem value_neg {x : Float} (h : x.isFinite = true) :
    (Float.neg x).isFinite = true ∧ value (Float.neg x) = -value x := by
  have hcanonical : Canonical x.toModel.unpack.neg ∧
      worth x.toModel.unpack.neg = -worth x.toModel.unpack := by
    have hx := canonical_of_isFinite h
    generalize x.toModel.unpack = u at hx
    cases u with
    | infinity | notANumber => exact hx.elim
    | zero s => exact ⟨trivial, neg_zero.symm⟩
    | finite s m e hpos =>
      refine ⟨hx, ?_⟩
      cases s
      · show worth (.finite .positive m e hpos) = _
        simp [worth, Sign.apply]
      · show worth (.finite .negative m e hpos) = _
        simp [worth, Sign.apply]
  obtain ⟨hfinite, hvalue⟩ := value_ofModel_pack hcanonical.1
  exact ⟨hfinite, hvalue.trans hcanonical.2⟩

/-- A whole number of any sign is rounded to 53 significant bits. -/
theorem value_ofInt {n : ℤ} (hlt : n.natAbs < 2 ^ 64) :
    (Float.ofInt n).isFinite = true ∧ value (Float.ofInt n) = n.sign * rounded n.natAbs := by
  cases n with
  | ofNat n =>
    obtain ⟨hfinite, hvalue⟩ := value_ofNat hlt
    refine ⟨hfinite, hvalue.trans ?_⟩
    rcases Nat.eq_zero_or_pos n with rfl | hn
    · have hzero : rounded 0 = 0 := rounded_of_lt (by norm_num)
      simp [hzero]
    · rw [Int.ofNat_eq_natCast, Int.sign_natCast_of_ne_zero hn.ne', Int.natAbs_natCast,
        Int.cast_one, one_mul]
  | negSucc n =>
    obtain ⟨hfinite, hvalue⟩ := value_ofNat hlt
    obtain ⟨hfinite', hvalue'⟩ := value_neg hfinite
    refine ⟨hfinite', hvalue'.trans ?_⟩
    rw [hvalue, Int.sign_negSucc, Int.cast_neg, Int.cast_one, neg_one_mul]

/-! ### Numbers that are not rounded -/

/-- A whole number that a canonical number stands for has at most 53 significant bits. -/
theorem rounded_of_worth {u : UnpackedFloat} (hu : Canonical u) {n : ℕ} (h : |worth u| = n) :
    rounded n = n := by
  cases u with
  | infinity | notANumber => exact hu.elim
  | zero s =>
    obtain rfl : n = 0 := by simpa [worth] using h.symm
    exact rounded_of_lt (by norm_num)
  | finite s m e hpos =>
    obtain ⟨hlt, -, -, -⟩ := hu
    have hsize : (m : ℚ) * 2 ^ e = n := by
      rw [← h]
      cases s <;> simp [worth, Sign.apply, abs_mul, abs_zpow]
    obtain ⟨k, rfl | rfl⟩ := e.eq_nat_or_neg
    · have hn : m * 2 ^ k = n := by exact_mod_cast hsize
      exact hn ▸ rounded_mul_two_pow hlt k
    · rw [zpow_neg, zpow_natCast, mul_inv_eq_iff_eq_mul₀ (pow_ne_zero k two_ne_zero)] at hsize
      have hm : m = n * 2 ^ k := by exact_mod_cast hsize
      have hle : n ≤ n * 2 ^ k := Nat.le_mul_of_pos_right n (Nat.two_pow_pos k)
      exact rounded_of_lt (by omega)

/-- A whole number that a finite floating-point number stands for is not rounded. -/
theorem rounded_of_value {x : Float} (hx : x.isFinite = true) {n : ℤ} (h : value x = n) :
    rounded n.natAbs = n.natAbs := by
  refine rounded_of_worth (canonical_of_isFinite hx) ?_
  rw [show worth x.toModel.unpack = n from h, ← Int.cast_abs, Int.abs_eq_natAbs, Int.cast_natCast]

end Patchbay.Binary64
