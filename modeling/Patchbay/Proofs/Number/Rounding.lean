import Patchbay.Proofs.Number.Unpacked

/-!
# Rounding to 53 bits

A whole number is made a floating-point number by shifting it to the right until 53 bits are left.
Of the bits that are shifted out two flags are kept, which say where the number lies between two
that can be stored. Rounding with these flags is the same as dividing by a power of two and rounding
the quotient to the nearest whole number, and to the even one of two.

## Key results

- `Lies.shiftRight`: what the flags say
- `worth_round`: a whole number is rounded to 53 significant bits
- `rounded_mul_two_pow`: a number of at most 53 significant bits stays as it is
-/

namespace Patchbay.Binary64

open Float.Model (Format UnpackedFloat totalExponent)
open Float.Model.UnpackedFloat

/-- The quotient of two numbers, rounded to the nearest whole number, and to the even one of two. -/
def quotient (a b : ℕ) : ℕ :=
  if 2 * (a % b) < b then a / b
  else if b < 2 * (a % b) then a / b + 1
  else a / b + a / b % 2

/-- A number rounded to 53 significant bits. -/
def rounded (n : ℕ) : ℕ := quotient n (2 ^ (n.log2 - 52)) * 2 ^ (n.log2 - 52)

theorem quotient_one (a : ℕ) : quotient a 1 = a := by
  simp [quotient, Nat.mod_one]

theorem quotient_mul_mul (a b : ℕ) {c : ℕ} (hc : 0 < c) :
    quotient (a * c) (b * c) = quotient a b := by
  have hdiv : a * c / (b * c) = a / b := Nat.mul_div_mul_right a b hc
  have hmod : a * c % (b * c) = a % b * c := Nat.mul_mod_mul_right c a b
  simp only [quotient, hdiv, hmod, ← mul_assoc, Nat.mul_lt_mul_right hc]

/-- A division without remainder is not rounded. -/
theorem quotient_mul (a : ℕ) {b : ℕ} (hb : 0 < b) : quotient (a * b) b = a := by
  have h := quotient_mul_mul a 1 hb
  rwa [one_mul, quotient_one] at h

theorem le_quotient (a b : ℕ) : a / b ≤ quotient a b := by
  unfold quotient
  split
  · exact le_rfl
  · split <;> omega

theorem quotient_le (a b : ℕ) : quotient a b ≤ a / b + 1 := by
  unfold quotient
  split
  · exact Nat.le_succ _
  · split <;> omega

/-! ### Shifting -/

/-- A mantissa with its flags says where the quotient `a / b` lies: above the mantissa, and the
flags tell whether it is in the middle of the next unit, before or behind. -/
structure Lies (em : ExtendedMantissa) (a b : ℕ) : Prop where
  mantissa : em.mantissa = a / b
  roundBit : em.roundBit = decide (b ≤ 2 * (a % b))
  stickyBit : em.stickyBit = decide (a % b ≠ 0 ∧ 2 * (a % b) ≠ b)

theorem lies_exact (m : ℕ) : Lies (.ofMantissaAndAccuracy m .exact) m 1 where
  mantissa := (Nat.div_one m).symm
  roundBit := by simp [ExtendedMantissa.ofMantissaAndAccuracy, Nat.mod_one]
  stickyBit := by simp [ExtendedMantissa.ofMantissaAndAccuracy, Nat.mod_one]

variable {em : ExtendedMantissa} {a b : ℕ}

theorem Lies.shiftRightOne (h : Lies em a b) (hb : 0 < b) : Lies em.shiftRightOne a (b * 2) := by
  have hmod : a % (b * 2) = a % b + b * (a / b % 2) := Nat.mod_mul
  have hlt := Nat.mod_lt a hb
  constructor
  · rw [ExtendedMantissa.shiftRightOne, h.mantissa, Nat.div_div_eq_div_mul]
  · rw [ExtendedMantissa.shiftRightOne, h.mantissa, hmod]
    rcases Nat.mod_two_eq_zero_or_one (a / b) with hq | hq
    · simp [hq]
      omega
    · simp [hq]
      omega
  · rw [ExtendedMantissa.shiftRightOne, h.roundBit, h.stickyBit, hmod, ← Bool.decide_or,
      decide_eq_decide]
    rcases Nat.mod_two_eq_zero_or_one (a / b) with hq | hq
    · rw [hq]
      omega
    · rw [hq]
      omega

theorem Lies.shiftRight (h : Lies em a b) (hb : 0 < b) (k : ℕ) : Lies (em >>> k) a (b * 2 ^ k) := by
  show Lies (k.repeat ExtendedMantissa.shiftRightOne em) a (b * 2 ^ k)
  induction k with
  | zero => simpa [Nat.repeat] using h
  | succ k ih =>
    rw [pow_succ, ← mul_assoc]
    exact ih.shiftRightOne (Nat.mul_pos hb (Nat.two_pow_pos k))

/-- Rounding with the flags is rounding the quotient. -/
theorem Lies.roundedMantissa (h : Lies em a b) (hb : 0 < b) :
    em.roundedMantissa = quotient a b := by
  obtain ⟨m, r, s⟩ := em
  obtain ⟨hm, hr, hs⟩ := h
  dsimp only at hm hr hs
  unfold quotient
  -- The remainder is zero, less than half the divisor, half of it, or more.
  rcases Nat.lt_trichotomy (2 * (a % b)) b with hlt | heq | hgt
  · rw [if_pos hlt]
    rw [decide_eq_false (by omega)] at hr
    by_cases hzero : a % b = 0
    · rw [decide_eq_false (by omega)] at hs
      subst hm hr hs
      rfl
    · rw [decide_eq_true (by omega)] at hs
      subst hm hr hs
      rfl
  · rw [if_neg (by omega), if_neg (by omega)]
    rw [decide_eq_true (by omega)] at hr
    rw [decide_eq_false (by omega)] at hs
    subst hm hr hs
    rfl
  · rw [if_neg (by omega), if_pos hgt]
    rw [decide_eq_true (by omega)] at hr
    rw [decide_eq_true (by omega)] at hs
    subst hm hr hs
    rfl

/-- A number that is shifted to the right and rounded is divided by a power of two. -/
theorem roundedMantissa_shiftRight (m k : ℕ) :
    (ExtendedMantissa.ofMantissaAndAccuracy m .exact >>> k).roundedMantissa =
      quotient m (2 ^ k) := by
  have h := (lies_exact m).shiftRight one_pos k
  rw [one_mul] at h
  exact h.roundedMantissa (Nat.two_pow_pos k)

/-! ### Rounding -/

theorem targetExponent_binary64 (t : ℤ) :
    Format.binary64.targetExponent t = max (t - 53) (-1074) := rfl

/-- The exponent that leaves 53 bits of a whole number. -/
theorem targetExponent_eq {m : ℕ} (hm : 0 < m) (j : ℕ) :
    Format.binary64.targetExponent (totalExponent (m * 2 ^ j) (-j)) = m.log2 - 52 := by
  have hlog : (m * 2 ^ j).log2 = m.log2 + j := by
    have hpow := Nat.two_pow_pos j
    rw [Nat.log2_eq_iff (Nat.mul_pos hm hpow).ne']
    constructor
    · rw [pow_add]
      exact Nat.mul_le_mul_right _ (Nat.log2_self_le hm.ne')
    · calc m * 2 ^ j < 2 ^ (m.log2 + 1) * 2 ^ j :=
            Nat.mul_lt_mul_of_pos_right Nat.lt_log2_self hpow
        _ = 2 ^ (m.log2 + j + 1) := by ring
  rw [targetExponent_binary64, totalExponent, hlog]
  omega

/-- Once the mantissa was shifted to 53 bits and rounded, it has 53 bits, or one more. -/
theorem two_pow_le_quotient {m j k : ℕ} (hm : 0 < m) (hk : (k : ℤ) = m.log2 - 52 + j) :
    2 ^ 52 ≤ quotient (m * 2 ^ j) (2 ^ k) ∧ quotient (m * 2 ^ j) (2 ^ k) ≤ 2 ^ 53 := by
  have hlow := Nat.log2_self_le hm.ne'
  have hhigh := @Nat.lt_log2_self m
  have hle : 2 ^ 52 ≤ m * 2 ^ j / 2 ^ k := by
    rw [Nat.le_div_iff_mul_le (Nat.two_pow_pos k), ← pow_add]
    calc 2 ^ (52 + k) = 2 ^ m.log2 * 2 ^ j := by rw [← pow_add]; congr 1; omega
      _ ≤ m * 2 ^ j := Nat.mul_le_mul_right _ hlow
  have hlt : m * 2 ^ j / 2 ^ k < 2 ^ 53 := by
    rw [Nat.div_lt_iff_lt_mul (Nat.two_pow_pos k), ← pow_add]
    calc m * 2 ^ j < 2 ^ (m.log2 + 1) * 2 ^ j :=
          Nat.mul_lt_mul_of_pos_right hhigh (Nat.two_pow_pos j)
      _ = 2 ^ (53 + k) := by rw [← pow_add]; congr 1; omega
  exact ⟨hle.trans (le_quotient _ _), (quotient_le _ _).trans hlt⟩

/-- The rounded mantissa is worth the rounded number. -/
theorem quotient_mul_zpow {m j k : ℕ} (hk : (k : ℤ) = m.log2 - 52 + j) :
    (quotient (m * 2 ^ j) (2 ^ k) : ℚ) * 2 ^ ((m.log2 : ℤ) - 52) = rounded m := by
  rcases Nat.le_total 52 m.log2 with hlong | hshort
  · obtain ⟨i, hi⟩ := Nat.exists_eq_add_of_le hlong
    have hpow : (2 : ℕ) ^ k = 2 ^ i * 2 ^ j := by rw [← pow_add]; congr 1; omega
    have hexp : (m.log2 : ℤ) - 52 = (i : ℕ) := by omega
    rw [hpow, quotient_mul_mul _ _ (Nat.two_pow_pos j), rounded, hexp, zpow_natCast,
      show m.log2 - 52 = i by omega]
    push_cast
    rfl
  · obtain ⟨i, hi⟩ := Nat.exists_eq_add_of_le hshort
    have hpow : (2 : ℕ) ^ j = 2 ^ i * 2 ^ k := by rw [← pow_add]; congr 1; omega
    have hone := quotient_mul (m * 2 ^ i) (Nat.two_pow_pos k)
    rw [mul_assoc, ← hpow] at hone
    have hexp : (m.log2 : ℤ) - 52 = -(i : ℕ) := by omega
    rw [hone, rounded, show m.log2 - 52 = 0 by omega, pow_zero, quotient_one, mul_one, hexp,
      zpow_neg, zpow_natCast]
    push_cast
    rw [mul_assoc, mul_inv_cancel₀ (pow_ne_zero i two_ne_zero), mul_one]

/-- A mantissa of 53 bits is left alone, and one that was rounded up to the next power of two is
halved. -/
theorem shift_rounded (s : Sign) {r : ℕ} {e : ℤ} (hr : 2 ^ 52 ≤ r ∧ r ≤ 2 ^ 53) (hlow : -1074 ≤ e)
    (hhigh : e < 971) :
    ∃ m f, ∃ hm : 0 < m, shiftToTargetExponent .binary64 r e .exact = (⟨m, false, false⟩, f) ∧
      Canonical (.finite s m f hm) ∧ (m : ℚ) * 2 ^ f = r * 2 ^ e := by
  obtain ⟨hlong, hle⟩ := hr
  unfold shiftToTargetExponent shiftToExponent
  rw [targetExponent_binary64, totalExponent]
  rcases hle.lt_or_eq with hlt | rfl
  · have hlog : r.log2 = 52 := (Nat.log2_eq_iff (by omega)).2 ⟨hlong, hlt⟩
    have hshift : (max ((r.log2 : ℤ) + 1 + e - 53) (-1074) - e).toNat = 0 := by omega
    refine ⟨r, e, by omega, ?_, ⟨hlt, .inl hlong, hlow, hhigh.le⟩, rfl⟩
    simp only [hshift]
    exact Prod.ext rfl (add_zero e)
  · have hlog : (2 ^ 53 : ℕ).log2 = 53 := Nat.log2_two_pow
    have hshift : (max (((2 ^ 53 : ℕ).log2 : ℤ) + 1 + e - 53) (-1074) - e).toNat = 1 := by omega
    refine ⟨2 ^ 52, e + 1, by norm_num, ?_, ⟨by norm_num, .inl le_rfl, by omega, by omega⟩, ?_⟩
    · simp only [hshift]
      rfl
    · rw [zpow_add₀ two_ne_zero]
      push_cast
      ring

/-- A whole number that is written with 53 bits or more is rounded to 53 significant ones. -/
theorem worth_roundWithAccuracy (s : Sign) {n i : ℕ} (hn : 0 < n) (hlt : n < 2 ^ 64)
    (hi : 52 ≤ n.log2 + i) :
    Canonical (roundWithAccuracy .binary64 s (n * 2 ^ i) (-i) .exact) ∧
      worth (roundWithAccuracy .binary64 s (n * 2 ^ i) (-i) .exact) = s.apply (rounded n) := by
  have hlog : n.log2 < 64 := (Nat.log2_lt hn.ne').2 hlt
  obtain ⟨k, hk⟩ : ∃ k : ℕ, (k : ℤ) = n.log2 - 52 + i := ⟨n.log2 + i - 52, by omega⟩
  have hfirst : shiftToTargetExponent .binary64 (n * 2 ^ i) (-i) .exact =
      (ExtendedMantissa.ofMantissaAndAccuracy (n * 2 ^ i) .exact >>> k, (n.log2 : ℤ) - 52) := by
    have hamount : ((n.log2 : ℤ) - 52 - -i).toNat = k := by omega
    unfold shiftToTargetExponent shiftToExponent
    simp only [targetExponent_eq hn, hamount]
    congr 1
    omega
  obtain ⟨m, f, hm, hsecond, hcanonical, hvalue⟩ :=
    shift_rounded s (e := n.log2 - 52) (two_pow_le_quotient hn hk) (by omega) (by omega)
  have hround : roundWithAccuracy .binary64 s (n * 2 ^ i) (-i) .exact = .finite s m f hm := by
    unfold roundWithAccuracy
    simp only [hfirst, roundedMantissa_shiftRight, hsecond]
    rw [dif_neg hm.ne']
  have hworth : (m : ℚ) * 2 ^ f = rounded n := hvalue.trans (quotient_mul_zpow hk)
  rw [hround]
  refine ⟨hcanonical, ?_⟩
  cases s <;> simp [worth, Sign.apply, hworth]

/-- A whole number is rounded to 53 significant bits. -/
theorem worth_round (s : Sign) {n : ℕ} (hn : 0 < n) (hlt : n < 2 ^ 64) :
    Canonical (round .binary64 s n 0) ∧ worth (round .binary64 s n 0) = s.apply (rounded n) := by
  have htarget := targetExponent_eq hn 0
  rw [pow_zero, mul_one, Nat.cast_zero, neg_zero] at htarget
  -- A short number is written with 53 bits first.
  have hround : round .binary64 s n 0 =
      roundWithAccuracy .binary64 s (n * 2 ^ (52 - n.log2)) (-(52 - n.log2 : ℕ)) .exact := by
    have hamount : (-((n.log2 : ℤ) - 52)).toNat = 52 - n.log2 := by omega
    unfold UnpackedFloat.round decreaseExponent
    simp only [htarget, zero_sub, hamount, Nat.shiftLeft_eq]
  rw [hround]
  exact worth_roundWithAccuracy s hn hlt (by omega)

/-- A number of at most 53 significant bits stays as it is. -/
theorem rounded_mul_two_pow {m : ℕ} (h : m < 2 ^ 53) (k : ℕ) : rounded (m * 2 ^ k) = m * 2 ^ k := by
  obtain rfl | hm := Nat.eq_zero_or_pos m
  · simp [rounded, quotient]
  have hlog : (m * 2 ^ k).log2 < 53 + k := by
    rw [Nat.log2_lt (Nat.mul_pos hm (Nat.two_pow_pos k)).ne', pow_add]
    exact Nat.mul_lt_mul_of_pos_right h (Nat.two_pow_pos k)
  obtain ⟨i, hi⟩ := Nat.exists_eq_add_of_le (show (m * 2 ^ k).log2 - 52 ≤ k by omega)
  have hpow : m * 2 ^ k = m * 2 ^ i * 2 ^ ((m * 2 ^ k).log2 - 52) := by
    rw [mul_assoc, ← pow_add, add_comm i, ← hi]
  rw [rounded]
  generalize (m * 2 ^ k).log2 - 52 = j at hpow
  rw [hpow, quotient_mul _ (Nat.two_pow_pos j)]

theorem rounded_of_lt {n : ℕ} (h : n < 2 ^ 53) : rounded n = n := by
  simpa using rounded_mul_two_pow h 0

end Patchbay.Binary64
