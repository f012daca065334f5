import Mathlib

/-!
# What floating-point numbers stand for

A finite 64-bit floating-point number is a sign, a mantissa and an exponent of two. The same number
could be written with other mantissas, but the one that is stored is as long as its exponent allows.
So different encodings stand for different numbers, zero apart, which has two signs.

## Key results

- `canonical_unpack` / `unpack_pack`: what is stored is canonical, and canonical numbers are stored
  as they are
- `beq_iff_worth`: canonical numbers that are worth the same are the same, up to the sign of zero
- `beq_iff_value`: finite floating-point numbers are equal iff they stand for the same number
-/

namespace Patchbay.Binary64

open Float.Model (Format UnpackedFloat)
open Float.Model.UnpackedFloat

/-- The rational number that an unpacked number stands for; zero if it is not finite. -/
def worth : UnpackedFloat → ℚ
  | .finite s m e _ => (s.apply m : ℚ) * 2 ^ e
  | _ => 0

/-- The number is finite, its exponent is in range, and its mantissa has 53 bits, or fewer if the
exponent is the lowest one. -/
def Canonical : UnpackedFloat → Prop
  | .finite _ m e _ => m < 2 ^ 53 ∧ (2 ^ 52 ≤ m ∨ e = -1074) ∧ -1074 ≤ e ∧ e ≤ 971
  | .zero _ => True
  | _ => False

theorem isFinite_of_canonical {u : UnpackedFloat} (h : Canonical u) : u.isFinite = true := by
  cases u with
  | infinity | notANumber => exact h.elim
  | zero | finite => rfl

/-! ### Storing -/

/-- The mantissa of a normal number, with its highest bit. -/
theorem toNat_append_one (m : BitVec 52) : (1#1 ++ m).toNat = 2 ^ 52 + m.toNat := by
  rw [BitVec.toNat_append, ← Nat.shiftLeft_add_eq_or_of_lt m.isLt]
  rfl

/-- A finite number that is stored is canonical. -/
theorem canonical_unpack {b : BitVec Format.binary64.numBits}
    (h : (unpack .binary64 b).isFinite = true) : Canonical (unpack .binary64 b) := by
  obtain ⟨m, hm⟩ : ∃ m : BitVec 52, unpackMantissa b = m := ⟨_, rfl⟩
  obtain ⟨e, he⟩ : ∃ e : BitVec 11, unpackExponent b = e := ⟨_, rfl⟩
  have hmlt := m.isLt
  have helt := e.isLt
  have hbias : (Format.binary64.exponentBias : ℤ) + 52 = 1075 := rfl
  unfold unpack at h ⊢
  simp only [hm, he] at h ⊢
  split at h
  next => split at h <;> cases h
  next hmax =>
    have hmax' : e.toNat ≠ 2047 := fun heq => hmax (BitVec.eq_of_toNat_eq heq)
    rw [if_neg hmax]
    split
    next hzero =>
      have hzero' : e.toNat = 0 := congrArg BitVec.toNat hzero
      split
      next => trivial
      next => exact ⟨by omega, .inr (by omega), by omega, by omega⟩
    next hzero =>
      have hzero' : e.toNat ≠ 0 := fun heq => hzero (BitVec.eq_of_toNat_eq heq)
      have hnormal := toNat_append_one m
      exact ⟨by omega, .inl (by omega), by omega, by omega⟩

/-- A mantissa with its highest bit is stored without it. -/
theorem unpack_pack_normal (s : Sign) {m : ℕ} {e : ℤ} (hpos : 0 < m) (hlong : 2 ^ 52 ≤ m)
    (hlt : m < 2 ^ 53) (hlow : -1074 ≤ e) (hhigh : e ≤ 971) :
    unpack .binary64 (pack .binary64 (.finite s m e hpos)) = .finite s m e hpos := by
  have hlog : m.log2 + 1 = Format.binary64.mantissaBits := by
    rw [(Nat.log2_eq_iff hpos.ne').2 ⟨hlong, hlt⟩]
    rfl
  obtain ⟨b, hb⟩ : ∃ b : ℕ, (b : ℤ) = e + 1023 + 52 := ⟨(e + 1023 + 52).toNat, by omega⟩
  have hexponent : (BitVec.ofNat 11 b).toNat = b := Nat.mod_eq_of_lt (by omega)
  have hpack : pack .binary64 (.finite s m e hpos) =
      packComponents .binary64 s (BitVec.ofNat 11 b) (BitVec.ofNat 52 m) := by
    have hbiased : (e + (Format.binary64.exponentBias : ℤ) + (52 : ℕ)).toNat = b := by
      show (e + 1023 + 52).toNat = b
      omega
    simp only [pack, hbiased]
    rw [if_neg (by omega), if_pos hlog]
  have hmax : BitVec.ofNat 11 b ≠ -1#11 := fun h => by
    have := congrArg BitVec.toNat h
    rw [hexponent] at this
    change b = 2047 at this
    omega
  have hzero : BitVec.ofNat 11 b ≠ 0#11 := fun h => by
    have := congrArg BitVec.toNat h
    rw [hexponent] at this
    change b = 0 at this
    omega
  have hmantissa : (1#1 ++ BitVec.ofNat 52 m).toNat = m := by
    rw [toNat_append_one, BitVec.toNat_ofNat]
    omega
  rw [hpack, unpack]
  simp only [unpackMantissa_packComponents, unpackExponent_packComponents,
    unpackSign_packComponents, Sign.ofBitVec_toBitVec, hmax, hzero, if_false, hexponent, hmantissa]
  congr 1
  show (b : ℤ) - (1023 + 52) = e
  omega

/-- A shorter mantissa is stored with the lowest exponent. -/
theorem unpack_pack_subnormal (s : Sign) {m : ℕ} (hpos : 0 < m) (hlt : m < 2 ^ 52) :
    unpack .binary64 (pack .binary64 (.finite s m (-1074) hpos)) = .finite s m (-1074) hpos := by
  have hlog : m.log2 + 1 ≠ Format.binary64.mantissaBits := by
    have := (Nat.log2_lt hpos.ne').2 hlt
    show m.log2 + 1 ≠ 53
    omega
  have hpack : pack .binary64 (.finite s m (-1074) hpos) =
      packComponents .binary64 s 0#11 (BitVec.ofNat 52 m) := by
    simp only [pack]
    rw [if_neg (by decide), if_neg hlog]
  have hmantissa : (BitVec.ofNat 52 m).toNat = m := Nat.mod_eq_of_lt hlt
  have hzero : BitVec.ofNat 52 m ≠ 0#52 := fun h => by
    have := congrArg BitVec.toNat h
    rw [hmantissa] at this
    change m = 0 at this
    omega
  have hmax : (0#11 : BitVec 11) ≠ -1#11 := by decide
  rw [hpack, unpack]
  simp only [unpackMantissa_packComponents, unpackExponent_packComponents,
    unpackSign_packComponents, Sign.ofBitVec_toBitVec, hmax, hzero, if_false, if_true, dite_false,
    hmantissa]
  rfl

/-- A canonical number is stored as it is. -/
theorem unpack_pack {u : UnpackedFloat} (h : Canonical u) :
    unpack .binary64 (pack .binary64 u) = u := by
  cases u with
  | infinity | notANumber => exact h.elim
  | zero s => exact unpack_packedZero
  | finite s m e hpos =>
    obtain ⟨hlt, hlong, hlow, hhigh⟩ := h
    by_cases hnormal : 2 ^ 52 ≤ m
    · exact unpack_pack_normal s hpos hnormal hlt hlow hhigh
    · obtain rfl := hlong.resolve_left hnormal
      exact unpack_pack_subnormal s hpos (Nat.lt_of_not_le hnormal)

/-! ### Numbers and what they are worth -/

theorem worth_finite_ne_zero {s : Sign} {m : ℕ} {e : ℤ} (hpos : 0 < m) :
    worth (.finite s m e hpos) ≠ 0 := by
  have hm : (m : ℚ) ≠ 0 := Nat.cast_ne_zero.2 hpos.ne'
  cases s <;> simp [worth, Sign.apply, hm, zpow_ne_zero]

/-- The mantissas of canonical numbers differ by less than a power of two. -/
theorem le_of_mul_zpow_eq {m n : ℕ} {e f : ℤ} (hm : 2 ^ 52 ≤ m ∨ e = -1074) (hn : n < 2 ^ 53)
    (hf : -1074 ≤ f) (h : (m : ℚ) * 2 ^ e = n * 2 ^ f) : e ≤ f := by
  by_contra hlt
  obtain ⟨k, hk⟩ : ∃ k : ℕ, e = f + 1 + k := ⟨(e - f - 1).toNat, by omega⟩
  have hlong : 2 ^ 52 ≤ m := hm.resolve_right (by omega)
  -- With the lower exponent the mantissa would need another bit.
  have hmant : n = m * 2 ^ (k + 1) := by
    have htwo : (2 : ℚ) ^ f ≠ 0 := zpow_ne_zero _ two_ne_zero
    have hsplit : (2 : ℚ) ^ e = 2 ^ (k + 1) * 2 ^ f := by
      rw [hk, ← zpow_natCast, ← zpow_add₀ two_ne_zero]
      congr 1
      push_cast
      ring
    rw [hsplit, ← mul_assoc, mul_left_inj' htwo] at h
    exact_mod_cast h.symm
  have hpow : 2 ^ 1 ≤ 2 ^ (k + 1) := Nat.pow_le_pow_right two_pos (by omega)
  have := Nat.mul_le_mul hlong hpow
  omega

/-- Mantissa and exponent of a canonical number are determined. -/
theorem eq_of_mul_zpow_eq {m n : ℕ} {e f : ℤ} (hm : m < 2 ^ 53) (hm' : 2 ^ 52 ≤ m ∨ e = -1074)
    (he : -1074 ≤ e) (hn : n < 2 ^ 53) (hn' : 2 ^ 52 ≤ n ∨ f = -1074) (hf : -1074 ≤ f)
    (h : (m : ℚ) * 2 ^ e = n * 2 ^ f) : m = n ∧ e = f := by
  obtain rfl : e = f :=
    Int.le_antisymm (le_of_mul_zpow_eq hm' hn hf h) (le_of_mul_zpow_eq hn' hm he h.symm)
  have htwo : (2 : ℚ) ^ e ≠ 0 := zpow_ne_zero _ two_ne_zero
  exact ⟨Nat.cast_injective ((mul_left_inj' htwo).1 h), rfl⟩

theorem worth_finite_pos {s : Sign} {m : ℕ} {e : ℤ} (hpos : 0 < m) :
    0 < worth (.finite s m e hpos) ↔ s = .positive := by
  have hsize : (0 : ℚ) < m * 2 ^ e := mul_pos (Nat.cast_pos.2 hpos) (zpow_pos two_pos e)
  cases s with
  | negative => simpa [worth, Sign.apply] using hsize.le
  | positive => simpa [worth, Sign.apply] using hsize

/-- Canonical numbers that are worth the same are the same number, or zero with any sign. -/
theorem beq_iff_worth {u v : UnpackedFloat} (hu : Canonical u) (hv : Canonical v) :
    u.beq v = true ↔ worth u = worth v := by
  rw [beq_iff_ne_notANumber_and_eq]
  cases u with
  | infinity | notANumber => exact hu.elim
  | zero s =>
    cases v with
    | infinity | notANumber => exact hv.elim
    | zero t => cases s <;> cases t <;> simp [worth]
    | finite t n f hn => simp [(worth_finite_ne_zero hn).symm, show worth (.zero s) = 0 from rfl]
  | finite s m e hm =>
    cases v with
    | infinity | notANumber => exact hv.elim
    | zero t => simp [worth_finite_ne_zero hm, show worth (.zero t) = 0 from rfl]
    | finite t n f hn =>
      obtain ⟨hlt, hlong, hlow, -⟩ := hu
      obtain ⟨hlt', hlong', hlow', -⟩ := hv
      have hsame : worth (.finite s m e hm) = worth (.finite t n f hn) → s = t ∧ m = n ∧ e = f := by
        intro h
        have hsign : s = t := by
          have hiff : s = .positive ↔ t = .positive := by
            rw [← worth_finite_pos hm, h, worth_finite_pos hn]
          cases s <;> cases t <;> simp_all
        subst hsign
        refine ⟨rfl, eq_of_mul_zpow_eq hlt hlong hlow hlt' hlong' hlow' ?_⟩
        cases s <;> simpa [worth, Sign.apply] using h
      simp only [reduceCtorEq, not_false_eq_true, ne_eq, true_and, false_and, or_false,
        UnpackedFloat.finite.injEq]
      exact ⟨fun ⟨hs, hmn, hef⟩ => by subst hs hmn hef; rfl, hsame⟩

/-! ### Floating-point numbers -/

/-- The rational number that a floating-point number stands for; zero if it is not finite. -/
def value (x : Float) : ℚ := worth x.toModel.unpack

theorem canonical_of_isFinite {x : Float} (h : x.isFinite = true) : Canonical x.toModel.unpack :=
  canonical_unpack h

/-- Finite floating-point numbers are equal iff they stand for the same number. -/
theorem beq_iff_value {x y : Float} (hx : x.isFinite = true) (hy : y.isFinite = true) :
    (x == y) = true ↔ value x = value y :=
  beq_iff_worth (canonical_of_isFinite hx) (canonical_of_isFinite hy)

/-- A floating-point number that is made of a canonical number stands for this. -/
theorem value_ofModel_pack {u : UnpackedFloat} (h : Canonical u) :
    (Float.ofModel (.pack u)).isFinite = true ∧ value (.ofModel (.pack u)) = worth u := by
  have hunpack : (Float.ofModel (.pack u)).toModel.unpack = u := unpack_pack h
  refine ⟨?_, congrArg worth hunpack⟩
  show (Float.ofModel (.pack u)).toModel.unpack.isFinite = true
  rw [hunpack]
  exact isFinite_of_canonical h

end Patchbay.Binary64
