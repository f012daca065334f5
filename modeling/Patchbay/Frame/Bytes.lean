/-! # Bytes

Numbers as bytes, nearly always the lowest first, and taking them off the front of bytes. What is
written is read back (`takeNumber_littleEndian`).
-/

namespace Patchbay.Frame

abbrev Bytes := List UInt8

/-- A number in `k` bytes, the lowest first. -/
def littleEndian : Nat → Nat → Bytes
  | 0, _ => []
  | k + 1, n => UInt8.ofNat (n % 256) :: littleEndian k (n / 256)

/-- The number that bytes stand for, the lowest first. -/
def ofLittleEndian (bs : Bytes) : Nat := bs.foldr (fun b n => b.toNat + 256 * n) 0

/-- The number that bytes stand for, the highest first. -/
def ofBigEndian (bs : Bytes) : Nat := ofLittleEndian bs.reverse

theorem ofLittleEndian_cons (b : UInt8) (bs : Bytes) :
    ofLittleEndian (b :: bs) = b.toNat + 256 * ofLittleEndian bs := rfl

theorem length_littleEndian (k n : Nat) : (littleEndian k n).length = k := by
  induction k generalizing n with
  | zero => rfl
  | succ k ih => rw [littleEndian, List.length_cons, ih]

/-- A number is read back from enough bytes. -/
theorem ofLittleEndian_littleEndian (k n : Nat) (h : n < Nat.pow 256 k) :
    ofLittleEndian (littleEndian k n) = n := by
  induction k generalizing n with
  | zero =>
    have hn : n = 0 := by change n < 1 at h; omega
    rw [littleEndian, hn]
    rfl
  | succ k ih =>
    have hk : n / 256 < Nat.pow 256 k := by
      change n < Nat.pow 256 k * 256 at h
      omega
    rw [littleEndian, ofLittleEndian_cons, ih _ hk]
    simp
    omega

/-- The first `k` bytes, and the others. -/
def takeBytes (k : Nat) (bs : Bytes) : Option (Bytes × Bytes) :=
  if k ≤ bs.length then some (bs.take k, bs.drop k) else none

/-- The first `k` bytes as a number, and the others. -/
def takeNumber (k : Nat) (bs : Bytes) : Option (Nat × Bytes) :=
  (takeBytes k bs).map fun p => (ofLittleEndian p.1, p.2)

theorem takeBytes_append (bs rest : Bytes) : takeBytes bs.length (bs ++ rest) = some (bs, rest) := by
  simp [takeBytes]

theorem takeNumber_littleEndian {k n : Nat} (h : n < Nat.pow 256 k) (rest : Bytes) :
    takeNumber k (littleEndian k n ++ rest) = some (n, rest) := by
  have := takeBytes_append (littleEndian k n) rest
  rw [length_littleEndian] at this
  rw [takeNumber, this, Option.map_some, ofLittleEndian_littleEndian k n h]

/-- Taking bytes shortens what is left. -/
theorem length_of_takeBytes {k : Nat} {bs taken rest : Bytes}
    (h : takeBytes k bs = some (taken, rest)) : taken.length = k ∧ rest.length + k = bs.length := by
  unfold takeBytes at h
  split at h
  next hk =>
    simp only [Option.some.injEq, Prod.mk.injEq] at h
    obtain ⟨rfl, rfl⟩ := h
    rw [List.length_take, List.length_drop]
    omega
  next => cases h

end Patchbay.Frame
