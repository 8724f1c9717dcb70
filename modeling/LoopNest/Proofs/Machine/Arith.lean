import LoopNest.Machine.Arith
import Mathlib.Logic.Basic

/-!
# Integer arithmetic

Integers are 64 bits wide, and a scalar type looks at its low bits.  Normalizing extends these
and leaves them alone (`Scalar.lowBits_normalize`).  A sum, a difference or a product depends on its
operands up to normalizing (`Scalar.normalize_add_congr`).
-/

namespace LoopNest

theorem toNat_ofInt (x : Int) : (Int64.ofInt x).toUInt64.toNat = (x % 2 ^ 64).toNat := by
  change (BitVec.ofInt 64 x).toNat = _
  rw [BitVec.toNat_ofInt]
  rfl

theorem toNat_ofNat (n : Nat) : (Int64.ofNat n).toUInt64.toNat = n % 2 ^ 64 := by
  change (BitVec.ofNat 64 n).toNat = _
  rw [BitVec.toNat_ofNat]

theorem toInt_eq_bmod (v : Int64) : v.toInt = Int.bmod (v.toUInt64.toNat : Int) (2 ^ 64) := by
  change v.toBitVec.toInt = Int.bmod (v.toBitVec.toNat : Int) (2 ^ 64)
  rw [BitVec.toInt_eq_toNat_bmod]

theorem toInt_emod (v : Int64) : v.toInt % 2 ^ 64 = (v.toUInt64.toNat : Int) := by
  rw [toInt_eq_bmod, Int.bmod_def]
  have := v.toUInt64.toNat_lt
  split <;> omega

theorem toNat_toInt {v : Int64} (h : 0 ≤ v.toInt) : v.toInt.toNat = v.toUInt64.toNat := by
  have h₁ := toInt_emod v
  have h₂ := v.toInt_lt
  omega

theorem toNat_add (a b : Int64) :
    (a + b).toUInt64.toNat = (a.toUInt64.toNat + b.toUInt64.toNat) % 2 ^ 64 :=
  UInt64.toNat_add a.toUInt64 b.toUInt64

theorem toNat_mul (a b : Int64) :
    (a * b).toUInt64.toNat = (a.toUInt64.toNat * b.toUInt64.toNat) % 2 ^ 64 :=
  UInt64.toNat_mul a.toUInt64 b.toUInt64

/-- A remainder of a remainder, as natural numbers. -/
theorem mod_toNat_emod {m k : Nat} (hm : 0 < m) (hk : k ∣ m) (x : Int) :
    (x % (m : Int)).toNat % k = (x % (k : Int)).toNat := by
  have hnn : 0 ≤ x % (m : Int) := Int.emod_nonneg x (by omega)
  have hk' : (k : Int) ∣ (m : Int) := Int.ofNat_dvd.mpr hk
  rw [← Int.emod_emod_of_dvd x hk', ← Int.toNat_natCast ((x % (m : Int)).toNat % k),
    Int.natCast_emod, Int.toNat_of_nonneg hnn]

/-- The low bits of a sign extension are the bits that were extended. -/
theorem mod_bmod_bmod {n m : Nat} (hn : n < m) {k : Nat} (hk : k ∣ m ∨ m ≤ k) :
    (((Int.bmod n m).bmod k) % (m : Int)).toNat % k = n % k := by
  rcases hk with hk | hk
  · rw [mod_toNat_emod (by omega) hk, Int.bmod_emod, ← mod_toNat_emod (by omega) hk,
      Int.bmod_emod, mod_toNat_emod (by omega) hk, ← Int.natCast_emod, Int.toNat_natCast]
  · have hself : (Int.bmod n m).bmod k = Int.bmod n m := by
      have h₁ := @Int.le_bmod n m (by omega)
      have h₂ := @Int.bmod_lt n m (by omega)
      refine Int.bmod_eq_of_le ?_ ?_ <;> omega
    rw [hself, Int.bmod_emod, ← Int.natCast_emod, Int.toNat_natCast, Nat.mod_eq_of_lt hn]

namespace Scalar

/-- Normalizing keeps the low bits. -/
@[simp] theorem lowBits_normalize (s : Scalar) (v : Int64) :
    s.lowBits (s.normalize v) = s.lowBits v := by
  have hlt : v.toUInt64.toNat < 2 ^ 64 := v.toUInt64.toNat_lt
  unfold normalize
  split
  · rfl
  · unfold lowBits
    rw [toNat_ofInt, toInt_eq_bmod]
    refine mod_bmod_bmod hlt ((Nat.le_total s.bits 64).imp (Nat.pow_dvd_pow 2) fun hle => ?_)
    exact Nat.pow_le_pow_right (by decide) hle
  · unfold lowBits
    rw [toNat_ofNat]
    have hle := Nat.mod_le v.toUInt64.toNat (2 ^ s.bits)
    rw [Nat.mod_eq_of_lt (Nat.lt_of_le_of_lt hle hlt), Nat.mod_mod]

/-- On all 64 bits, nothing is cut off. -/
theorem lowBits_of_width {s : Scalar} (hi : s.isInteger = true) (hw : s.width = 8) (v : Int64) :
    s.lowBits v = v.toUInt64.toNat := by
  have hbits : s.bits = 64 := by
    unfold bits
    cases hk : s.kind <;> simp_all [isInteger]
  rw [lowBits, hbits]
  exact Nat.mod_eq_of_lt v.toUInt64.toNat_lt

theorem normalize_of_width {s : Scalar} (hi : s.isInteger = true) (hw : s.width = 8) (v : Int64) :
    s.normalize v = v := by
  have hlow : (s.normalize v).toUInt64.toNat = v.toUInt64.toNat := by
    rw [← lowBits_of_width hi hw, lowBits_normalize, lowBits_of_width hi hw]
  have heq := UInt64.toNat_inj.mp hlow
  exact congrArg UInt64.toInt64 heq

/-! ## Arithmetic on the low bits -/

section

variable {s : Scalar} {a a' b b' : Int64}

/-- The bits of a type divide up the 64 bits of a datum, or there are more of them. -/
theorem eq_of_lowBits (hs : 64 < s.bits) (h : s.lowBits a = s.lowBits b) : a = b := by
  have hpow : 2 ^ 64 ≤ 2 ^ s.bits := Nat.pow_le_pow_right (by decide) (by omega)
  unfold lowBits at h
  rw [Nat.mod_eq_of_lt (Nat.lt_of_lt_of_le a.toUInt64.toNat_lt hpow),
    Nat.mod_eq_of_lt (Nat.lt_of_lt_of_le b.toUInt64.toNat_lt hpow)] at h
  exact congrArg UInt64.toInt64 (UInt64.toNat_inj.mp h)

theorem lowBits_add (hs : s.bits ≤ 64) (a b : Int64) :
    s.lowBits (a + b) = (s.lowBits a + s.lowBits b) % 2 ^ s.bits := by
  rw [lowBits, toNat_add, Nat.mod_mod_of_dvd _ (Nat.pow_dvd_pow 2 hs), Nat.add_mod]
  rfl

theorem lowBits_lt_pow (s : Scalar) (v : Int64) : s.lowBits v < 2 ^ s.bits :=
  Nat.mod_lt _ (Nat.two_pow_pos _)

theorem lowBits_ofNat {n : Nat} (hs : s.bits ≤ 64) (hn : n < 2 ^ s.bits) :
    s.lowBits (Int64.ofNat n) = n := by
  rw [lowBits, toNat_ofNat, Nat.mod_mod_of_dvd _ (Nat.pow_dvd_pow 2 hs), Nat.mod_eq_of_lt hn]

/-- A sum below the end of the type is not wrapped around. -/
theorem lowBits_add_of_lt (hs : s.bits ≤ 64) (h : s.lowBits a + s.lowBits b < 2 ^ s.bits) :
    s.lowBits (a + b) = s.lowBits a + s.lowBits b := by
  rw [lowBits_add hs, Nat.mod_eq_of_lt h]

/-- Neither is a difference that is not negative. -/
theorem lowBits_sub_of_le (hs : s.bits ≤ 64) (h : s.lowBits b ≤ s.lowBits a) :
    s.lowBits (a - b) = s.lowBits a - s.lowBits b := by
  have hsum := lowBits_add hs (a - b) b
  rw [Int64.sub_add_cancel] at hsum
  have hd := lowBits_lt_pow s (a - b)
  have ha := lowBits_lt_pow s a
  generalize 2 ^ s.bits = m at hsum hd ha
  rcases Nat.lt_or_ge (s.lowBits (a - b) + s.lowBits b) m with hlt | hge
  · rw [Nat.mod_eq_of_lt hlt] at hsum
    omega
  · rw [Nat.mod_eq_sub_mod hge, Nat.mod_eq_of_lt (by omega)] at hsum
    omega

theorem lowBits_mul (hs : s.bits ≤ 64) (a b : Int64) :
    s.lowBits (a * b) = (s.lowBits a * s.lowBits b) % 2 ^ s.bits := by
  rw [lowBits, toNat_mul, Nat.mod_mod_of_dvd _ (Nat.pow_dvd_pow 2 hs), Nat.mul_mod]
  rfl

theorem lowBits_lt (s : Scalar) (v : Int64) : s.lowBits v < 2 ^ min s.bits 64 := by
  rcases Nat.le_total s.bits 64 with hs | hs
  · rw [Nat.min_eq_left hs]
    exact Nat.mod_lt _ (Nat.two_pow_pos _)
  · rw [Nat.min_eq_right hs]
    exact Nat.lt_of_le_of_lt (Nat.mod_le _ _) v.toUInt64.toNat_lt

/-- Sums are sums of the low bits, within the 64 bits of a datum. -/
theorem lowBits_add_mod (s : Scalar) (a b : Int64) :
    s.lowBits (a + b) = (s.lowBits a + s.lowBits b) % 2 ^ min s.bits 64 := by
  rcases Nat.le_total s.bits 64 with hs | hs
  · rw [Nat.min_eq_left hs, lowBits_add hs]
  · have hself : ∀ v : Int64, s.lowBits v = v.toUInt64.toNat := fun v =>
      Nat.mod_eq_of_lt (Nat.lt_of_lt_of_le v.toUInt64.toNat_lt (Nat.pow_le_pow_right (by decide) hs))
    rw [Nat.min_eq_right hs, hself, hself, hself, toNat_add]

theorem lowBits_add_congr (ha : s.lowBits a = s.lowBits a') (hb : s.lowBits b = s.lowBits b') :
    s.lowBits (a + b) = s.lowBits (a' + b') := by
  rcases Nat.lt_or_ge 64 s.bits with hs | hs
  · rw [eq_of_lowBits hs ha, eq_of_lowBits hs hb]
  · rw [lowBits_add hs, lowBits_add hs, ha, hb]

theorem lowBits_mul_congr (ha : s.lowBits a = s.lowBits a') (hb : s.lowBits b = s.lowBits b') :
    s.lowBits (a * b) = s.lowBits (a' * b') := by
  rcases Nat.lt_or_ge 64 s.bits with hs | hs
  · rw [eq_of_lowBits hs ha, eq_of_lowBits hs hb]
  · rw [lowBits_mul hs, lowBits_mul hs, ha, hb]

/-- Normalizing looks at the low bits only, and keeps them apart. -/
theorem normalize_eq_iff (hk : s.kind ≠ .bool) :
    s.normalize a = s.normalize b ↔ s.lowBits a = s.lowBits b := by
  constructor
  · intro h
    rw [← lowBits_normalize s a, h, lowBits_normalize]
  · intro h
    rcases Nat.lt_or_ge 64 s.bits with hs | hs
    · rw [eq_of_lowBits hs h]
    have hsint : ∀ v : Int64, v.toInt.bmod (2 ^ s.bits) = (s.lowBits v : Int).bmod (2 ^ s.bits) := by
      intro v
      rw [toInt_eq_bmod]
      refine (Int.bmod_bmod_of_dvd (Nat.pow_dvd_pow 2 hs)).trans ?_
      rw [lowBits, Int.natCast_emod, Int.emod_bmod]
    unfold normalize
    cases hs : s.kind with
    | sint => simp only [hsint, h]
    | bool => exact absurd hs hk
    | _ => simp only [h]

theorem normalize_of_bool (hk : s.kind = .bool) (v : Int64) : s.normalize v = v := by
  rw [normalize, hk]

@[simp] theorem normalize_normalize (s : Scalar) (v : Int64) :
    s.normalize (s.normalize v) = s.normalize v := by
  by_cases hk : s.kind = .bool
  · rw [normalize_of_bool hk]
  · exact (normalize_eq_iff hk).mpr (lowBits_normalize s v)

/-- A sum depends on its operands up to normalizing. -/
theorem normalize_add_congr (ha : s.normalize a = s.normalize a')
    (hb : s.normalize b = s.normalize b') : s.normalize (a + b) = s.normalize (a' + b') := by
  by_cases hk : s.kind = .bool
  · rw [normalize_of_bool hk, normalize_of_bool hk] at ha hb
    rw [ha, hb]
  · rw [normalize_eq_iff hk] at ha hb ⊢
    exact lowBits_add_congr ha hb

/-- A product depends on its operands up to normalizing. -/
theorem normalize_mul_congr (ha : s.normalize a = s.normalize a')
    (hb : s.normalize b = s.normalize b') : s.normalize (a * b) = s.normalize (a' * b') := by
  by_cases hk : s.kind = .bool
  · rw [normalize_of_bool hk, normalize_of_bool hk] at ha hb
    rw [ha, hb]
  · rw [normalize_eq_iff hk] at ha hb ⊢
    exact lowBits_mul_congr ha hb

/-- A difference depends on its operands up to normalizing. -/
theorem normalize_sub_congr (ha : s.normalize a = s.normalize a')
    (hb : s.normalize b = s.normalize b') : s.normalize (a - b) = s.normalize (a' - b') := by
  have hneg : ∀ x y : Int64, x - y = x + y * -1 := by
    intro x y
    grind
  rw [hneg, hneg]
  exact normalize_add_congr ha (normalize_mul_congr hb rfl)

end

end Scalar

end LoopNest
