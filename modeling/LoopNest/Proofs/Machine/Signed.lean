import LoopNest.Proofs.Machine.Arith

/-!
# Signed integers up to their range

A signed type keeps an integer up to a multiple of its range.  `Scalar.wrap` gives the datum that
stands for an integer of any size.  Sums, differences and products of such data stand for the
sums, differences and products of the integers, so that a computation can be followed in
integers of any size, and the range matters only where a value is looked at: in a comparison
(`Scalar.lowBits_wrap`), or where it is taken as it is (`Scalar.wrap_eq_ofInt`).
-/

namespace LoopNest

namespace Scalar

/-- A signed type that fits into a datum. -/
structure IsSigned (s : Scalar) : Prop where
  kind_eq : s.kind = .sint
  width_le : s.width ≤ 8

theorem isSigned_i32 : i32.IsSigned := ⟨rfl, by decide⟩

/-- The datum that stands for an integer, up to the range of the type. -/
def wrap (s : Scalar) (n : Int) : Int64 := Int64.ofInt (n.bmod (2 ^ s.bits))

/-- What is cut off to the range already stands for the same integers. -/
theorem wrap_bmod_self (s : Scalar) (n : Int) : s.wrap (n.bmod (2 ^ s.bits)) = s.wrap n := by
  rw [wrap, Int.bmod_bmod, wrap]

variable {s : Scalar}

namespace IsSigned

theorem bits_eq (hs : s.IsSigned) : s.bits = s.width * 8 := by
  rw [bits, hs.kind_eq]

theorem dvd (hs : s.IsSigned) : 2 ^ s.bits ∣ 2 ^ 64 := by
  have := hs.width_le
  exact Nat.pow_dvd_pow 2 (by rw [hs.bits_eq]; omega)

/-- Normalizing keeps the integer up to the range. -/
theorem normalize_eq (hs : s.IsSigned) (v : Int64) : s.normalize v = s.wrap v.toInt := by
  rw [normalize, hs.kind_eq, wrap]

/-- What is cut off to 64 bits first is cut off to the range all the same. -/
theorem wrap_bmod (hs : s.IsSigned) (n : Int) : s.wrap (n.bmod (2 ^ 64)) = s.wrap n := by
  rw [wrap, Int.bmod_bmod_of_dvd hs.dvd, wrap]

theorem wrap_toInt_ofInt (hs : s.IsSigned) (n : Int) : s.wrap (Int64.ofInt n).toInt = s.wrap n := by
  rw [Int64.toInt_ofInt]
  exact hs.wrap_bmod n

theorem toInt_wrap (hs : s.IsSigned) (n : Int) :
    (s.wrap n).toInt.bmod (2 ^ s.bits) = n.bmod (2 ^ s.bits) := by
  rw [wrap, Int64.toInt_ofInt]
  refine (Int.bmod_bmod_of_dvd hs.dvd).trans ?_
  rw [Int.bmod_bmod]

theorem normalize_ofInt (hs : s.IsSigned) (n : Int) : s.normalize (Int64.ofInt n) = s.wrap n := by
  rw [hs.normalize_eq, hs.wrap_toInt_ofInt]

theorem normalize_add (hs : s.IsSigned) (a b : Int) :
    s.normalize (s.wrap a + s.wrap b) = s.wrap (a + b) := by
  rw [hs.normalize_eq, Int64.toInt_add]
  refine (hs.wrap_bmod _).trans ?_
  rw [wrap, ← Int.add_bmod_bmod, ← Int.bmod_add_bmod, hs.toInt_wrap, hs.toInt_wrap,
    Int.add_bmod_bmod, Int.bmod_add_bmod, wrap]

theorem normalize_sub (hs : s.IsSigned) (a b : Int) :
    s.normalize (s.wrap a - s.wrap b) = s.wrap (a - b) := by
  rw [hs.normalize_eq, Int64.toInt_sub]
  refine (hs.wrap_bmod _).trans ?_
  rw [wrap, ← Int.sub_bmod_bmod, ← Int.bmod_sub_bmod, hs.toInt_wrap, hs.toInt_wrap,
    Int.sub_bmod_bmod, Int.bmod_sub_bmod, wrap]

theorem normalize_mul (hs : s.IsSigned) (a b : Int) :
    s.normalize (s.wrap a * s.wrap b) = s.wrap (a * b) := by
  rw [hs.normalize_eq, Int64.toInt_mul]
  refine (hs.wrap_bmod _).trans ?_
  rw [wrap, ← Int.mul_bmod_bmod, ← Int.bmod_mul_bmod, hs.toInt_wrap, hs.toInt_wrap,
    Int.mul_bmod_bmod, Int.bmod_mul_bmod, wrap]

/-- Comparisons look at the remainder by the range. -/
theorem lowBits_wrap (hs : s.IsSigned) (n : Int) :
    s.lowBits (s.wrap n) = (n % (2 ^ s.bits : Nat)).toNat := by
  rw [lowBits, wrap, toNat_ofInt]
  refine (mod_toNat_emod (m := 2 ^ 64) (by decide) hs.dvd _).trans ?_
  rw [Int.bmod_emod]

end IsSigned

/-- An integer inside the range is taken as it is. -/
theorem wrap_eq_ofInt {n : Int} (hlo : -(2 ^ s.bits : Nat) ≤ n * 2)
    (hhi : n * 2 < (2 ^ s.bits : Nat)) : s.wrap n = Int64.ofInt n := by
  rw [wrap, Int.bmod_eq_of_le_mul_two hlo hhi]

end Scalar

end LoopNest
