/-!
# Single-precision numbers

An `F32` is the 32 bits of an IEEE 754 binary32 number.  Moving a number
between memory, registers and constants moves its bits, so a NaN keeps its
payload.  Only the four arithmetic operators and the comparisons look inside.

Arithmetic rounds to nearest, ties to even.  The result of an operation on a
NaN is that NaN with its quiet bit set, the first operand winning over the
second.  An operation on two numbers that has no result (`0 / 0`, `∞ - ∞`)
gives `defaultNaN`.  Comparisons with a NaN are false, except `une`.
-/

namespace LoopNest

-- Powers and sums of numbers are core's in every module, also where Mathlib has instances of its own.
attribute [default_instance 20000] instPowNat
attribute [instance(high)] instPowNat Zero.ofOfNat0

/-- A binary32 number, given by its bits. -/
structure F32 where
  /-- Sign (1 bit), biased exponent (8 bits), fraction (23 bits). -/
  bits : UInt32
deriving DecidableEq, Inhabited

namespace F32

/-! ## Fields -/

/-- The sign bit. -/
def negative (x : F32) : Bool := 2 ^ 31 ≤ x.bits.toNat

/-- The biased exponent, from 0 to 255. -/
def exponentField (x : F32) : Nat := x.bits.toNat / 2 ^ 23 % 256

/-- The 23 fraction bits. -/
def fractionField (x : F32) : Nat := x.bits.toNat % 2 ^ 23

/-- Not a number: largest exponent, non-zero fraction. -/
def isNaN (x : F32) : Bool := x.exponentField == 255 && x.fractionField != 0

/-- One of the two infinities. -/
def isInfinite (x : F32) : Bool := x.exponentField == 255 && x.fractionField == 0

/-- One of the two zeros. -/
def isZero (x : F32) : Bool := x.exponentField == 0 && x.fractionField == 0

/-! ## Particular numbers -/

/-- The number `0.0`. -/
def zero : F32 := ⟨0⟩

/-- Negative infinity. -/
def negInfinity : F32 := ⟨0xff800000⟩

/-- The NaN that is reported where payloads are not shown. -/
def canonicalNaN : F32 := ⟨0x7fc00000⟩

/-- The NaN that an operation on two numbers without a result gives. -/
def defaultNaN : F32 := ⟨0xffc00000⟩

/-- Any NaN becomes `canonicalNaN`, every other number stays. -/
def hidePayload (x : F32) : F32 := if x.isNaN then canonicalNaN else x

/-! ## Arithmetic -/

/-- The NaN with its quiet bit set. -/
def quiet (x : F32) : F32 := ⟨x.bits ||| 0x00400000⟩

/-- Carries an operation on machine floats over to bits, with the rules for NaNs. -/
def lift (op : Float32 → Float32 → Float32) (x y : F32) : F32 :=
  if x.isNaN then x.quiet
  else if y.isNaN then y.quiet
  else
    let r : F32 := ⟨(op (Float32.ofBits x.bits) (Float32.ofBits y.bits)).toBits⟩
    if r.isNaN then defaultNaN else r

/-- The rounded sum. -/
def add (x y : F32) : F32 := lift (· + ·) x y

/-- The rounded difference. -/
def sub (x y : F32) : F32 := lift (· - ·) x y

/-- The rounded product. -/
def mul (x y : F32) : F32 := lift (· * ·) x y

/-- The rounded quotient. -/
def div (x y : F32) : F32 := lift (· / ·) x y

/-! ## Order

The order of two numbers that are not NaN is that of their keys: the magnitude
bits, negated for negative numbers.  Both zeros have the key 0. -/

/-- The position of a number on the number line. -/
def orderKey (x : F32) : Int :=
  let magnitude : Int := x.bits.toNat % 2 ^ 31
  if x.negative then -magnitude else magnitude

/-- Neither is a NaN, and the numbers are equal. -/
def eq (x y : F32) : Bool := !x.isNaN && !y.isNaN && x.orderKey == y.orderKey

/-- Neither is a NaN, and the first number is below the second. -/
def lt (x y : F32) : Bool := !x.isNaN && !y.isNaN && x.orderKey < y.orderKey

/-- Neither is a NaN, and the first number is not above the second. -/
def le (x y : F32) : Bool := !x.isNaN && !y.isNaN && x.orderKey ≤ y.orderKey

/-- A comparison with a NaN on the left is false. -/
theorem lt_of_isNaN_left {x : F32} (y : F32) (h : x.isNaN = true) : x.lt y = false := by
  simp [lt, h]

/-- Strictly below implies not above. -/
theorem le_of_lt {x y : F32} (h : x.lt y = true) : x.le y = true := by
  simp only [lt, le, Bool.and_eq_true, decide_eq_true_eq] at h ⊢
  exact ⟨h.1, Int.le_of_lt h.2⟩

end F32

end LoopNest
