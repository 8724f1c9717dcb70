import LoopNest.F32.Basic

/-!
# Decimal forms of single-precision numbers

A finite number is `m * 2 ^ q`.  The reals that round to it form an interval
around it, whose ends belong to it when `m` is even.  Among the decimals in
that interval, `shortest` picks one with the fewest digits, and of those the
nearest to the number; of two equally near it takes the larger.

The search is over grids.  For one, two, ... digits the two neighbours of the
number on the grid of that many digits are tried.  Nine digits always suffice.
All arithmetic is on natural numbers, with a common denominator.

`nearest` goes the other way: it rounds a positive fraction to the nearest
number, ties to the even one, and overflows to infinity.
-/

namespace LoopNest

namespace F32

/-! ## Exact value -/

/-- The integer `m` of the value `m * 2 ^ q`. -/
def significand (x : F32) : Nat :=
  if x.exponentField = 0 then x.fractionField else x.fractionField + 2 ^ 23

/-- The power `q` of the value `m * 2 ^ q`. -/
def binaryExponent (x : F32) : Int := (max x.exponentField 1 : Nat) - 150

/-- The least `e` with `n < 2 ^ e`. -/
def bitLength (n : Nat) : Nat := if n = 0 then 0 else Nat.log2 n + 1

/-- A decimal `digits * 10 ^ exponent`. -/
structure Decimal where
  /-- All digits, read as one number. -/
  digits : Nat
  /-- The power of ten that multiplies them. -/
  exponent : Int
deriving DecidableEq

namespace Decimal

/-- Takes a zero off the end of the digits while there is one, at most `fuel` times. -/
def trim : Nat → Decimal → Decimal
  | 0, d => d
  | fuel + 1, d =>
    if d.digits ≠ 0 ∧ d.digits % 10 = 0 then trim fuel ⟨d.digits / 10, d.exponent + 1⟩ else d

/-- The number of digits. -/
def length (d : Decimal) : Nat := (Nat.repr d.digits).length

end Decimal

/-! ## Shortest decimal -/

/-- A positive number with the two ends of its rounding interval, all over one denominator. -/
structure Rounding where
  /-- Numerator of the number. -/
  value : Nat
  /-- Numerator of the lower end. -/
  low : Nat
  /-- Numerator of the upper end. -/
  high : Nat
  /-- The denominator. -/
  den : Nat
  /-- Whether the ends round to the number too. -/
  closed : Bool

/-- The interval of a finite non-zero number, sign dropped.  Below a power of two the numbers
are twice as dense, so the lower end is half as far away. -/
def rounding (x : F32) : Rounding :=
  let m := x.significand
  let q := x.binaryExponent - 2
  let scale := if q < 0 then 1 else 2 ^ q.toNat
  let den := if q < 0 then 2 ^ (-q).toNat else 1
  let below := if x.fractionField = 0 ∧ 1 < x.exponentField then 1 else 2
  { value := 4 * m * scale
    low := (4 * m - below) * scale
    high := (4 * m + 2) * scale
    den := den
    closed := m % 2 = 0 }

/-- Whether `n * 10 ^ e` lies in the interval. -/
def Rounding.contains (r : Rounding) (n : Nat) (e : Int) : Bool :=
  let lhs := if e < 0 then n * r.den else n * 10 ^ e.toNat * r.den
  let unit := if e < 0 then 10 ^ (-e).toNat else 1
  if r.closed then r.low * unit ≤ lhs && lhs ≤ r.high * unit
  else r.low * unit < lhs && lhs < r.high * unit

/-- The largest multiple of `10 ^ e` that is not above the number, in units of `10 ^ e`. -/
def Rounding.floor (r : Rounding) (e : Int) : Nat :=
  if e < 0 then r.value * 10 ^ (-e).toNat / r.den else r.value / (r.den * 10 ^ e.toNat)

/-- Whether the number is at least halfway from `n * 10 ^ e` to `(n + 1) * 10 ^ e`. -/
def Rounding.upperHalf (r : Rounding) (n : Nat) (e : Int) : Bool :=
  if e < 0 then (2 * n + 1) * r.den ≤ 2 * r.value * 10 ^ (-e).toNat
  else (2 * n + 1) * r.den * 10 ^ e.toNat ≤ 2 * r.value

/-- The neighbour of the number on the grid `10 ^ e` that rounds to it, the nearer of two. -/
def Rounding.onGrid (r : Rounding) (e : Int) : Option Decimal :=
  let n := r.floor e
  let down := 0 < n && r.contains n e
  let up := r.contains (n + 1) e
  if up && (!down || r.upperHalf n e) then some ⟨n + 1, e⟩
  else if down then some ⟨n, e⟩
  else none

/-- Tries the grids from `10 ^ e` downwards, `fuel` of them. -/
def Rounding.search (r : Rounding) : Nat → Int → Decimal
  | 0, e => ⟨r.floor e, e⟩
  | fuel + 1, e => (r.onGrid e).getD (r.search fuel (e - 1))

/-- A power of ten that is above all reals that round to a finite number.  The number is below
`2 ^ k` for the `k` of its bit length, and `0.30103` is a little more than the decimal
logarithm of two. -/
def startExponent (x : F32) : Int :=
  ((bitLength x.significand : Int) + x.binaryExponent + 1) * 30103 / 100000 + 1

/-- The shortest decimal that rounds to a finite number, sign dropped. -/
def shortest (x : F32) : Decimal :=
  if x.isZero then ⟨0, 0⟩ else (x.rounding.search 20 x.startExponent).trim 50

/-! ## Rounding a fraction -/

/-- The integer nearest to `num / den`, a half going to the even neighbour. -/
def roundHalfEven (num den : Nat) : Nat :=
  let q := num / den
  let r := num % den
  if den < 2 * r ∨ (2 * r = den ∧ q % 2 = 1) then q + 1 else q

/-- The number nearest to `num / den`, ties to even.  A fraction beyond the largest number
by half a unit or more gives infinity. -/
def nearest (num den : Nat) : F32 :=
  if num = 0 ∨ den = 0 then zero
  else
    -- the exponent of the last place: 24 bits of quotient, but never below 2 ^ -149
    let guess : Int := (bitLength num : Int) - bitLength den - 24
    let place : Int := max guess (-149)
    let scaled (p : Int) : Nat :=
      if p < 0 then roundHalfEven (num * 2 ^ (-p).toNat) den
      else roundHalfEven num (den * 2 ^ p.toNat)
    let coarse := scaled place
    -- the quotient has 24 or 25 bits at the guessed place
    let place := if coarse < 2 ^ 24 then place else place + 1
    let m := scaled place
    let biased : Int := place + 149
    let bits : Nat :=
      if m < 2 ^ 23 then m
      else m + biased.toNat * 2 ^ 23
    if 0x7f800000 ≤ bits then ⟨0x7f800000⟩ else ⟨UInt32.ofNat bits⟩

/-- The number with the sign bit set. -/
def neg (x : F32) : F32 := ⟨x.bits ^^^ 0x80000000⟩

end F32

end LoopNest
