import LoopNest.Machine.Datum

/-!
# Operators of the machine

Integers are held in 64 bits and computed with the width of their type.  An
operator works on the 64 bits, and `normalize` then sign- or zero-extends the bits
of the type.  Division, remainder and the unsigned comparisons look at the bits of
the type only (`lowBits`).

On vectors, operators and comparisons work lane by lane.
-/

namespace LoopNest

namespace Scalar

/-- The bits of an integer that belong to the type, as an unsigned number. -/
def lowBits (s : Scalar) (v : Int64) : Nat := v.toUInt64.toNat % 2 ^ s.bits

/-- The integer that the bits of the type stand for.  Truth values are left alone. -/
def normalize (s : Scalar) (v : Int64) : Int64 :=
  match s.kind with
  | .bool => v
  | .sint => Int64.ofInt (v.toInt.bmod (2 ^ s.bits))
  | _ => Int64.ofNat (s.lowBits v)

end Scalar

/-- Applies an operation lane by lane when both data are vectors. -/
def lanewise (f : Datum → Datum → Except Fault Datum) : Datum → Datum → Except Fault Datum
  | .vector xs, .vector ys => do
    return .vector (← (xs.zip ys).mapM fun (x, y) => f x y)
  | a, b => f a b

namespace BinaryOp

/-- An operator on floating-point numbers. -/
def onF32 (op : BinaryOp) (x y : F32) : F32 :=
  match op with
  | .fadd => x.add y
  | .fsub => x.sub y
  | .fmul => x.mul y
  | _ => x.div y

/-- An operator on truth values. -/
def onBool (op : BinaryOp) (x y : Bool) : Except Fault Bool :=
  match op with
  | .and => .ok (x && y)
  | .or => .ok (x || y)
  | _ => .error (.unsupported (.onBooleans op))

/-- An operator on integers of a type. -/
def onInt (op : BinaryOp) (s : Scalar) (x y : Int64) : Except Fault Int64 :=
  match op with
  | .add => .ok (s.normalize (x + y))
  | .sub => .ok (s.normalize (x - y))
  | .mul => .ok (s.normalize (x * y))
  | .and => .ok (s.normalize (x &&& y))
  | .or => .ok (s.normalize (x ||| y))
  | .udiv =>
    if s.lowBits y = 0 then .error .divisionByZero
    else .ok (s.normalize (Int64.ofNat (s.lowBits x / s.lowBits y)))
  | _ =>
    if s.lowBits y = 0 then .error .divisionByZero
    else .ok (s.normalize (Int64.ofNat (s.lowBits x % s.lowBits y)))

/-- An operator on two data that are not vectors. -/
def apply (op : BinaryOp) (s : Scalar) (a b : Datum) : Except Fault Datum :=
  if op.isFloat then do
    let x ← a.asF32
    let y ← b.asF32
    return .f32 (op.onF32 x y)
  else
    match a, b with
    | .bool x, .bool y => return .bool (← op.onBool x y)
    | a, b => do
      let x ← a.asInt
      let y ← b.asInt
      return .int (← op.onInt s x y)

end BinaryOp

/-- Whether a predicate holds of two integers of a type. -/
def IntPredicate.holds (pred : IntPredicate) (s : Scalar) (x y : Int64) : Bool :=
  match pred with
  | .eq => s.lowBits x == s.lowBits y
  | .ne => s.lowBits x != s.lowBits y
  | .ult => s.lowBits x < s.lowBits y
  | .ule => s.lowBits x ≤ s.lowBits y
  | .ugt => s.lowBits y < s.lowBits x
  | .uge => s.lowBits y ≤ s.lowBits x
  | .slt => (s.normalize x).toInt < (s.normalize y).toInt
  | .sge => (s.normalize y).toInt ≤ (s.normalize x).toInt

/-- A comparison of two integers of a type. -/
def IntPredicate.apply (pred : IntPredicate) (s : Scalar) (a b : Datum) : Except Fault Datum := do
  let x ← a.asInt
  let y ← b.asInt
  return .bool (pred.holds s x y)

/-- Whether a predicate holds of two floating-point numbers. -/
def FloatPredicate.holds (pred : FloatPredicate) (x y : F32) : Bool :=
  match pred with
  | .oeq => x.eq y
  | .ogt => y.lt x
  | .oge => y.le x
  | .olt => x.lt y
  | .ole => x.le y
  | .une => !x.eq y

/-- A comparison of two floating-point numbers. -/
def FloatPredicate.apply (pred : FloatPredicate) (a b : Datum) : Except Fault Datum := do
  let x ← a.asF32
  let y ← b.asF32
  return .bool (pred.holds x y)

/-- A choice between two data, lane by lane when all three are vectors. -/
def Datum.choose : Datum → Datum → Datum → Except Fault Datum
  | .vector cs, .vector ts, .vector es => do
    let lanes ← (cs.zip (ts.zip es)).mapM fun (c, t, e) => do
      return if ← c.asBool then t else e
    return .vector lanes
  | c, t, e => do
    return if ← c.asBool then t else e

end LoopNest
