import LoopNest.Func.Basic
import LoopNest.Ty.Text

/-!
# Operand typing

`resultTy` checks the operands of an operation and gives the type of its result.
The builder uses it before it adds an instruction, and the verifier to check one
that is there.

Types are compared by handle.  A value fits a pointer when it has the pointee
type, or is a vector of the pointee scalar.  A phi, a bitcast, a splat and a call
do not determine their result type, so one has to be declared; for a load a
declared type may ask for a vector.

Operands are looked at in a fixed order, which decides the error when several
are wrong: the pointer of a store before its value, the two values of a select
before its condition.
-/

namespace LoopNest

namespace Typing

variable (tt : TypeTable) (f : Func)

/-- An error that names the type that was found. -/
def mismatch {α : Type} (expected : String) (found : TyId) : Except BuildError α :=
  .error (.typeMismatch expected (tt.text found))

/-- Demands that a type is the expected one. -/
def same (expected found : TyId) : Except BuildError Unit :=
  if expected = found then .ok () else mismatch tt (tt.text expected) found

/-- What a pointer type points to. -/
def pointee (t : TyId) : Except BuildError TyId :=
  match tt.pointee? t with
  | some p => .ok p
  | none => mismatch tt "pointer" t

/-- The scalar of a scalar or vector type, with the number of lanes of a vector. -/
def scalarOrVector (t : TyId) : Except BuildError (Scalar × Option Nat) :=
  match tt.shape t with
  | .scalar s => .ok (s, none)
  | .vector lanes s => .ok (s, some lanes)
  | _ => mismatch tt "scalar or vector" t

/-- Whether a value of a type may be moved through a pointer. -/
def fitsPointee (value pointee : TyId) : Bool :=
  value == pointee ||
    match tt.shape value, tt.shape pointee with
    | .vector _ s, .scalar e => s == e
    | _, _ => false

/-- Truth values, as many as there are lanes. -/
def boolLike : Option Nat → Ty
  | some lanes => (Shape.vector lanes .bool).unnamed
  | none => (Shape.scalar .bool).unnamed

/-- The type without values. -/
def void : Ty := Shape.void.unnamed

/-- Demands a declared result type. -/
def declaredTy (what : String) : Option TyId → Except BuildError TyId
  | some t => .ok t
  | none => .error (.typeMismatch ("explicit " ++ what ++ " result type") "none")

/-- Demands two operands of one scalar or vector type, and gives that type. -/
def operandPair (l r : Operand) : Except BuildError (TyId × Scalar × Option Nat) := do
  let lt ← f.operandTy l
  same tt lt (← f.operandTy r)
  let (s, lanes) ← scalarOrVector tt lt
  return (lt, s, lanes)

/-- Demands that every operand has a type. -/
def allTyped : List Operand → Except BuildError Unit
  | [] => .ok ()
  | v :: vs => do
    let _ ← f.operandTy v
    allTyped vs

/-- Demands that every operand has the given type. -/
def allOf (t : TyId) : List Operand → Except BuildError Unit
  | [] => .ok ()
  | v :: vs => do
    same tt t (← f.operandTy v)
    allOf t vs

/-- The type of the result of an operation, if its operands fit. -/
def resultTy (op : Op) (declared : Option TyId) : Except BuildError Ty :=
  match op with
  | .alloca t _ => return (Shape.pointer t).unnamed
  | .load p => do
    let target ← pointee tt (← f.operandTy p)
    let result := declared.getD target
    if fitsPointee tt result target then return tt.ty result
    else mismatch tt (tt.text target) result
  | .store v p => do
    let target ← pointee tt (← f.operandTy p)
    let value ← f.operandTy v
    if fitsPointee tt value target then return void
    else mismatch tt (tt.text target) value
  | .gep b i => do
    let base ← f.operandTy b
    let _ ← pointee tt base
    let index ← f.operandTy i
    match tt.shape index with
    | .scalar s => if s.isInteger then return tt.ty base else mismatch tt "integer index" index
    | _ => mismatch tt "integer index" index
  | .binary o l r => do
    let (t, s, _) ← operandPair tt f l r
    if o.isFloat then
      if s.isFloat then return tt.ty t else mismatch tt "float" t
    else
      if s.isInteger || s.kind == .bool then return tt.ty t else mismatch tt "integer" t
  | .icmp _ l r => do
    let (t, s, lanes) ← operandPair tt f l r
    if s.isInteger then return boolLike lanes else mismatch tt "integer" t
  | .fcmp _ l r => do
    let (t, s, lanes) ← operandPair tt f l r
    if s.isFloat then return boolLike lanes else mismatch tt "float" t
  | .select c t e => do
    let value ← f.operandTy t
    same tt value (← f.operandTy e)
    let cond ← f.operandTy c
    let (s, lanes) ← scalarOrVector tt cond
    if s == .bool && (lanes.isNone || lanes == tt.lanes? value) then return tt.ty value
    else mismatch tt "bool condition" cond
  | .phi incoming => do
    let t ← declaredTy "phi" declared
    allOf tt f t (incoming.map Prod.fst)
    return tt.ty t
  | .bitcast v => do
    let target ← declaredTy "bitcast" declared
    let _ ← pointee tt (← f.operandTy v)
    let _ ← pointee tt target
    return tt.ty target
  | .splat v => do
    let target ← declaredTy "splat" declared
    let value ← f.operandTy v
    match tt.shape value, tt.shape target with
    | .scalar s, .vector _ e =>
      if s = e then return tt.ty target else mismatch tt "vector of the splatted scalar" target
    | _, _ => mismatch tt "vector of the splatted scalar" target
  | .call _ args => do
    let target ← declaredTy "call" declared
    allTyped f args
    return tt.ty target
  | .br _ => return void
  | .condBr c _ _ => do
    let cond ← f.operandTy c
    if tt.shape cond = .scalar .bool then return void else mismatch tt "bool" cond
  | .ret none => if tt.isVoid f.ret then return void else mismatch tt "void" f.ret
  | .ret (some v) => do
    same tt f.ret (← f.operandTy v)
    return void

end Typing

end LoopNest
