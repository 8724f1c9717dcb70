import LoopNest.Kernel.Loop
import LoopNest.Log
import LoopNest.Program

/-!
# Tensor operands and kernels

A kernel is a generated function on tensors.  A tensor operand is a parameter that
points to `f32` elements, or to an array of them; in the second case the number of
elements is known and is checked against what the kernel accesses.

`Kernel.generate` turns the code of a kernel into a function of a program.  Types
that were interned on the way stay in the program also when generation fails.
-/

namespace LoopNest

/-- Why a kernel cannot be generated. -/
inductive KernelError where
  /-- An operand that is no pointer. -/
  | notAPointer (operand found : String)
  /-- An operand that points to something else than `f32` elements. -/
  | elementMismatch (operand found : String)
  /-- Neither a length was given nor an operand with a known one. -/
  | missingLength
  /-- A parameter out of range, in words. -/
  | invalidParameter (what : String)
  /-- A sum or product of the checks that leaves 64 bits. -/
  | overflow
  /-- An instruction that could not be built. -/
  | build (cause : BuildError)
deriving DecidableEq, Inhabited

/-- The error in words. -/
def KernelError.message : KernelError → String
  | .notAPointer operand found => s!"operand `{operand}` must be a pointer, found {found}"
  | .elementMismatch operand found =>
    s!"operand `{operand}` must point to f32 or [N x f32], found {found}"
  | .missingLength => "element count unknown: pass an explicit length or an array-typed input"
  | .invalidParameter what => "invalid parameter: " ++ what
  | .overflow => "arithmetic overflow"
  | .build cause => cause.message

/-- A sum or product in 64-bit unsigned arithmetic. -/
def checkedU64 (value : Nat) : Except KernelError Nat :=
  if value < 2 ^ 64 then .ok value else .error .overflow

/-! ## Operands -/

/-- A parameter that points to `f32` elements. -/
structure TensorOperand where
  /-- Its name. -/
  name : String
  /-- Its type. -/
  ty : TyId
  /-- The number of elements, if the type tells. -/
  length : Option Nat
deriving Inhabited

namespace TensorOperand

/-- Reads a type as that of a tensor operand. -/
def classify (tt : TypeTable) (name : String) (ty : TyId) : Except KernelError TensorOperand :=
  match tt.pointee? ty with
  | none => .error (.notAPointer name (tt.text ty))
  | some target =>
    match tt.shape target with
    | .scalar s =>
      if s = .f32 then .ok ⟨name, ty, none⟩ else .error (.elementMismatch name (tt.text ty))
    | .array element n =>
      if tt.shape element = .scalar .f32 then .ok ⟨name, ty, some n⟩
      else .error (.elementMismatch name (tt.text ty))
    | _ => .error (.elementMismatch name (tt.text ty))

/-- Demands room for a number of elements, if the length is known. -/
def require (o : TensorOperand) (needed : Nat) : Except KernelError Unit :=
  match o.length with
  | some n =>
    if n < needed then
      let name := o.name
      .error (.invalidParameter
        s!"operand `{name}` holds {n} elements but {needed} are accessed")
    else .ok ()
  | none => .ok ()

/-- The parameter of a kernel for the operand. -/
def param (o : TensorOperand) : Param := ⟨o.name, o.ty, true⟩

/-- The pointer to the first element of the operand, the parameter with the given index. -/
def elements (o : TensorOperand) (here : BlockId) (index : Nat) : Build Operand := do
  let p ← Build.param index
  match o.length with
  | none => return p
  | some _ =>
    let f32 ← Build.intern (.scalar .f32)
    let ptr ← Build.intern (.pointer f32)
    Build.bitcast here p ptr (o.name ++ ".elems")

end TensorOperand

/-! ## Dimensions -/

/-- The height and width of a matrix or window. -/
structure Dims where
  /-- The number of rows. -/
  height : Nat
  /-- The number of columns. -/
  width : Nat
deriving DecidableEq, Inhabited

namespace Dims

/-- The number of cells. -/
def area (d : Dims) : Nat := d.height * d.width

/-- The dimensions in brackets, height first. -/
def toText (d : Dims) : String := "[" ++ toString d.height ++ ", " ++ toString d.width ++ "]"

end Dims

/-- The number that the low 32 bits of a dimension stand for. -/
def asI32 (n : Nat) : Int := (n : Int).bmod (2 ^ 32)

/-- The dimensions as 32-bit numbers, with an `x` between them. -/
def Dims.crossText (d : Dims) : String :=
  toString (asI32 d.height) ++ "x" ++ toString (asI32 d.width)

/-- A 32-bit constant for a dimension. -/
def Build.dim (n : Nat) : Build Operand := Build.i32 (Int64.ofInt (asI32 n))

/-- A 32-bit constant for each of two dimensions, height first. -/
def Build.dims (d : Dims) : Build (Operand × Operand) := do
  let height ← Build.dim d.height
  let width ← Build.dim d.width
  return (height, width)

/-- Demands that an index stays within 32-bit integers. -/
def fitsI32 (what : String) (value : Nat) : Except KernelError Unit :=
  if value < 2 ^ 31 then .ok ()
  else .error (.invalidParameter s!"{what} = {value} exceeds i32 range")

/-! ## Generation -/

/-- The outcome of generating a kernel. -/
structure Generated where
  /-- The new function, or why there is none. -/
  result : Except KernelError FuncId
  /-- The program with the function, or with the types interned so far. -/
  program : Program
  /-- What was reported. -/
  log : List LogLine

namespace Kernel

/-- Nothing was generated. -/
def refuse (p : Program) (e : KernelError) : Generated := ⟨.error e, p, []⟩

/-- Adds the function that some code builds, with a report on it. -/
def generate (p : Program) (name : String) (operands : List TensorOperand) (code : Build Unit)
    (report : Func → String) : Generated :=
  let (void, types) := p.types.intern .void
  let params := (operands.map TensorOperand.param).toArray
  match code ⟨types, .declare name params void⟩ with
  | (.error e, s) => ⟨.error (.build e), { p with types := s.types }, []⟩
  | (.ok (), s) =>
    let (id, p) := { p with types := s.types }.addFunc s.func
    ⟨.ok id, p, [⟨.debug, report s.func⟩]⟩

end Kernel

end LoopNest
