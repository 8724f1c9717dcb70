import LoopNest.Pool

/-!
# Types

A type is a shape with an optional name.  A shape refers to its components by
their handles in the *type table*, the pool in which every type of a program is
interned.  A handle is all that instructions and parameters store, and types
are compared by handle.

Scalars have a kind and a width in bytes.  A vector is a fixed number of
scalars that are operated on lane by lane.
-/

namespace LoopNest

/-! ## Scalars -/

/-- What the bits of a scalar stand for. -/
inductive ScalarKind where
  /-- A truth value. -/
  | bool
  /-- A signed integer. -/
  | sint
  /-- An unsigned integer. -/
  | uint
  /-- A binary floating-point number. -/
  | float
deriving DecidableEq, Inhabited

/-- A scalar type. -/
structure Scalar where
  /-- What its bits stand for. -/
  kind : ScalarKind
  /-- Its size in bytes. -/
  width : Nat
deriving DecidableEq, Inhabited

namespace Scalar

/-- Truth values, one byte each. -/
def bool : Scalar := ⟨.bool, 1⟩

/-- Signed bytes. -/
def i8 : Scalar := ⟨.sint, 1⟩

/-- Signed 32-bit integers. -/
def i32 : Scalar := ⟨.sint, 4⟩

/-- Signed 64-bit integers. -/
def i64 : Scalar := ⟨.sint, 8⟩

/-- Single-precision numbers. -/
def f32 : Scalar := ⟨.float, 4⟩

/-- The number of bits that carry the value, one for a truth value. -/
def bits (s : Scalar) : Nat :=
  match s.kind with
  | .bool => 1
  | _ => s.width * 8

/-- Signed and unsigned integers. -/
def isInteger (s : Scalar) : Bool :=
  match s.kind with
  | .sint | .uint => true
  | _ => false

/-- Floating-point numbers. -/
def isFloat (s : Scalar) : Bool :=
  match s.kind with
  | .float => true
  | _ => false

end Scalar

/-! ## Types and the type table -/

/-- The handle of a type in the type table. -/
abbrev TyId := Nat

/-- The shape of a type. -/
inductive Shape where
  /-- No value. -/
  | void
  /-- One scalar. -/
  | scalar (s : Scalar)
  /-- Several scalars, operated on lane by lane. -/
  | vector (lanes : Nat) (s : Scalar)
  /-- The address of a value of another type. -/
  | pointer (pointee : TyId)
  /-- Several values of one type, one after the other. -/
  | array (element : TyId) (length : Nat)
  /-- Values of several types at naturally aligned offsets. -/
  | struct (members : List TyId)
deriving DecidableEq, Inhabited

/-- A type: a shape, and a name that tells it apart from other types of that shape. -/
structure Ty where
  /-- The name, if the type has one. -/
  name : Option String
  /-- The shape. -/
  shape : Shape
deriving DecidableEq, Inhabited

/-- The unnamed type of a shape. -/
def Shape.unnamed (s : Shape) : Ty := ⟨none, s⟩

/-- The handles that a shape refers to. -/
def Shape.components : Shape → List TyId
  | .pointer t => [t]
  | .array t _ => [t]
  | .struct ms => ms
  | _ => []

/-- The types of a program. -/
abbrev TypeTable := Pool Ty

namespace TypeTable

/-! ## Queries -/

/-- The shape of a type, `void` for a handle that is not in the table. -/
def shape (tt : TypeTable) (t : TyId) : Shape :=
  match tt.get? t with
  | some ty => ty.shape
  | none => .void

/-- The type under a handle, the unnamed `void` for a handle that is not in the table. -/
def ty (tt : TypeTable) (t : TyId) : Ty := (tt.get? t).getD Shape.void.unnamed

/-- What a pointer type points to. -/
def pointee? (tt : TypeTable) (t : TyId) : Option TyId :=
  match tt.shape t with
  | .pointer p => some p
  | _ => none

/-- The scalar of a scalar type, or of the lanes of a vector type. -/
def elementScalar? (tt : TypeTable) (t : TyId) : Option Scalar :=
  match tt.shape t with
  | .scalar s => some s
  | .vector _ s => some s
  | _ => none

/-- The number of lanes of a vector type. -/
def lanes? (tt : TypeTable) (t : TyId) : Option Nat :=
  match tt.shape t with
  | .vector n _ => some n
  | _ => none

/-- Whether a type has no values. -/
def isVoid (tt : TypeTable) (t : TyId) : Bool :=
  match tt.shape t with
  | .void => true
  | _ => false

/-! ## Interning -/

/-- Interns the unnamed type of a shape. -/
def intern (tt : TypeTable) (s : Shape) : TyId × TypeTable := tt.insert s.unnamed

/-- Interns a scalar type. -/
def scalar (tt : TypeTable) (s : Scalar) : TyId × TypeTable := tt.intern (.scalar s)

/-- Interns the type of pointers to a scalar. -/
def scalarPointer (tt : TypeTable) (s : Scalar) : TyId × TypeTable :=
  let (t, tt) := tt.scalar s
  tt.intern (.pointer t)

end TypeTable

end LoopNest
