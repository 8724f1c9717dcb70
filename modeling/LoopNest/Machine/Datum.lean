import LoopNest.F32.Text
import LoopNest.Inst

/-!
# Data of the machine

What an instruction computes is a datum: a truth value, an integer, a
single-precision number, a pointer, a vector of data, or nothing.  Integers of
every width are held in 64 bits; the width comes from the type of the instruction.

A `Fault` says why execution stopped without a result.
-/

namespace LoopNest

/-- An address: a memory region and a byte offset into it. -/
structure Pointer where
  /-- The region. -/
  region : Nat
  /-- The offset in bytes, which may lie outside the region. -/
  offset : Int64
deriving DecidableEq, Inhabited

/-- A computed value. -/
inductive Datum where
  /-- A truth value. -/
  | bool (b : Bool)
  /-- An integer. -/
  | int (v : Int64)
  /-- A single-precision number. -/
  | f32 (x : F32)
  /-- A pointer. -/
  | ptr (p : Pointer)
  /-- One datum per lane. -/
  | vector (lanes : List Datum)
  /-- No value. -/
  | void
deriving Inhabited

/-- The pointer in full, for diagnostics. -/
def Pointer.describe (p : Pointer) : String :=
  "Pointer \x7b region: " ++ toString p.region ++ ", offset: " ++ toString p.offset.toInt ++ " \x7d"

mutual

/-- The datum in full, for diagnostics. -/
def Datum.describe : Datum → String
  | .bool b => "Bool(" ++ (if b then "true" else "false") ++ ")"
  | .int v => "Int(" ++ toString v.toInt ++ ")"
  | .f32 x => "F32(" ++ x.toText .literal ++ ")"
  | .ptr p => "Ptr(" ++ p.describe ++ ")"
  | .vector lanes => "Vector([" ++ ", ".intercalate (Datum.describeAll lanes) ++ "])"
  | .void => "Void"

/-- Several data in full. -/
def Datum.describeAll : List Datum → List String
  | [] => []
  | d :: ds => d.describe :: Datum.describeAll ds

end

/-! ## Faults -/

/-- What an instruction cannot do. -/
inductive Limitation where
  /-- An operator that truth values do not have. -/
  | onBooleans (op : BinaryOp)
  /-- A load of a type that is neither scalar nor vector, given as text. -/
  | loadOf (type : String)
  /-- A store of a vector whose lanes are not numbers or truth values. -/
  | vectorLanes
  /-- A store of a datum that has no bytes. -/
  | storeOf (d : Datum)
deriving Inhabited

/-- The operator's name, with its parts capitalised. -/
def BinaryOp.title : BinaryOp → String
  | .add => "Add"
  | .sub => "Sub"
  | .mul => "Mul"
  | .udiv => "UDiv"
  | .urem => "URem"
  | .and => "And"
  | .or => "Or"
  | .fadd => "FAdd"
  | .fsub => "FSub"
  | .fmul => "FMul"
  | .fdiv => "FDiv"

/-- The limitation in words. -/
def Limitation.message : Limitation → String
  | .onBooleans op => op.title ++ " on booleans"
  | .loadOf type => "load of " ++ type
  | .vectorLanes => "vector of non-f32"
  | .storeOf d => "untyped store of " ++ d.describe

/-- How a function contradicts the rules that a verified one keeps. -/
inductive Malformation where
  /-- A datum of the wrong kind. -/
  | expected (kind : String) (found : Datum)
  /-- An integer constant or operand without a scalar type. -/
  | noScalar
  /-- The result of an instruction that was not executed. -/
  | undefinedValue (i : InstId)
  /-- A parameter beyond the last argument. -/
  | paramOutOfRange (k : Nat)
  /-- A constant that does not exist. -/
  | unknownConstant (c : ConstId)
  /-- A phi without an entry for the block that control came from. -/
  | noIncoming (block : String)
  /-- A block that ended without a terminator. -/
  | fellThrough (block : String)
  /-- A pointer step on something else. -/
  | gepOnNonPointer
  /-- A phi that is not at the start of its block. -/
  | misplacedPhi
deriving Inhabited

/-- The malformation in words. -/
def Malformation.message : Malformation → String
  | .expected kind found => "expected " ++ kind ++ ", found " ++ found.describe
  | .noScalar => "expected scalar or vector type"
  | .undefinedValue i => s!"use of undefined value [{i}]"
  | .paramOutOfRange k => s!"parameter {k} out of range"
  | .unknownConstant c => s!"use of unknown constant [{c}]"
  | .noIncoming block => s!"phi in `{block}` has no entry for the incoming edge"
  | .fellThrough block => s!"block `{block}` fell through"
  | .gepOnNonPointer => "gep on non-pointer"
  | .misplacedPhi => "phi after non-phi instruction"

/-- Why execution stopped without a result. -/
inductive Fault where
  /-- An access that does not lie inside its region. -/
  | outOfBounds (region : Nat) (offset : Int64) (size length : Nat)
  /-- A division or remainder by zero. -/
  | divisionByZero
  /-- More instructions than allowed. -/
  | stepLimit (limit : Nat)
  /-- A call of a function that is not defined. -/
  | unknownCallee (name : String)
  /-- A call with the wrong number of arguments. -/
  | argumentCount (name : String) (expected found : Nat)
  /-- An instruction that cannot be carried out. -/
  | unsupported (what : Limitation)
  /-- An instruction that a verified function does not have. -/
  | malformed (what : Malformation)
deriving Inhabited

/-- The fault in words. -/
def Fault.message : Fault → String
  | .outOfBounds region offset size length =>
    let start := offset.toInt
    s!"out-of-bounds access of {size} bytes at offset {start} in region {region} ({length} bytes)"
  | .divisionByZero => "division by zero"
  | .stepLimit limit => s!"step limit of {limit} instructions exceeded"
  | .unknownCallee name => s!"call to unknown function `{name}`"
  | .argumentCount name expected found =>
    s!"function `{name}` expects {expected} arguments, got {found}"
  | .unsupported what => "unsupported operation: " ++ what.message
  | .malformed what => "malformed IR: " ++ what.message

/-! ## Views of a datum -/

namespace Datum

/-- The truth value. -/
def asBool : Datum → Except Fault Bool
  | .bool b => .ok b
  | d => .error (.malformed (.expected "bool" d))

/-- The integer. -/
def asInt : Datum → Except Fault Int64
  | .int v => .ok v
  | d => .error (.malformed (.expected "integer" d))

/-- The single-precision number. -/
def asF32 : Datum → Except Fault F32
  | .f32 x => .ok x
  | d => .error (.malformed (.expected "f32" d))

/-- The pointer. -/
def asPtr : Datum → Except Fault Pointer
  | .ptr p => .ok p
  | d => .error (.malformed (.expected "pointer" d))

end Datum

end LoopNest
