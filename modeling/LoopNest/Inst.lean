import LoopNest.F32.Text
import LoopNest.Ty.Basic

/-!
# Instructions

A function is a graph of blocks, each a list of instructions.  An instruction
performs an operation (`Op`) on operands and gives at most one result, which
other instructions use as an operand.  Every operand is the result of an
instruction, a parameter of the function, or one of its constants.

Blocks, instructions and constants are numbered within their function.  The
numbers are plain handles: they may outlive what they number, since an erased
instruction or block keeps its place.
-/

namespace LoopNest

/-- The number of a block in its function. -/
abbrev BlockId := Nat

/-- The number of an instruction in its function. -/
abbrev InstId := Nat

/-- The number of a constant in its function. -/
abbrev ConstId := Nat

/-! ## Constants and operands -/

/-- The value of a constant. -/
inductive Literal where
  /-- A truth value. -/
  | bool (b : Bool)
  /-- An integer. -/
  | int (v : Int64)
  /-- A single-precision number. -/
  | f32 (x : F32)
deriving DecidableEq, Inhabited

/-- The literal as a listing shows it: numbers in literal style, `nan`, `inf` and `-inf`. -/
def Literal.toText : Literal → String
  | .bool b => if b then "true" else "false"
  | .int v => toString v.toInt
  | .f32 x => if x.isNaN then "nan" else x.toText .literal

/-- A constant of a function. -/
structure Constant where
  /-- Its type. -/
  ty : TyId
  /-- Its value. -/
  literal : Literal
deriving DecidableEq, Inhabited

/-- What an instruction can use. -/
inductive Operand where
  /-- The result of an instruction. -/
  | inst (id : InstId)
  /-- A parameter, by position. -/
  | param (index : Nat)
  /-- A constant. -/
  | const (id : ConstId)
deriving DecidableEq, Inhabited

/-- The instruction whose result the operand is. -/
def Operand.inst? : Operand → Option InstId
  | .inst i => some i
  | _ => none

/-! ## Operators -/

/-- An operator with two operands of one type. -/
inductive BinaryOp where
  | add | sub | mul | udiv | urem | and | or | fadd | fsub | fmul | fdiv
deriving DecidableEq, Inhabited

namespace BinaryOp

/-- The operators on floating-point numbers. -/
def isFloat : BinaryOp → Bool
  | .fadd | .fsub | .fmul | .fdiv => true
  | _ => false

/-- The operator in a listing. -/
def mnemonic : BinaryOp → String
  | .add => "add"
  | .sub => "sub"
  | .mul => "mul"
  | .udiv => "udiv"
  | .urem => "urem"
  | .and => "and"
  | .or => "or"
  | .fadd => "fadd"
  | .fsub => "fsub"
  | .fmul => "fmul"
  | .fdiv => "fdiv"

/-- All operators. -/
def all : List BinaryOp := [.add, .sub, .mul, .udiv, .urem, .and, .or, .fadd, .fsub, .fmul, .fdiv]

/-- The operator with a given mnemonic. -/
def ofMnemonic? (s : String) : Option BinaryOp := all.find? (·.mnemonic == s)

end BinaryOp

/-- A comparison of integers.  `u` compares them as unsigned, `s` as signed numbers. -/
inductive IntPredicate where
  | eq | ne | ult | ule | ugt | uge | slt | sge
deriving DecidableEq, Inhabited

namespace IntPredicate

/-- The predicate in a listing. -/
def mnemonic : IntPredicate → String
  | .eq => "eq"
  | .ne => "ne"
  | .ult => "ult"
  | .ule => "ule"
  | .ugt => "ugt"
  | .uge => "uge"
  | .slt => "slt"
  | .sge => "sge"

/-- All predicates. -/
def all : List IntPredicate := [.eq, .ne, .ult, .ule, .ugt, .uge, .slt, .sge]

/-- The predicate with a given mnemonic. -/
def ofMnemonic? (s : String) : Option IntPredicate := all.find? (·.mnemonic == s)

end IntPredicate

/-- A comparison of floating-point numbers.  The `o` predicates are false when an operand is
a NaN, and `une` is true. -/
inductive FloatPredicate where
  | oeq | ogt | oge | olt | ole | une
deriving DecidableEq, Inhabited

namespace FloatPredicate

/-- The predicate in a listing. -/
def mnemonic : FloatPredicate → String
  | .oeq => "oeq"
  | .ogt => "ogt"
  | .oge => "oge"
  | .olt => "olt"
  | .ole => "ole"
  | .une => "une"

/-- All predicates. -/
def all : List FloatPredicate := [.oeq, .ogt, .oge, .olt, .ole, .une]

/-- The predicate with a given mnemonic. -/
def ofMnemonic? (s : String) : Option FloatPredicate := all.find? (·.mnemonic == s)

end FloatPredicate

/-! ## Operations -/

/-- What an instruction does. -/
inductive Op where
  /-- Reserves a stack slot and points to it. -/
  | alloca (allocated : TyId) (align : Nat)
  /-- Reads through a pointer; with a vector result, consecutive elements. -/
  | load (ptr : Operand)
  /-- Writes through a pointer; with a vector value, consecutive elements. -/
  | store (value ptr : Operand)
  /-- Moves a pointer on by `index` elements. -/
  | gep (base index : Operand)
  /-- Applies an operator. -/
  | binary (op : BinaryOp) (lhs rhs : Operand)
  /-- Compares integers. -/
  | icmp (pred : IntPredicate) (lhs rhs : Operand)
  /-- Compares floating-point numbers. -/
  | fcmp (pred : FloatPredicate) (lhs rhs : Operand)
  /-- Chooses between two values, lane by lane when the condition is a vector. -/
  | select (cond onTrue onFalse : Operand)
  /-- Takes the value that belongs to the block control came from. -/
  | phi (incoming : List (Operand × BlockId))
  /-- Takes a pointer for a pointer to another type. -/
  | bitcast (value : Operand)
  /-- Fills all lanes of a vector with one scalar. -/
  | splat (value : Operand)
  /-- Calls a function by name. -/
  | call (callee : String) (args : List Operand)
  /-- Continues with a block. -/
  | br (target : BlockId)
  /-- Continues with one of two blocks. -/
  | condBr (cond : Operand) (thenTo elseTo : BlockId)
  /-- Returns from the function. -/
  | ret (value : Option Operand)
deriving DecidableEq, Inhabited

namespace Op

/-- The operands, in order. -/
def operands : Op → List Operand
  | .alloca _ _ => []
  | .load p => [p]
  | .store v p => [v, p]
  | .gep b i => [b, i]
  | .binary _ l r => [l, r]
  | .icmp _ l r => [l, r]
  | .fcmp _ l r => [l, r]
  | .select c t f => [c, t, f]
  | .phi incoming => incoming.map Prod.fst
  | .bitcast v => [v]
  | .splat v => [v]
  | .call _ args => args
  | .br _ => []
  | .condBr c _ _ => [c]
  | .ret v => v.toList

/-- The operation with a function applied to each operand. -/
def mapOperands (f : Operand → Operand) : Op → Op
  | .alloca t a => .alloca t a
  | .load p => .load (f p)
  | .store v p => .store (f v) (f p)
  | .gep b i => .gep (f b) (f i)
  | .binary o l r => .binary o (f l) (f r)
  | .icmp p l r => .icmp p (f l) (f r)
  | .fcmp p l r => .fcmp p (f l) (f r)
  | .select c t e => .select (f c) (f t) (f e)
  | .phi incoming => .phi (incoming.map fun (v, b) => (f v, b))
  | .bitcast v => .bitcast (f v)
  | .splat v => .splat (f v)
  | .call c args => .call c (args.map f)
  | .br t => .br t
  | .condBr c t e => .condBr (f c) t e
  | .ret v => .ret (v.map f)

/-- The blocks that a branch names, both also when they are the same. -/
def targets : Op → List BlockId
  | .br t => [t]
  | .condBr _ t e => [t, e]
  | _ => []

/-- The operation with every branch to `source` led to `target` instead. -/
def retarget (source target : BlockId) : Op → Op
  | .br t => .br (if t = source then target else t)
  | .condBr c t e =>
    .condBr c (if t = source then target else t) (if e = source then target else e)
  | op => op

/-- Branches and returns end a block. -/
def isTerminator : Op → Bool
  | .br _ | .condBr _ _ _ | .ret _ => true
  | _ => false

/-- Phis start a block. -/
def isPhi : Op → Bool
  | .phi _ => true
  | _ => false

/-- Loads, stores and calls touch memory. -/
def touchesMemory : Op → Bool
  | .load _ | .store _ _ | .call _ _ => true
  | _ => false

/-- Stores and calls may change memory. -/
def writesMemory : Op → Bool
  | .store _ _ | .call _ _ => true
  | _ => false

/-- The operation's word in a listing. -/
def mnemonic : Op → String
  | .alloca _ _ => "alloca"
  | .load _ => "load"
  | .store _ _ => "store"
  | .gep _ _ => "gep"
  | .binary o _ _ => o.mnemonic
  | .icmp _ _ _ => "icmp"
  | .fcmp _ _ _ => "fcmp"
  | .select _ _ _ => "select"
  | .phi _ => "phi"
  | .bitcast _ => "bitcast"
  | .splat _ => "splat"
  | .call _ _ => "call"
  | .br _ => "br"
  | .condBr _ _ _ => "br"
  | .ret _ => "ret"

/-- Mapping over the operands maps the list of operands. -/
theorem operands_mapOperands (f : Operand → Operand) (op : Op) :
    (op.mapOperands f).operands = op.operands.map f := by
  cases op with
  | ret v => cases v <;> simp [mapOperands, operands]
  | _ => simp [mapOperands, operands]

/-- Mapping over the operands keeps the branch targets. -/
theorem targets_mapOperands (f : Operand → Operand) (op : Op) :
    (op.mapOperands f).targets = op.targets := by
  cases op <;> rfl

end Op

/-- An instruction. -/
structure Inst where
  /-- What it does. -/
  op : Op
  /-- The type of its result, `void` when it has none. -/
  ty : TyId
  /-- Its name in listings. -/
  name : Option String
  /-- The block that holds it, none once it is erased. -/
  owner : Option BlockId
deriving DecidableEq, Inhabited

end LoopNest
