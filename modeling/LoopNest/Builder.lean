import LoopNest.Func.Edit
import LoopNest.Typing

/-!
# Checked construction

A builder works on a function and the type table of its program.  Every step
names the block it appends to.  A step that adds an instruction checks, in this
order, that the block exists, that it has no terminator yet, and that the operands
fit; then it interns the result type and appends the instruction.

A failing step leaves no instruction behind.  Types and constants that were made
before the failure stay, so a step yields the site in either case.
-/

namespace LoopNest

/-- A function under construction, with the type table that it draws on. -/
structure Site where
  /-- The type table. -/
  types : TypeTable
  /-- The function. -/
  func : Func
deriving Inhabited

/-- A step of construction on a site. -/
abbrev Build (α : Type) := ExceptT BuildError (StateM Site) α

namespace Build

/-! ## Types, blocks and constants -/

/-- Interns a type. -/
def internTy (t : Ty) : Build TyId := fun s =>
  let (h, types) := s.types.insert t
  (.ok h, { s with types })

/-- Interns the unnamed type of a shape. -/
def intern (sh : Shape) : Build TyId := internTy sh.unnamed

/-- Looks at the site. -/
def site : Build Site := fun s => (.ok s, s)

/-- Stops with an error. -/
def fail {α : Type} (e : BuildError) : Build α := fun s => (.error e, s)

/-- Takes over the outcome of a check. -/
def check {α : Type} (r : Except BuildError α) : Build α := fun s => (r, s)

/-- Runs an edit of the function that yields something. -/
def edit {α : Type} (g : Func → α × Func) : Build α := fun s =>
  let (a, func) := g s.func
  (.ok a, { s with func })

/-- The type of an operand. -/
def operandTy (v : Operand) : Build TyId := do check ((← site).func.operandTy v)

/-- A parameter of the function. -/
def param (index : Nat) : Build Operand := do
  let _ ← operandTy (.param index)
  return .param index

/-- A new block at the end of the layout. -/
def block (name : String) : Build BlockId := edit (·.addBlock name)

/-- A new constant. -/
def constant (s : Scalar) (l : Literal) : Build Operand := do
  let t ← intern (.scalar s)
  edit (·.addConstant t l)

/-- A new integer constant. -/
def int (s : Scalar) (v : Int64) : Build Operand := constant s (.int v)

/-- A new 32-bit constant. -/
def i32 (v : Int64) : Build Operand := int .i32 v

/-- A new 64-bit constant. -/
def i64 (v : Int64) : Build Operand := int .i64 v

/-- A new single-precision constant. -/
def f32 (x : F32) : Build Operand := constant .f32 (.f32 x)

/-! ## Instructions -/

/-- Appends an instruction after checking it. -/
def emit (here : BlockId) (op : Op) (declared : Option TyId) (name : Option String) :
    Build InstId := do
  let s ← site
  match s.func.blocks[here]? with
  | none => fail (.badHandle here s.func.blocks.size)
  | some k =>
    if (s.func.terminator? here).isSome then fail (.blockTerminated k.name)
    else
      let result ← check (Typing.resultTy s.types s.func op declared)
      let ty ← internTy result
      edit (·.appendInst here ⟨op, ty, name⟩)

/-- Appends an instruction for its result. -/
def value (here : BlockId) (op : Op) (name : String) : Build Operand := do
  return .inst (← emit here op none (some name))

/-- Appends an instruction with a declared result type, for its result. -/
def valueOf (here : BlockId) (op : Op) (ty : TyId) (name : String) : Build Operand := do
  return .inst (← emit here op (some ty) (some name))

/-- Appends an instruction for its effect. -/
def effect (here : BlockId) (op : Op) : Build Unit := do
  let _ ← emit here op none none

/-- Reserves a stack slot. -/
def alloca (here : BlockId) (allocated : TyId) (align : Nat) (name : String) : Build Operand :=
  value here (.alloca allocated align) name

/-- Reads through a pointer. -/
def load (here : BlockId) (ptr : Operand) (name : String) : Build Operand :=
  value here (.load ptr) name

/-- Reads several consecutive elements as one vector. -/
def loadVector (here : BlockId) (ptr : Operand) (lanes : Nat) (name : String) :
    Build Operand := do
  let t ← operandTy ptr
  let tt := (← site).types
  match (tt.pointee? t).bind tt.elementScalar? with
  | none => fail (.typeMismatch "pointer to scalar" (tt.text t))
  | some s =>
    let vector ← intern (.vector lanes s)
    valueOf here (.load ptr) vector name

/-- Writes through a pointer. -/
def store (here : BlockId) (v ptr : Operand) : Build Unit := effect here (.store v ptr)

/-- The address of an element. -/
def gep (here : BlockId) (base index : Operand) (name : String) : Build Operand :=
  value here (.gep base index) name

/-- Applies an operator. -/
def binary (here : BlockId) (op : BinaryOp) (l r : Operand) (name : String) : Build Operand :=
  value here (.binary op l r) name

/-- The sum of two integers. -/
def add (here : BlockId) (l r : Operand) (name : String) : Build Operand :=
  binary here .add l r name

/-- The product of two integers. -/
def mul (here : BlockId) (l r : Operand) (name : String) : Build Operand :=
  binary here .mul l r name

/-- Compares integers. -/
def icmp (here : BlockId) (pred : IntPredicate) (l r : Operand) (name : String) :
    Build Operand :=
  value here (.icmp pred l r) name

/-- Compares floating-point numbers. -/
def fcmp (here : BlockId) (pred : FloatPredicate) (l r : Operand) (name : String) :
    Build Operand :=
  value here (.fcmp pred l r) name

/-- Chooses between two values. -/
def select (here : BlockId) (c t e : Operand) (name : String) : Build Operand :=
  value here (.select c t e) name

/-- Adds a phi after the phis of a block, which may already have a terminator. -/
def phi (here : BlockId) (ty : TyId) (incoming : List (Operand × BlockId)) (name : String) :
    Build Operand := do
  let s ← site
  let result ← check (Typing.resultTy s.types s.func (.phi incoming) (some ty))
  let t ← internTy result
  return .inst (← edit (·.insertPhi here incoming t (some name)))

/-- Adds an entry to a phi. -/
def addIncoming (phi v : Operand) (pred : BlockId) : Build Unit := do
  match phi with
  | .inst i =>
    let s ← site
    let expected := (s.func.inst i).ty
    let found ← operandTy v
    if expected ≠ found then
      fail (.typeMismatch (s.types.text expected) (s.types.text found))
    else if (s.func.op i).isPhi then
      edit fun f => ((), f.addIncoming i v pred)
    else
      fail (.typeMismatch "phi" (s.func.op i).mnemonic)
  | _ => fail .erasedValue

/-- Takes a pointer for a pointer to another type. -/
def bitcast (here : BlockId) (v : Operand) (ty : TyId) (name : String) : Build Operand :=
  valueOf here (.bitcast v) ty name

/-- Fills all lanes of a vector with one scalar. -/
def splat (here : BlockId) (v : Operand) (lanes : Nat) (name : String) : Build Operand := do
  let t ← operandTy v
  let tt := (← site).types
  match tt.elementScalar? t with
  | none => fail (.typeMismatch "scalar" (tt.text t))
  | some s =>
    let vector ← intern (.vector lanes s)
    valueOf here (.splat v) vector name

/-- Calls a function by name. -/
def call (here : BlockId) (callee : String) (args : List Operand) (ret : TyId)
    (name : Option String) : Build Operand := do
  return .inst (← emit here (.call callee args) (some ret) name)

/-- Continues with a block. -/
def br (here target : BlockId) : Build Unit := effect here (.br target)

/-- Continues with one of two blocks. -/
def condBr (here : BlockId) (c : Operand) (thenTo elseTo : BlockId) : Build Unit :=
  effect here (.condBr c thenTo elseTo)

/-- Returns from the function. -/
def ret (here : BlockId) (v : Option Operand) : Build Unit := effect here (.ret v)

end Build

end LoopNest
