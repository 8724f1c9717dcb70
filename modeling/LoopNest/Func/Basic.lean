import LoopNest.BuildError
import LoopNest.Inst

/-!
# Functions

A function has parameters, a result type, and three numbered stores: blocks,
instructions and constants.  Its *layout* lists the live blocks in order; the
first one is the entry.  A function with an empty layout is only declared.

A block lists its instructions by number, and each instruction records the block
that holds it.  Erasing takes an instruction or a block out of these lists and
leaves its store slot behind, so that old numbers keep their meaning.
-/

namespace LoopNest

/-- A straight run of instructions, entered at its start. -/
structure Block where
  /-- Its name in listings. -/
  name : String
  /-- Its instructions, in order. -/
  insts : List InstId
  /-- Set on the header of a loop that vectorization made or has dealt with. -/
  vectorized : Bool
deriving DecidableEq, Inhabited

/-- A block with a name and no instructions. -/
def Block.fresh (name : String) : Block := ⟨name, [], false⟩

/-- A parameter of a function. -/
structure Param where
  /-- Its name in listings. -/
  name : String
  /-- Its type. -/
  ty : TyId
  /-- The caller promises that no other `noalias` parameter reaches the same memory. -/
  noalias : Bool
deriving DecidableEq, Inhabited

/-- A function. -/
structure Func where
  /-- Its name. -/
  name : String
  /-- Its parameters. -/
  params : Array Param
  /-- The type of its result. -/
  ret : TyId
  /-- All blocks, live or erased. -/
  blocks : Array Block
  /-- All instructions, live or erased. -/
  insts : Array Inst
  /-- All constants. -/
  constants : Array Constant
  /-- The live blocks, the entry first. -/
  layout : List BlockId
deriving DecidableEq, Inhabited

namespace Func

/-- A function without blocks. -/
def declare (name : String) (params : Array Param) (ret : TyId) : Func :=
  ⟨name, params, ret, #[], #[], #[], []⟩

/-! ## Stores -/

/-- The block under a number, an empty one for a number without a block. -/
def block (f : Func) (b : BlockId) : Block := f.blocks[b]?.getD (.fresh "")

/-- The instruction under a number, an unowned one for a number without an instruction. -/
def inst (f : Func) (i : InstId) : Inst := f.insts[i]?.getD ⟨.alloca 0 0, 0, none, none⟩

/-- The operation of an instruction. -/
def op (f : Func) (i : InstId) : Op := (f.inst i).op

/-- The block that holds an instruction. -/
def owner (f : Func) (i : InstId) : Option BlockId := (f.inst i).owner

/-- The instructions of a block. -/
def body (f : Func) (b : BlockId) : List InstId := (f.block b).insts

/-! ## Blocks -/

/-- A function without a body. -/
def isDeclaration (f : Func) : Bool := f.layout.isEmpty

/-- The block where execution starts. -/
def entry? (f : Func) : Option BlockId := f.layout.head?

/-- The place of a block in the layout. -/
def position? (f : Func) (b : BlockId) : Option Nat := f.layout.findIdx? (· = b)

/-- Whether a block is in the layout. -/
def isLiveBlock (f : Func) (b : BlockId) : Bool := f.layout.contains b

/-- The first live block with a name. -/
def blockNamed? (f : Func) (name : String) : Option BlockId :=
  f.layout.find? fun b => (f.block b).name == name

/-- The last instruction of a block, if it ends the block. -/
def terminator? (f : Func) (b : BlockId) : Option InstId :=
  match (f.body b).getLast? with
  | some i => if (f.op i).isTerminator then some i else none
  | none => none

/-- The blocks that control may continue with after a block.  A conditional branch to one
block twice counts once. -/
def successors (f : Func) (b : BlockId) : List BlockId :=
  match f.terminator? b with
  | some t =>
    match (f.op t).targets with
    | [x, y] => if x = y then [x] else [x, y]
    | ts => ts
  | none => []

/-- The live blocks that branch to a block, in layout order. -/
def predecessors (f : Func) (b : BlockId) : List BlockId :=
  f.layout.filter fun p => (f.successors p).contains b

/-- The phis at the start of a block. -/
def phis (f : Func) (b : BlockId) : List InstId :=
  (f.body b).takeWhile fun i => (f.op i).isPhi

/-- The instructions of a block after its phis. -/
def afterPhis (f : Func) (b : BlockId) : List InstId :=
  (f.body b).dropWhile fun i => (f.op i).isPhi

/-! ## Instructions -/

/-- Whether an instruction is held by a live block. -/
def isLiveInst (f : Func) (i : InstId) : Bool :=
  match f.owner i with
  | some b => f.isLiveBlock b
  | none => false

/-- The instructions of the live blocks, in layout order. -/
def liveInsts (f : Func) : List InstId := f.layout.flatMap f.body

/-- The number of instructions in live blocks. -/
def instCount (f : Func) : Nat := (f.layout.map fun b => (f.body b).length).sum

/-- The live instructions that have a given operand. -/
def users (f : Func) (v : Operand) : List InstId :=
  f.liveInsts.filter fun i => (f.op i).operands.contains v

/-! ## Operands -/

/-- The type of an operand. -/
def operandTy (f : Func) : Operand → Except BuildError TyId
  | .inst i =>
    match f.insts[i]? with
    | some x => .ok x.ty
    | none => .error (.badHandle i f.insts.size)
  | .param k =>
    match f.params[k]? with
    | some p => .ok p.ty
    | none => .error (.badParam k f.params.size)
  | .const c =>
    match f.constants[c]? with
    | some k => .ok k.ty
    | none => .error (.badHandle c f.constants.size)

/-- The type of an operand, 0 for one that has none. -/
def tyOf (f : Func) (v : Operand) : TyId :=
  match f.operandTy v with
  | .ok t => t
  | .error _ => 0

/-- The block in which an operand is computed.  Parameters and constants have none. -/
def definingBlock? (f : Func) (v : Operand) : Option BlockId :=
  match v with
  | .inst i => f.owner i
  | _ => none

/-- The literal of a constant. -/
def literal? (f : Func) : Operand → Option Literal
  | .const c => f.constants[c]?.map Constant.literal
  | _ => none

/-- The integer of an integer constant. -/
def intLiteral? (f : Func) (v : Operand) : Option Int64 :=
  match f.literal? v with
  | some (.int n) => some n
  | _ => none

/-- What a phi takes when control comes from a block, by its first entry for that block. -/
def incoming? (f : Func) (phi : InstId) (pred : BlockId) : Option Operand :=
  match f.op phi with
  | .phi incoming => (incoming.find? fun e => e.2 = pred).map Prod.fst
  | _ => none

/-! ## Laws -/

/-- The phis and the rest make up the block. -/
theorem phis_append_afterPhis (f : Func) (b : BlockId) : f.phis b ++ f.afterPhis b = f.body b :=
  List.takeWhile_append_dropWhile

/-- Only instructions of the function are held by a block. -/
theorem owner_lt {f : Func} {i : InstId} {b : BlockId} (h : f.owner i = some b) :
    i < f.insts.size := by
  refine Nat.lt_of_not_le fun hle => ?_
  simp [owner, inst, Array.getElem?_eq_none hle] at h

/-- A predecessor is a live block that has the block among its successors. -/
theorem mem_predecessors (f : Func) (p b : BlockId) :
    p ∈ f.predecessors b ↔ p ∈ f.layout ∧ b ∈ f.successors p := by
  simp [predecessors]

end Func

end LoopNest
