import LoopNest.Dominance
import LoopNest.Program
import LoopNest.Typing

/-!
# Verification

A declared function is always well formed.  A defined one is checked in two rounds
over the layout.

The first round looks at the structure of each block: it ends in a terminator, has
no terminator before that, its phis come first, its instructions record it as their
owner, and it branches to live blocks only.

Then the entry must have no predecessors.

The second round looks at each instruction: its operands exist and are live, a phi
has one entry for each predecessor, every use is dominated by its definition, and
the recorded type is the one that the operands give.  A phi uses a value at the end
of the predecessor it belongs to.  Uses in unreachable blocks need no definition
before them.

The first fault in this order is the one reported.
-/

namespace LoopNest

/-- What is wrong with a function.  The block is given by name. -/
inductive Defect where
  /-- The block does not end in a terminator. -/
  | missingTerminator (block : String)
  /-- A terminator stands before the end of the block. -/
  | misplacedTerminator (block : String)
  /-- A phi follows another instruction. -/
  | misplacedPhi (block : String)
  /-- An instruction records another owner. -/
  | blockMismatch (block : String)
  /-- A branch leads to a block that is not live. -/
  | unknownTarget (block : String)
  /-- The entry has predecessors. -/
  | entryHasPredecessors (block : String)
  /-- The entries of a phi are not the predecessors. -/
  | phiPredecessorMismatch (block : String)
  /-- An operand does not exist or is not live. -/
  | invalidOperand (block : String)
  /-- A use that is not dominated by its definition. -/
  | useNotDominated (block : String)
  /-- Operands or result have the wrong type. -/
  | type (block : String) (cause : BuildError)
deriving DecidableEq, Inhabited

/-- The defect in words. -/
def Defect.message : Defect → String
  | .missingTerminator b => s!"block `{b}` does not end in a terminator"
  | .misplacedTerminator b => s!"block `{b}` has a terminator before its last instruction"
  | .misplacedPhi b => s!"block `{b}` has a phi after a non-phi instruction"
  | .blockMismatch b => s!"instruction in block `{b}` records a different owning block"
  | .unknownTarget b => s!"block `{b}` branches to a block that is not in the function"
  | .entryHasPredecessors b => s!"entry block `{b}` has predecessors"
  | .phiPredecessorMismatch b => s!"phi in block `{b}` does not match the block's predecessors"
  | .invalidOperand b => s!"instruction in block `{b}` uses an erased or foreign value"
  | .useNotDominated b => s!"instruction in block `{b}` uses a value that does not dominate it"
  | .type b cause =>
    let text := cause.message
    s!"instruction in block `{b}`: {text}"

/-- A defect, and the function that has it. -/
structure VerifyError where
  /-- The name of the function. -/
  function : String
  /-- What is wrong. -/
  defect : Defect
deriving DecidableEq, Inhabited

/-- The error in words. -/
def VerifyError.message (e : VerifyError) : String :=
  "in function `" ++ e.function ++ "`: " ++ e.defect.message

namespace Verify

/-- Runs a check on each item, up to the first that fails. -/
def forAll {α : Type} (check : α → Except Defect Unit) : List α → Except Defect Unit
  | [] => .ok ()
  | a :: as => do
    check a
    forAll check as

/-- Fails with a defect unless a condition holds. -/
def require (ok : Bool) (d : Defect) : Except Defect Unit := if ok then .ok () else .error d

variable (tt : TypeTable) (f : Func)

/-! ## Structure of a block -/

/-- The instructions of a block in order: owner, no early terminator, phis first. -/
def checkSequence (b : BlockId) (name : String) (last : InstId) :
    (seenOther : Bool) → List InstId → Except Defect Unit
  | _, [] => .ok ()
  | seenOther, i :: is => do
    let x := f.inst i
    require (x.owner == some b) (.blockMismatch name)
    require (!(x.op.isTerminator && i != last)) (.misplacedTerminator name)
    require (!(x.op.isPhi && seenOther)) (.misplacedPhi name)
    checkSequence b name last (seenOther || !x.op.isPhi) is

/-- The structure of one block. -/
def checkBlock (b : BlockId) : Except Defect Unit := do
  let k := f.block b
  match f.terminator? b with
  | none => .error (.missingTerminator k.name)
  | some last =>
    checkSequence f b k.name last false k.insts
    require ((f.successors b).all f.isLiveBlock) (.unknownTarget k.name)

/-! ## Instructions -/

/-- Whether an operand is there to be used. -/
def operandExists : Operand → Bool
  | .inst i => i < f.insts.size && f.isLiveInst i
  | .param k => k < f.params.size
  | .const c => c < f.constants.size

/-- Whether phi entries name each predecessor once and no other block. -/
def matchesPredecessors (sources preds : List BlockId) : Bool :=
  sources.Nodup && sources.all preds.contains && preds.all sources.contains

/-- Whether the definition of an incoming value dominates the block it comes from. -/
def incomingDominated (dom : DomTree) (e : Operand × BlockId) : Bool :=
  match f.definingBlock? e.1 with
  | some b => dom.dominates b e.2
  | none => true

/-- Whether the definition of an operand comes before its use on every path. -/
def operandDominated (dom : DomTree) (user : InstId) : Operand → Bool
  | .inst i => dom.instDominates f i user
  | _ => true

/-- Whether every use of an instruction is dominated by its definition. -/
def checkUses (g : FlowGraph) (dom : DomTree) (b : BlockId) (name : String) (i : InstId) :
    Except Defect Unit :=
  match f.op i with
  | .phi incoming => do
    require (matchesPredecessors (incoming.map Prod.snd) (g.predecessors b))
      (.phiPredecessorMismatch name)
    require (incoming.all (incomingDominated f dom)) (.useNotDominated name)
  | op =>
    require (!dom.isReachable b || op.operands.all (operandDominated f dom i))
      (.useNotDominated name)

/-- Whether the recorded type of an instruction is the one its operands give. -/
def checkType (name : String) (i : InstId) : Except Defect Unit :=
  let x := f.inst i
  match Typing.resultTy tt f x.op (some x.ty) with
  | .error cause => .error (.type name cause)
  | .ok expected =>
    require (tt.lookup expected == some x.ty)
      (.type name (.typeMismatch (tt.shapeText expected.shape) (tt.text x.ty)))

/-- One instruction of a block. -/
def checkInst (g : FlowGraph) (dom : DomTree) (b : BlockId) (i : InstId) :
    Except Defect Unit := do
  let name := (f.block b).name
  require ((f.op i).operands.all (operandExists f)) (.invalidOperand name)
  checkUses f g dom b name i
  checkType tt f name i

/-! ## Functions -/

/-- The entry has no predecessors. -/
def checkEntry (g : FlowGraph) : Except Defect Unit :=
  match f.entry? with
  | some e => require (g.predecessors e).isEmpty (.entryHasPredecessors (f.block e).name)
  | none => .ok ()

/-- All checks of a function. -/
def checkFunc : Except Defect Unit :=
  if f.isDeclaration then .ok ()
  else do
    forAll (checkBlock f) f.layout
    let g := FlowGraph.ofFunc f
    let dom := DomTree.ofGraph g
    checkEntry f g
    forAll (fun b => forAll (checkInst tt f g dom b) (f.body b)) f.layout

end Verify

/-- Checks a function. -/
def Func.verify (tt : TypeTable) (f : Func) : Except VerifyError Unit :=
  match Verify.checkFunc tt f with
  | .ok () => .ok ()
  | .error d => .error ⟨f.name, d⟩

/-- Checks all functions of a program, up to the first defect. -/
def Program.verify (p : Program) : Except VerifyError Unit :=
  p.funcs.toList.foldlM (fun _ f => f.verify p.types) ()

end LoopNest
