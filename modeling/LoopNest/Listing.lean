import LoopNest.Program
import LoopNest.Ty.Text

/-!
# Listings

The text form of functions and programs.  A defined function lists its blocks in
layout order under their names, and each instruction on a line of its own; a
declared one is a single line.

Blocks and instructions are shown under names that are unique in the function.  The
blocks take their names first, in layout order, then the live instructions; a name
that is taken gets `.1`, `.2`, ... appended.  An instruction without a name takes
the next number from 0 on.  Parameters are shown under their own names.
-/

namespace LoopNest

namespace Listing

/-! ## Names -/

/-- The names of a function's blocks and instructions, with all names in use. -/
structure Names where
  /-- The names in use. -/
  taken : List String
  /-- The names of the live blocks, last one first. -/
  blocks : List (BlockId × String)
  /-- The names of the live instructions, last one first. -/
  insts : List (InstId × String)
  /-- The next number for an instruction without a name. -/
  counter : Nat

namespace Names

/-- A name that is not in use, made from a wanted one. -/
def fresh (n : Names) (base : String) : String :=
  freshName n.taken.contains n.taken.length base

/-- Names a block. -/
def addBlock (f : Func) (n : Names) (b : BlockId) : Names :=
  let name := n.fresh (f.block b).name
  { n with taken := name :: n.taken, blocks := (b, name) :: n.blocks }

/-- Names an instruction. -/
def addInst (f : Func) (n : Names) (i : InstId) : Names :=
  match (f.inst i).name with
  | some base =>
    let name := n.fresh base
    { n with taken := name :: n.taken, insts := (i, name) :: n.insts }
  | none =>
    let name := n.fresh (toString n.counter)
    { n with
      taken := name :: n.taken
      insts := (i, name) :: n.insts
      counter := n.counter + 1 }

/-- The names of a function. -/
def ofFunc (f : Func) : Names :=
  f.liveInsts.foldl (addInst f) (f.layout.foldl (addBlock f) ⟨[], [], [], 0⟩)

/-- A block without the `%`. -/
def label (n : Names) (b : BlockId) : String :=
  (n.blocks.lookup b).getD s!"<dead [{b}]>"

/-- A block as an operand. -/
def block (n : Names) (b : BlockId) : String := "%" ++ n.label b

end Names

/-! ## Operands and instructions -/

/-- What is needed to write the instructions of a function. -/
structure Context where
  /-- The type table. -/
  types : TypeTable
  /-- The function. -/
  func : Func
  /-- The names of its blocks and instructions. -/
  names : Names

namespace Context

/-- The context of a function. -/
def ofFunc (tt : TypeTable) (f : Func) : Context := ⟨tt, f, .ofFunc f⟩

/-- An operand. -/
def operand (c : Context) : Operand → String
  | .inst i =>
    match c.names.insts.lookup i with
    | some name => "%" ++ name
    | none => s!"%<erased [{i}]>"
  | .param k =>
    match c.func.params[k]? with
    | some p => "%" ++ p.name
    | none => s!"%<param {k}>"
  | .const k =>
    match c.func.constants[k]? with
    | some x => x.literal.toText
    | none => ""

/-- An operand after its type. -/
def typed (c : Context) (v : Operand) : String :=
  let ty := match c.func.operandTy v with
    | .ok t => c.types.text t
    | .error _ => "?"
  ty ++ " " ++ c.operand v

/-- Several texts with commas between them. -/
def commas (parts : List String) : String := ", ".intercalate parts

/-- The operation of an instruction with its operands; `ty` is the text of the result type. -/
def operation (c : Context) (ty : String) (op : Op) : String :=
  op.mnemonic ++ " " ++
    match op with
    | .alloca t align => c.types.text t ++ ", align " ++ toString align
    | .load p => commas [ty, c.typed p]
    | .store v p => commas [c.typed v, c.typed p]
    | .gep b i => commas [c.typed b, c.typed i]
    | .binary _ l r => commas [c.typed l, c.operand r]
    | .icmp pred l r => pred.mnemonic ++ " " ++ commas [c.typed l, c.operand r]
    | .fcmp pred l r => pred.mnemonic ++ " " ++ commas [c.typed l, c.operand r]
    | .select x t e => commas [c.typed x, c.typed t, c.typed e]
    | .phi incoming =>
      ty ++ " " ++ commas (incoming.map fun (v, b) =>
        "[ " ++ c.operand v ++ ", " ++ c.names.block b ++ " ]")
    | .bitcast v => c.typed v ++ " to " ++ ty
    | .splat v => c.typed v ++ " to " ++ ty
    | .call callee args => ty ++ " @" ++ callee ++ "(" ++ commas (args.map c.typed) ++ ")"
    | .br t => "label " ++ c.names.block t
    | .condBr x t e =>
      commas [c.typed x, "label " ++ c.names.block t, "label " ++ c.names.block e]
    | .ret (some v) => c.typed v
    | .ret none => "void"

/-- The line of an instruction.  One without a result has nothing on the left. -/
def instLine (c : Context) (i : InstId) : String :=
  let x := c.func.inst i
  let left := if c.types.isVoid x.ty then "" else c.operand (.inst i) ++ " = "
  "  " ++ left ++ c.operation (c.types.text x.ty) x.op ++ "\n"

/-- The lines of a block. -/
def blockLines (c : Context) (b : BlockId) : String :=
  let k := c.func.block b
  let mark := if k.vectorized then "  ; vectorized" else ""
  c.names.label b ++ ":" ++ mark ++ "\n" ++ String.join (k.insts.map c.instLine)

/-- A parameter. -/
def param (c : Context) (p : Param) : String :=
  c.types.text p.ty ++ (if p.noalias then " noalias" else "") ++ " %" ++ p.name

/-- The head of a function, without its end of line. -/
def head (c : Context) : String :=
  let f := c.func
  (if f.isDeclaration then "declare " else "define ") ++ c.types.text f.ret ++ " @" ++ f.name ++
    "(" ++ commas (f.params.toList.map c.param) ++ ")"

/-- The whole function. -/
def function (c : Context) : String :=
  if c.func.isDeclaration then c.head ++ "\n"
  else c.head ++ " \x7b\n" ++ String.join (c.func.layout.map c.blockLines) ++ "\x7d\n"

end Context

end Listing

/-- The listing of a function. -/
def Func.listing (tt : TypeTable) (f : Func) : String := (Listing.Context.ofFunc tt f).function

/-- The line that defines a named struct, nothing for other types. -/
def TypeTable.definitionLine (tt : TypeTable) : Ty → String
  | ⟨some name, .struct members⟩ =>
    "%" ++ name ++ " = type " ++ tt.shapeText (.struct members) ++ "\n"
  | _ => ""

/-- The listing of a program: its named structs, then its functions, each after a blank line. -/
def Program.listing (p : Program) : String :=
  "; loomir module\n" ++ String.join (p.types.items.toList.map p.types.definitionLine) ++
    String.join (p.funcs.toList.map fun f => "\n" ++ f.listing p.types)

end LoopNest
