import LoopNest.Func.Basic

/-!
# Editing functions

Functions are built and changed by small edits: adding blocks, constants and
instructions, replacing uses, erasing, moving blocks in the layout and redirecting
edges.  None of these edits checks types; `Builder` does that on top of them.

Numbers are given out in order and never reused.
-/

namespace LoopNest

namespace Func

/-! ## Stores -/

/-- Changes one block. -/
def modifyBlock (f : Func) (b : BlockId) (g : Block → Block) : Func :=
  { f with blocks := f.blocks.modify b g }

/-- Changes one instruction. -/
def modifyInst (f : Func) (i : InstId) (g : Inst → Inst) : Func :=
  { f with insts := f.insts.modify i g }

/-- Changes the operation of one instruction. -/
def modifyOp (f : Func) (i : InstId) (g : Op → Op) : Func :=
  f.modifyInst i fun x => { x with op := g x.op }

/-- Changes the operations of several instructions. -/
def modifyOps (f : Func) (is : List InstId) (g : Op → Op) : Func :=
  is.foldl (fun f i => f.modifyOp i g) f

/-! ## Adding -/

/-- The layout with a block at a place. -/
def placeAt (layout : List BlockId) (pos : Nat) (b : BlockId) : List BlockId :=
  layout.take pos ++ b :: layout.drop pos

/-- A new block at a place in the layout. -/
def addBlockAt (f : Func) (name : String) (pos : Nat) : BlockId × Func :=
  (f.blocks.size,
    { f with blocks := f.blocks.push (.fresh name), layout := placeAt f.layout pos f.blocks.size })

/-- A new block at the end of the layout. -/
def addBlock (f : Func) (name : String) : BlockId × Func := f.addBlockAt name f.layout.length

/-- A new block just before another, or at the end if that one is not live. -/
def addBlockBefore (f : Func) (name : String) (before : BlockId) : BlockId × Func :=
  f.addBlockAt name ((f.position? before).getD f.layout.length)

/-- A new block just after another, or at the end if that one is not live. -/
def addBlockAfter (f : Func) (name : String) (after : BlockId) : BlockId × Func :=
  f.addBlockAt name (((f.position? after).map (· + 1)).getD f.layout.length)

/-- A new constant. -/
def addConstant (f : Func) (ty : TyId) (l : Literal) : Operand × Func :=
  (.const f.constants.size, { f with constants := f.constants.push ⟨ty, l⟩ })

/-- What an instruction is made of, before it has a block. -/
structure Draft where
  /-- What it does. -/
  op : Op
  /-- The type of its result. -/
  ty : TyId
  /-- Its name in listings. -/
  name : Option String

/-- A new instruction at a place in a block, or at its end if the block is shorter. -/
def insertInst (f : Func) (b : BlockId) (pos : Nat) (d : Draft) : InstId × Func :=
  let i := f.insts.size
  let f := { f with insts := f.insts.push ⟨d.op, d.ty, d.name, some b⟩ }
  (i, f.modifyBlock b fun k => { k with insts := k.insts.take pos ++ i :: k.insts.drop pos })

/-- A new instruction at the end of a block. -/
def appendInst (f : Func) (b : BlockId) (d : Draft) : InstId × Func :=
  f.insertInst b (f.body b).length d

/-- A new instruction just before another one, none if that one is in no block. -/
def insertBefore? (f : Func) (anchor : InstId) (d : Draft) : Option (InstId × Func) := do
  let b ← f.owner anchor
  let pos ← (f.body b).findIdx? (· = anchor)
  return f.insertInst b pos d

/-- A new instruction just before the terminator of a block, or at its end if it has none. -/
def insertBeforeTerminator (f : Func) (b : BlockId) (d : Draft) : InstId × Func :=
  let n := (f.body b).length
  f.insertInst b (if (f.terminator? b).isSome then n - 1 else n) d

/-- A new phi after the phis of a block. -/
def insertPhi (f : Func) (b : BlockId) (incoming : List (Operand × BlockId)) (ty : TyId)
    (name : Option String) : InstId × Func :=
  f.insertInst b (f.phis b).length ⟨.phi incoming, ty, name⟩

/-! ## Changing -/

/-- Replaces the uses of one operand in live instructions by another. -/
def replaceUses (f : Func) (old new : Operand) : Func :=
  f.modifyOps f.liveInsts (Op.mapOperands fun v => if v = old then new else v)

/-- Takes an instruction out of its block. -/
def eraseInst (f : Func) (i : InstId) : Func :=
  match f.owner i with
  | some b =>
    (f.modifyInst i fun x => { x with owner := none }).modifyBlock b fun k =>
      { k with insts := k.insts.filter (· ≠ i) }
  | none => f

/-- A phi without its entries for a block; other operations stay. -/
def dropIncoming (pred : BlockId) : Op → Op
  | .phi incoming => .phi (incoming.filter fun e => e.2 ≠ pred)
  | op => op

/-- Takes a block out of the layout, erases its instructions, and drops the phi entries of
live instructions for it. -/
def eraseBlock (f : Func) (b : BlockId) : Func :=
  let held := f.body b
  let f := { f with layout := f.layout.filter (· ≠ b) }
  let f := f.modifyBlock b fun k => { k with insts := [] }
  let f := held.foldl (fun f i => f.modifyInst i fun x => { x with owner := none }) f
  f.modifyOps f.liveInsts (dropIncoming b)

/-- Puts a block just before another one in the layout.  Nothing happens when both are the
same or the other one is not live. -/
def moveBlockBefore (f : Func) (b before : BlockId) : Func :=
  if b = before ∨ f.isLiveBlock before = false then f
  else
    let rest := f.layout.filter (· ≠ b)
    match rest.findIdx? (· = before) with
    | some pos => { f with layout := placeAt rest pos b }
    | none => { f with layout := rest }

/-- Whether the terminator of a block branches to another block. -/
def branchesTo (f : Func) (b target : BlockId) : Bool := (f.successors b).contains target

/-- Leads the edges of a block's terminator from one target to another. -/
def retarget (f : Func) (b source target : BlockId) : Func :=
  match f.terminator? b with
  | some t => f.modifyOp t (Op.retarget source target)
  | none => f

/-- A phi with a predecessor renamed; other operations stay. -/
def renameIncoming (old new : BlockId) : Op → Op
  | .phi incoming => .phi (incoming.map fun (v, p) => (v, if p = old then new else p))
  | op => op

/-- Renames a predecessor in every phi of a block. -/
def renamePredecessor (f : Func) (b old new : BlockId) : Func :=
  f.modifyOps (f.phis b) (renameIncoming old new)

/-- Sets what a phi takes from a block, in all entries for that block. -/
def setIncoming (f : Func) (phi : InstId) (pred : BlockId) (value : Operand) : Func :=
  f.modifyOp phi fun
    | .phi incoming => .phi (incoming.map fun (v, p) => (if p = pred then value else v, p))
    | op => op

/-- Adds an entry to a phi. -/
def addIncoming (f : Func) (phi : InstId) (value : Operand) (pred : BlockId) : Func :=
  f.modifyOp phi fun
    | .phi incoming => .phi (incoming ++ [(value, pred)])
    | op => op

end Func

end LoopNest
