import LoopNest.Builder

/-!
# Counted loops

A counted loop runs its induction value from a start up to, but not including, an
end, in steps of one.  All loops are built in one shape, which the analyses
recognise.

* The block before the loop branches to the *header*.
* The header holds the induction phi and compares it with the end.  It goes on to
  the *body*, or to the *exit* when the end is reached.
* The body may be any code; where it ends it branches to the *latch*.
* The latch adds one and branches back to the header.

Only the header guards the loop, so a loop whose start is not below its end never
enters its body.  Opening and closing are separate steps, with the code of the body
built in between.
-/

namespace LoopNest

/-- A loop whose body is being built. -/
structure OpenLoop where
  /-- The name that its blocks and values carry. -/
  name : String
  /-- The scalar type of the induction value. -/
  scalar : Scalar
  /-- The block with the induction phi and the exit test. -/
  header : BlockId
  /-- The first block of the body. -/
  body : BlockId
  /-- The induction value. -/
  induction : Operand
  /-- The exit test. -/
  cond : Operand
deriving DecidableEq, Inhabited

/-- A finished loop. -/
structure BuiltLoop where
  /-- The block with the induction phi and the exit test. -/
  header : BlockId
  /-- The first block of the body. -/
  body : BlockId
  /-- The block that counts up. -/
  latch : BlockId
  /-- The block after the loop, where building goes on. -/
  exit : BlockId
  /-- The induction value. -/
  induction : Operand
deriving DecidableEq, Inhabited

namespace Build

/-- The integer scalar that both bounds of a loop have. -/
def boundScalar (start stop : Operand) : Build (TyId × Scalar) := do
  let ty ← operandTy start
  let stopTy ← operandTy stop
  let tt := (← site).types
  match tt.elementScalar? ty with
  | some s =>
    if s.isInteger && ty == stopTy then return (ty, s)
    else fail (.typeMismatch ("matching integer bounds, start is " ++ tt.text ty) (tt.text stopTy))
  | none =>
    fail (.typeMismatch ("matching integer bounds, start is " ++ tt.text ty) (tt.text stopTy))

/-- Opens a loop at the end of a block. -/
def openLoop (here : BlockId) (start stop : Operand) (name : String) : Build OpenLoop := do
  let (ty, scalar) ← boundScalar start stop
  let header ← block (name ++ ".header")
  let body ← block (name ++ ".body")
  br here header
  let induction ← phi header ty [(start, here)] (name ++ ".iv")
  let cond ← icmp header .ult induction stop (name ++ ".cond")
  return { name, scalar, header, body, induction, cond }

/-- Closes a loop whose body ends in the given block. -/
def closeLoop (l : OpenLoop) (bodyEnd : BlockId) : Build BuiltLoop := do
  let latch ← block (l.name ++ ".latch")
  let exit ← block (l.name ++ ".exit")
  br bodyEnd latch
  condBr l.header l.cond l.body exit
  let one ← int l.scalar 1
  let next ← add latch l.induction one (l.name ++ ".next")
  addIncoming l.induction next latch
  br latch l.header
  return { header := l.header, body := l.body, latch, exit, induction := l.induction }

/-- Builds a loop.  The body gets its first block and the induction value, and gives the block
in which it ends. -/
def loop (here : BlockId) (start stop : Operand) (name : String)
    (body : BlockId → Operand → Build BlockId) : Build BuiltLoop := do
  let l ← openLoop here start stop name
  let bodyEnd ← body l.body l.induction
  closeLoop l bodyEnd

end Build

end LoopNest
