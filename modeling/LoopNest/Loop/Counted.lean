import LoopNest.Loop.Affine
import LoopNest.Machine.Arith

/-!
# Recognising counted loops

A counted loop is entered from a block that leads nowhere else, its *preheader*.  Its
header holds one phi, the induction value, and leaves the loop when the induction
value is not below a bound that is invariant in the loop.  Its only latch adds a
positive constant.  No other block leaves the loop, and its exit is entered from the
loop only.

`CountedLoop.recognize` checks these conditions in a fixed order and reports the first
that fails.  The comparison is of unsigned numbers, and so is the trip count.

The exit test and the sum in the latch need not be listed in any block, and then the
verifier has not looked at what they use.  An operand of them that does not exist is
where reading a loop gets stuck (`CountedLoop.isStuck`), and so does asking for the trip
count (`CountedLoop.tripsStuck`).
-/

namespace LoopNest

/-- Why a loop is no counted loop. -/
inductive ShapeError where
  /-- The loop is not entered from one block that leads nowhere else. -/
  | noPreheader
  /-- There is not exactly one latch. -/
  | multipleLatches (count : Nat)
  /-- There is not exactly one block that leaves the loop. -/
  | multipleExitingBlocks (count : Nat)
  /-- An exit is also entered from outside. -/
  | nonDedicatedExit (block : String)
  /-- The header is not the block that leaves the loop. -/
  | headerNotExiting
  /-- The header has no suitable phi. -/
  | missingInduction
  /-- The header has several phis. -/
  | duplicateInduction (count : Nat)
  /-- The exit test has another form. -/
  | unsupportedCompare
  /-- The latch counts in another way. -/
  | unsupportedStep
deriving DecidableEq, Inhabited

/-- The error in words. -/
def ShapeError.message : ShapeError → String
  | .noPreheader => "loop has no dedicated preheader"
  | .multipleLatches n => s!"loop has {n} latches"
  | .multipleExitingBlocks n => s!"loop has {n} exiting blocks"
  | .nonDedicatedExit b => s!"loop exit `{b}` has predecessors outside the loop"
  | .headerNotExiting => "header does not end in a conditional branch out of the loop"
  | .missingInduction => "header has no induction phi"
  | .duplicateInduction n => s!"header has {n} phis, expected a single induction phi"
  | .unsupportedCompare =>
    "loop condition is not `icmp ult iv, bound` with an invariant bound"
  | .unsupportedStep => "latch does not advance the induction by a positive constant"

namespace NaturalLoop

/-- The block from which the loop is entered, if it leads nowhere else. -/
def preheader? (l : NaturalLoop) (f : Func) (g : FlowGraph) : Option BlockId :=
  match (g.predecessors l.header).filter fun p => !l.contains p with
  | [p] => if f.successors p = [l.header] then some p else none
  | _ => none

/-- Whether an exit is entered from the loop only. -/
def isDedicatedExit (l : NaturalLoop) (g : FlowGraph) (e : BlockId) : Bool :=
  (g.predecessors e).all l.contains

/-- Whether all exits are entered from the loop only. -/
def hasDedicatedExits (l : NaturalLoop) (f : Func) (g : FlowGraph) : Bool :=
  (l.exits f).all (l.isDedicatedExit g)

/-- A preheader, one latch, one exiting block and dedicated exits. -/
def isSimplified (l : NaturalLoop) (f : Func) (g : FlowGraph) : Bool :=
  (l.preheader? f g).isSome && l.latches.length == 1 && (l.exitingBlocks f).length == 1 &&
    l.hasDedicatedExits f g

end NaturalLoop

/-- A counted loop. -/
structure CountedLoop where
  /-- The block from which the loop is entered. -/
  preheader : BlockId
  /-- The block with the induction phi and the exit test. -/
  header : BlockId
  /-- The block that counts up. -/
  latch : BlockId
  /-- The block after the loop. -/
  exit : BlockId
  /-- The blocks other than header and latch, in layout order. -/
  body : List BlockId
  /-- The block that the header leads to inside the loop. -/
  bodyEntry : BlockId
  /-- The induction phi. -/
  induction : InstId
  /-- The first induction value. -/
  start : Operand
  /-- The value that the induction value stays below. -/
  bound : Operand
  /-- What the latch adds. -/
  step : Int64
  /-- The exit test. -/
  cond : InstId
  /-- The sum in the latch. -/
  next : InstId
deriving DecidableEq, Inhabited

namespace CountedLoop

/-- The one block of a list. -/
def single (e : Nat → ShapeError) : List BlockId → Except ShapeError BlockId
  | [b] => .ok b
  | bs => .error (e bs.length)

/-- The exit test of a header, with the blocks inside and outside the loop that it leads to. -/
def exitBranch (f : Func) (l : NaturalLoop) (exiting : BlockId) :
    Except ShapeError (Operand × BlockId × BlockId) :=
  match (f.terminator? l.header).map f.op with
  | some (.condBr c t e) =>
    if exiting = l.header ∧ l.contains t = true ∧ l.contains e = false then .ok (c, t, e)
    else .error .headerNotExiting
  | _ => .error .headerNotExiting

/-- The one phi of a header. -/
def inductionPhi (f : Func) (header : BlockId) : Except ShapeError InstId :=
  match f.phis header with
  | [] => .error .missingInduction
  | [phi] => .ok phi
  | phis => .error (.duplicateInduction phis.length)

/-- What a phi takes from a block. -/
def incoming (f : Func) (phi : InstId) (pred : BlockId) : Except ShapeError Operand :=
  match f.incoming? phi pred with
  | some v => .ok v
  | none => .error .missingInduction

/-- The exit test as an instruction of the header, with the bound that it tests against. -/
def boundTest (f : Func) (dom : DomTree) (l : NaturalLoop) (iv c : Operand) :
    Except ShapeError (InstId × Operand) :=
  match c with
  | .inst i =>
    match f.op i with
    | .icmp .ult lhs rhs =>
      if lhs = iv ∧ l.isInvariant f dom rhs = true ∧ f.owner i = some l.header then .ok (i, rhs)
      else .error .unsupportedCompare
    | _ => .error .unsupportedCompare
  | _ => .error .unsupportedCompare

/-- The constant that a sum adds to the induction value. -/
def addedConstant? (f : Func) (iv : Operand) (i : InstId) : Option Int64 :=
  match f.op i with
  | .binary .add lhs rhs =>
    if lhs = iv then f.intLiteral? rhs
    else if rhs = iv then f.intLiteral? lhs
    else none
  | _ => none

/-- The sum in the latch, with the positive constant that it adds. -/
def advance (f : Func) (latch : BlockId) (iv v : Operand) : Except ShapeError (InstId × Int64) :=
  match v with
  | .inst i =>
    match addedConstant? f iv i with
    | some s =>
      if 0 < s.toInt ∧ f.owner i = some latch then .ok (i, s) else .error .unsupportedStep
    | none => .error .unsupportedStep
  | _ => .error .unsupportedStep

/-- Reads a loop as a counted loop. -/
def recognize (f : Func) (g : FlowGraph) (dom : DomTree) (l : NaturalLoop) :
    Except ShapeError CountedLoop := do
  let preheader ← match l.preheader? f g with
    | some p => .ok p
    | none => .error .noPreheader
  let latch ← single .multipleLatches l.latches
  let exiting ← single .multipleExitingBlocks (l.exitingBlocks f)
  match (l.exits f).find? fun e => !l.isDedicatedExit g e with
  | some e => .error (.nonDedicatedExit (f.block e).name)
  | none =>
    let (c, bodyEntry, exit) ← exitBranch f l exiting
    let induction ← inductionPhi f l.header
    let start ← incoming f induction preheader
    let nextValue ← incoming f induction latch
    let (cond, bound) ← boundTest f dom l (.inst induction) c
    let (next, step) ← advance f latch (.inst induction) nextValue
    if l.isInvariant f dom start then
      return {
        preheader, header := l.header, latch, exit
        body := l.blocks.filter fun b => b ≠ l.header ∧ b ≠ latch
        bodyEntry, induction, start, bound, step, cond, next }
    else .error .unsupportedStep

/-- Whether the look at the exit test gets stuck at an operand that does not exist. -/
def boundStuck (f : Func) (iv c : Operand) : Bool :=
  f.lacksInst c ||
    match c with
    | .inst i =>
      match f.op i with
      | .icmp .ult lhs rhs => lhs = iv && f.lacksInst rhs
      | _ => false
    | _ => false

/-- Whether the look at the sum in the latch gets stuck at an operand that does not exist. -/
def advanceStuck (f : Func) (iv v : Operand) : Bool :=
  f.lacksInst v ||
    match v with
    | .inst i =>
      match f.op i with
      | .binary .add lhs rhs => if lhs = iv then f.lacksConst rhs else rhs = iv && f.lacksConst lhs
      | _ => false
    | _ => false

/-- Whether reading a loop as a counted loop gets stuck at an operand that does not exist. -/
def isStuck (f : Func) (g : FlowGraph) (dom : DomTree) (l : NaturalLoop) : Bool :=
  match l.preheader? f g, l.latches, l.exitingBlocks f, inductionPhi f l.header with
  | some preheader, [latch], [exiting], .ok phi =>
    ((l.exits f).all fun e => l.isDedicatedExit g e) &&
      match exitBranch f l exiting, incoming f phi preheader, incoming f phi latch with
      | .ok (c, _, _), .ok start, .ok next =>
        boundStuck f (.inst phi) c ||
          match boundTest f dom l (.inst phi) c with
          | .ok _ =>
            advanceStuck f (.inst phi) next ||
              match advance f latch (.inst phi) next with
              | .ok _ => f.lacksInst start
              | .error _ => false
          | .error _ => false
      | _, _, _ => false
  | _, _, _, _ => false

/-- The induction value as an operand. -/
def iv (c : CountedLoop) : Operand := .inst c.induction

end CountedLoop

/-! ## Trip counts -/

/-- How often the body of a counted loop runs. -/
inductive TripCount where
  /-- A known number of times. -/
  | constant (n : Nat)
  /-- A number of times that is fixed when the loop is entered. -/
  | invariant
deriving DecidableEq, Inhabited

/-- The number of steps from `start` up to `bound`. -/
def stepsBetween (start bound step : Nat) : Nat := (bound - start + step - 1) / step

/-- The trip count of a counted loop. -/
def CountedLoop.tripCount? (c : CountedLoop) (tt : TypeTable) (f : Func) (dom : DomTree)
    (l : NaturalLoop) : Option TripCount :=
  match f.intLiteral? c.start, f.intLiteral? c.bound with
  | some start, some bound =>
    let s := (tt.elementScalar? (f.tyOf c.start)).getD .i64
    some (.constant (stepsBetween (s.lowBits start) (s.lowBits bound) c.step.toUInt64.toNat))
  | _, _ =>
    if l.isInvariant f dom c.start && l.isInvariant f dom c.bound then some .invariant else none

/-- Whether asking for the trip count gets stuck at a constant that does not exist. -/
def CountedLoop.tripsStuck (c : CountedLoop) (f : Func) : Bool :=
  f.lacksConst c.start || f.lacksConst c.bound

end LoopNest
