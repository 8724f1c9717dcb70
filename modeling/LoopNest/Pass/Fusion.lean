import LoopNest.Dependence
import LoopNest.Loop.Counted
import LoopNest.Pass.Basic

/-!
# Moving independent inner loops out

An inner loop that computes the same thing in every iteration of the loop around it
needs to run only once.  The pass moves it to the exit edge of the outer loop: the
outer header leaves to the inner header, the inner header leaves to the outer exit, and
the inner preheader goes straight to the inner exit.  No instruction is made or erased.

A nest is moved when both loops are counted, the outer one runs a known number of times
and at least once, the exits have no phis, the inner loop uses nothing that the outer
one computes and nothing uses what it computes, it makes no call and does not read what
it writes, and it shares no memory with the rest of the outer loop unless both only
read.

The pass tries each outer loop with exactly one loop inside, in the order of the forest,
and looks at the function again after each try.  A header is tried once, so the number
of tries is at most the number of blocks.
-/

namespace LoopNest

/-- Why a nest is left alone. -/
inductive FusionRejection where
  /-- The outer loop is no counted loop. -/
  | outerShape (e : ShapeError)
  /-- The inner loop is no counted loop. -/
  | innerShape (e : ShapeError)
  /-- The outer loop may not run, or runs an unknown number of times. -/
  | outerTripCount
  /-- An instruction of the inner loop uses a value of the outer one. -/
  | outerDependence (inst : String)
  /-- A value of the inner loop is used outside of it. -/
  | liveOut (inst : String)
  /-- There is a call. -/
  | call (callee : String)
  /-- The inner loop reads memory that it writes. -/
  | readsOwnWrites
  /-- The inner loop and the rest of the outer one meet in memory. -/
  | memoryConflict (inner outer : String)
  /-- An exit has phis. -/
  | exitPhi (block : String)
deriving DecidableEq, Inhabited

/-- The rejection in words. -/
def FusionRejection.message : FusionRejection → String
  | .outerShape e => "outer loop: " ++ e.message
  | .innerShape e => "inner loop: " ++ e.message
  | .outerTripCount => "outer trip count is not a constant of at least 1"
  | .outerDependence i => s!"`{i}` depends on a value computed in the outer loop"
  | .liveOut i => s!"`{i}` is used outside the inner loop"
  | .call c => s!"call `{c}` may have side effects"
  | .readsOwnWrites => "inner loop reads memory it writes"
  | .memoryConflict a b => s!"`{a}` and `{b}` access the same memory"
  | .exitPhi b => s!"exit block `{b}` has phis"

namespace Fusion

/-- An accepted nest. -/
structure Plan where
  /-- The outer loop. -/
  outer : CountedLoop
  /-- The inner loop. -/
  inner : CountedLoop
  /-- The blocks of the inner loop, in layout order. -/
  innerBlocks : List BlockId
deriving Inhabited

/-- Runs a check on each item, up to the first that fails. -/
def forAll {α : Type} (check : α → Except FusionRejection Unit) :
    List α → Except FusionRejection Unit
  | [] => .ok ()
  | a :: as => do
    check a
    forAll check as

variable (tt : TypeTable) (f : Func) (g : FlowGraph) (dom : DomTree)

/-- Demands that a block has no phis. -/
def checkExit (b : BlockId) : Except FusionRejection Unit :=
  if (f.phis b).isEmpty then .ok () else .error (.exitPhi (f.block b).name)

/-- Whether an operand is computed in a loop. -/
def definedIn (l : NaturalLoop) (v : Operand) : Bool :=
  match f.definingBlock? v with
  | some b => l.contains b
  | none => false

/-- Demands that an instruction of the inner loop is independent of the outer loop. -/
def checkInst (outer inner : NaturalLoop) (i : InstId) : Except FusionRejection Unit :=
  match f.op i with
  | .call callee _ => .error (.call callee)
  | op =>
    if op.operands.any fun v => !definedIn f inner v && !outer.isInvariant f dom v then
      .error (.outerDependence (f.instLabel i))
    else if f.usedOutside inner.contains i then .error (.liveOut (f.instLabel i))
    else .ok ()

/-- Whether some access reads what another one writes. -/
def readsOwnWrites (accesses : List MemAccess) : Bool :=
  accesses.any fun w =>
    w.kind.writes && accesses.any fun r => r.kind.reads && r.place.root.mayAlias w.place.root

/-- Demands that two accesses do not meet in memory, unless both only read. -/
def checkPair (a b : MemAccess) : Except FusionRejection Unit :=
  if (a.kind.writes || b.kind.writes) && a.place.root.mayAlias b.place.root then
    .error (.memoryConflict (f.instLabel a.inst) (f.instLabel b.inst))
  else .ok ()

/-- Demands that the memory accesses of a nest allow the move. -/
def checkMemory (outer inner : NaturalLoop) : Except FusionRejection Unit :=
  let innerAccesses := MemAccess.ofBlocks f inner.blocks
  let restAccesses := MemAccess.ofBlocks f (outer.blocks.filter fun b => !inner.contains b)
  match restAccesses.find? fun a => a.kind == .readWrite with
  | some call => .error (.call (f.instLabel call.inst))
  | none =>
    if readsOwnWrites innerAccesses then .error .readsOwnWrites
    else forAll (fun a => forAll (checkPair f a) restAccesses) innerAccesses

/-- Demands that a loop runs a known number of times, and at least once. -/
def checkTrips (c : CountedLoop) (l : NaturalLoop) : Except FusionRejection Unit :=
  match c.tripCount? tt f dom l with
  | some (.constant (_ + 1)) => .ok ()
  | _ => .error .outerTripCount

/-- Checks whether the inner loop can be moved out of the outer one. -/
def plan (outer inner : NaturalLoop) : Except FusionRejection Plan := do
  let outerC ← match CountedLoop.recognize f g dom outer with
    | .ok c => .ok c
    | .error e => .error (.outerShape e)
  let innerC ← match CountedLoop.recognize f g dom inner with
    | .ok c => .ok c
    | .error e => .error (.innerShape e)
  checkTrips tt f dom outerC outer
  checkExit f outerC.exit
  checkExit f innerC.exit
  forAll (checkInst f dom outer inner) (inner.blocks.flatMap f.body)
  checkMemory f outer inner
  return ⟨outerC, innerC, inner.blocks⟩

/-- What is checked before the memory accesses of a nest, with the counted loops that it finds. -/
def checkNest (outer inner : NaturalLoop) : Except FusionRejection (CountedLoop × CountedLoop) := do
  let outerC ← match CountedLoop.recognize f g dom outer with
    | .ok c => .ok c
    | .error e => .error (.outerShape e)
  let innerC ← match CountedLoop.recognize f g dom inner with
    | .ok c => .ok c
    | .error e => .error (.innerShape e)
  checkTrips tt f dom outerC outer
  checkExit f outerC.exit
  checkExit f innerC.exit
  forAll (checkInst f dom outer inner) (inner.blocks.flatMap f.body)
  return (outerC, innerC)

/-- Whether the decision about a nest gets stuck: while the two loops are read as counted loops, at
the trip count of the outer one, or at an access, since the way from its pointer to the root is
lost.  Blocks list no operand that does not exist in an accepted function, so nothing else gets
stuck. -/
def planStuck (outer inner : NaturalLoop) : Bool :=
  CountedLoop.isStuck f g dom outer ||
    match CountedLoop.recognize f g dom outer with
    | .error _ => false
    | .ok outerC =>
      CountedLoop.isStuck f g dom inner ||
        match CountedLoop.recognize f g dom inner with
        | .error _ => false
        | .ok _ =>
          outerC.tripsStuck f ||
            match checkNest tt f g dom outer inner with
            | .error _ => false
            | .ok _ => MemAccess.anyLost f inner.blocks ||
              MemAccess.anyLost f (outer.blocks.filter fun b => !inner.contains b)

/-- Moves the inner loop of an accepted nest to the exit edge of the outer one. -/
def apply (p : Plan) : Func :=
  let f := f.retarget p.inner.preheader p.inner.header p.inner.exit
  let f := f.retarget p.outer.header p.outer.exit p.inner.header
  let f := f.retarget p.inner.header p.inner.exit p.outer.exit
  let f := f.renamePredecessor p.inner.header p.inner.preheader p.outer.header
  p.innerBlocks.foldl (fun f b => f.moveBlockBefore b p.outer.exit) f

/-- The first loop that was not tried and has exactly one loop inside, with that one. -/
def candidate? (t : LoopForest) (tried : List BlockId) : Option (LoopId × LoopId) :=
  t.ids.findSome? fun l =>
    match t.children l with
    | [child] => if tried.contains (t.loop l).header then none else some (l, child)
    | _ => none

/-- Tries nests until none is left, at most `fuel` of them. -/
def sweep : Nat → (tried : List BlockId) → Func → Func × Bool × List LogLine
  | 0, _, f => (f, false, [])
  | fuel + 1, tried, f =>
    let g := FlowGraph.ofFunc f
    let dom := DomTree.ofGraph g
    let t := LoopForest.ofGraph g dom
    match candidate? t tried with
    | none => (f, false, [])
    | some (o, i) =>
      let outer := t.loop o
      let name := (f.block outer.header).name
      match plan tt f g dom outer (t.loop i) with
      | .ok p =>
        let inner := (f.block p.inner.header).name
        let line : LogLine :=
          ⟨.info, "loop-fusion: moving loop `" ++ inner ++ "` out of `" ++ name ++ "` in `" ++
            f.name ++ "`"⟩
        let (f, _, log) := sweep fuel (outer.header :: tried) (apply f p)
        (f, true, line :: log)
      | .error reason =>
        let line : LogLine :=
          ⟨.debug, "loop-fusion: skipping `" ++ name ++ "` in `" ++ f.name ++ "`: " ++
            reason.message⟩
        let (f, changed, log) := sweep fuel (outer.header :: tried) f
        (f, changed, line :: log)

/-- Whether a decision gets stuck while nests are tried, at most `fuel` of them. -/
def sweepStuck : Nat → (tried : List BlockId) → Func → Bool
  | 0, _, _ => false
  | fuel + 1, tried, f =>
    let g := FlowGraph.ofFunc f
    let dom := DomTree.ofGraph g
    let t := LoopForest.ofGraph g dom
    match candidate? t tried with
    | none => false
    | some (o, i) =>
      let outer := t.loop o
      planStuck tt f g dom outer (t.loop i) ||
        match plan tt f g dom outer (t.loop i) with
        | .ok p => sweepStuck fuel (outer.header :: tried) (apply f p)
        | .error _ => sweepStuck fuel (outer.header :: tried) f

end Fusion

/-- The pass that moves independent inner loops out of their nests. -/
def Func.fuseLoops (tt : TypeTable) (f : Func) : PassResult :=
  let (func, changed, log) := Fusion.sweep tt (f.blocks.size + 1) [] f
  ⟨tt, func, changed, log⟩

/-- Whether the pass gets stuck. -/
def Func.fuseStuck (tt : TypeTable) (f : Func) : Bool :=
  Fusion.sweepStuck tt (f.blocks.size + 1) [] f

end LoopNest
