import LoopNest.Pass.Vectorize.Plan

/-!
# Vectorizing a loop

Vectorizing puts a vector loop before the loop.  It advances by the number of lanes, up
to `start + (trip - trip mod width)`, and its body holds the widened instructions.  What
is left over is done by the old loop, which now starts where the vector loop ends; the
block `vec.middle` leads there.  When nothing is left over the old loop is erased, and
the vector loop leaves to its exit.

Both headers are marked, and a marked loop is not vectorized again.  The pass goes
through the innermost loops in the order of the forest and looks at the function again
after each change.  Every change uses up one header of the function as it was at the
start, so their number is at most the number of blocks.
-/

namespace LoopNest

namespace Vectorize

/-! ## The end of the vector loop -/

/-- Adds an instruction before the terminator of a block, for its result. -/
def addBefore (f : Func) (b : BlockId) (op : Op) (ty : TyId) (name : String) : Operand × Func :=
  let (i, f) := f.insertBeforeTerminator b ⟨op, ty, some name⟩
  (.inst i, f)

/-- Computes the end of the vector loop in the preheader, from a trip count that is zero when
the start is not below the bound. -/
def computeEnd (f : Func) (p : VectorPlan) (width : Int64) : Operand × Func :=
  let ph := p.loop.preheader
  let start := p.loop.start
  let bound := p.loop.bound
  let (zero, f) := f.addConstant p.ivTy (.int 0)
  let (w, f) := f.addConstant p.ivTy (.int width)
  let (entered, f) := addBefore f ph (.icmp .ult start bound) p.boolTy (p.base ++ ".vec.entered")
  let (span, f) := addBefore f ph (.binary .sub bound start) p.ivTy (p.base ++ ".vec.span")
  let (trip, f) := addBefore f ph (.select entered span zero) p.ivTy (p.base ++ ".vec.trip")
  let (rem, f) := addBefore f ph (.binary .urem trip w) p.ivTy (p.base ++ ".vec.rem")
  let (main, f) := addBefore f ph (.binary .sub trip rem) p.ivTy (p.base ++ ".vec.main")
  addBefore f ph (.binary .add start main) p.ivTy (p.base ++ ".vec.end")

/-- The end of the vector loop. -/
def emitEnd (f : Func) (p : VectorPlan) (width : Int64) : Operand × Func :=
  match p.stop with
  | .constant v => f.addConstant p.ivTy (.int v)
  | .computed => computeEnd f p width

/-! ## The body -/

/-- The body of a vector loop under construction. -/
structure BodyState where
  /-- The function. -/
  func : Func
  /-- What stands for the values of the old body. -/
  renamed : List (Operand × Operand)
  /-- The vectors that uniform operands were splatted to. -/
  splatted : List (Operand × Operand)

namespace BodyState

/-- What stands for an operand of the old body. -/
def rename (s : BodyState) (v : Operand) : Operand := (s.renamed.lookup v).getD v

/-- Makes sure that an operand is splatted. -/
def splat (body : BlockId) (base : String) (s : BodyState) (v : Operand) (ty : TyId) : BodyState :=
  match s.splatted.lookup v with
  | some _ => s
  | none =>
    let (i, func) := s.func.appendInst body ⟨.splat (s.rename v), ty, some (base ++ ".splat")⟩
    { s with func, splatted := (v, .inst i) :: s.splatted }

/-- What stands for an operand of a widened instruction, whose splatted operands are given. -/
def widened (s : BodyState) (splats : List (Operand × TyId)) (v : Operand) : Operand :=
  if (splats.lookup v).isSome then (s.splatted.lookup v).getD v else s.rename v

/-- Adds the counterpart of an instruction of the old body. -/
def add (s : BodyState) (body : BlockId) (old : InstId) (op : Op) (ty : TyId) : BodyState :=
  let name := (s.func.inst old).name.map (· ++ ".vec")
  let (i, func) := s.func.appendInst body ⟨op, ty, name⟩
  { s with func, renamed := (.inst old, .inst i) :: s.renamed }

/-- Carries one instruction of the old body over. -/
def step (body : BlockId) (base : String) (s : BodyState) (i : InstId) : Lowering → BodyState
  | .scalar =>
    let x := s.func.inst i
    s.add body i (x.op.mapOperands s.rename) x.ty
  | .widen ty splats =>
    let s := splats.foldl (fun s (v, t) => s.splat body base v t) s
    s.add body i ((s.func.op i).mapOperands (s.widened splats)) ty

end BodyState

/-! ## The vector loop -/

/-- The blocks of a vector loop. -/
structure VectorBlocks where
  /-- The block with the induction phi and the exit test. -/
  header : BlockId
  /-- The widened body. -/
  body : BlockId
  /-- The block that counts up. -/
  latch : BlockId
  /-- The block that leads to the old loop, if that is kept. -/
  middle : Option BlockId
deriving Inhabited

/-- Makes the blocks of the vector loop, just before the old loop. -/
def addBlocks (f : Func) (p : VectorPlan) : VectorBlocks × Func :=
  let old := p.loop.header
  let (header, f) := f.addBlockBefore (p.base ++ ".vec.header") old
  let (body, f) := f.addBlockBefore (p.base ++ ".vec.body") old
  let (latch, f) := f.addBlockBefore (p.base ++ ".vec.latch") old
  if p.epilogue then
    let (middle, f) := f.addBlockBefore (p.base ++ ".vec.middle") old
    ({ header, body, latch, middle := some middle }, f)
  else ({ header, body, latch, middle := none }, f)

/-- Fills the header of the vector loop; the phi gets its entry for the latch later. -/
def fillHeader (f : Func) (p : VectorPlan) (k : VectorBlocks) (stop : Operand) : InstId × Func :=
  let start := p.loop.start
  let (iv, f) := f.appendInst k.header
    ⟨.phi [(start, p.loop.preheader), (start, k.latch)], p.ivTy, some (p.base ++ ".vec.iv")⟩
  let (cond, f) := f.appendInst k.header
    ⟨.icmp .ult (.inst iv) stop, p.boolTy, some (p.base ++ ".vec.cond")⟩
  let (_, f) := f.appendInst k.header
    ⟨.condBr (.inst cond) k.body (k.middle.getD p.loop.exit), p.voidTy, none⟩
  (iv, f)

/-- Fills the body of the vector loop. -/
def fillBody (f : Func) (p : VectorPlan) (k : VectorBlocks) (iv : InstId) : Func :=
  let s := p.steps.foldl (fun s (i, lowering) => s.step k.body p.base i lowering)
    (⟨f, [(p.loop.iv, .inst iv)], []⟩ : BodyState)
  (s.func.appendInst k.body ⟨.br k.latch, p.voidTy, none⟩).2

/-- Fills the latch of the vector loop. -/
def fillLatch (f : Func) (p : VectorPlan) (k : VectorBlocks) (iv : InstId) (width : Int64) : Func :=
  let (step, f) := f.addConstant p.ivTy (.int width)
  let (next, f) := f.appendInst k.latch
    ⟨.binary .add (.inst iv) step, p.ivTy, some (p.base ++ ".vec.next")⟩
  let (_, f) := f.appendInst k.latch ⟨.br k.header, p.voidTy, none⟩
  f.setIncoming iv k.latch (.inst next)

/-- Marks the header of a loop as dealt with. -/
def mark (f : Func) (header : BlockId) : Func :=
  f.modifyBlock header fun b => { b with vectorized := true }

/-- Leads the vector loop to the old one, which starts where the vector loop ends. -/
def keepEpilogue (f : Func) (p : VectorPlan) (middle : BlockId) (stop : Operand) : Func :=
  let (_, f) := f.appendInst middle ⟨.br p.loop.header, p.voidTy, none⟩
  let f := f.renamePredecessor p.loop.header p.loop.preheader middle
  mark (f.setIncoming p.loop.induction middle stop) p.loop.header

/-- Vectorizes a loop as planned. -/
def apply (config : VectorConfig) (f : Func) (p : VectorPlan) : Func :=
  let width := Int64.ofNat config.width
  let (stop, f) := emitEnd f p width
  let (k, f) := addBlocks f p
  let f := f.retarget p.loop.preheader p.loop.header k.header
  let (iv, f) := fillHeader f p k stop
  let f := fillBody f p k iv
  let f := mark (fillLatch f p k iv width) k.header
  match k.middle with
  | some middle => keepEpilogue f p middle stop
  | none => (p.loop.header :: p.loop.latch :: p.loop.body).foldl Func.eraseBlock f

/-! ## The pass -/

/-- The first loop that can be vectorized, with the headers that were rejected on the way. -/
def firstPlan (config : VectorConfig) (f : Func) (g : FlowGraph) (dom : DomTree) :
    List NaturalLoop → (rejected : List BlockId) → TypeTable →
      Option VectorPlan × List BlockId × TypeTable × List LogLine
  | [], rejected, tt => (none, rejected, tt, [])
  | l :: ls, rejected, tt =>
    if rejected.contains l.header then firstPlan config f g dom ls rejected tt
    else
      match plan config f g dom l tt with
      | (.ok p, tt) => (some p, rejected, tt, [])
      | (.error .alreadyVectorized, tt) => firstPlan config f g dom ls (l.header :: rejected) tt
      | (.error reason, tt) =>
        let name := (f.block l.header).name
        let line : LogLine :=
          ⟨.debug, "auto-vectorization: skipping loop `" ++ name ++ "` in `" ++ f.name ++ "`: " ++
            reason.message⟩
        let (p, rejected, tt, log) := firstPlan config f g dom ls (l.header :: rejected) tt
        (p, rejected, tt, line :: log)

/-- The report on a loop that is vectorized. -/
def report (config : VectorConfig) (f : Func) (p : VectorPlan) : LogLine :=
  let name := (f.block p.loop.header).name
  let rest := if p.epilogue then " with a scalar epilogue" else ""
  ⟨.info, "auto-vectorization: widening loop `" ++ name ++ "` in `" ++ f.name ++ "` to " ++
    toString config.width ++ " lanes" ++ rest⟩

/-- Vectorizes loops until none is left, at most `fuel` of them. -/
def sweep (config : VectorConfig) : Nat → (rejected : List BlockId) → TypeTable → Func → PassResult
  | 0, _, tt, f => ⟨tt, f, false, []⟩
  | fuel + 1, rejected, tt, f =>
    let g := FlowGraph.ofFunc f
    let dom := DomTree.ofGraph g
    let t := LoopForest.ofGraph g dom
    match firstPlan config f g dom (t.innermost.map t.loop) rejected tt with
    | (none, _, tt, log) => ⟨tt, f, false, log⟩
    | (some p, rejected, tt, log) =>
      let r := sweep config fuel (p.loop.header :: rejected) tt (apply config f p)
      { r with changed := true, log := log ++ report config f p :: r.log }

/-- Whether a decision on the way to the first loop that can be vectorized gets stuck. -/
def firstStuck (config : VectorConfig) (f : Func) (g : FlowGraph) (dom : DomTree) :
    List NaturalLoop → (rejected : List BlockId) → TypeTable → Bool
  | [], _, _ => false
  | l :: ls, rejected, tt =>
    if rejected.contains l.header then firstStuck config f g dom ls rejected tt
    else
      planStuck config f g dom l tt ||
        match plan config f g dom l tt with
        | (.ok _, _) => false
        | (.error _, tt) => firstStuck config f g dom ls (l.header :: rejected) tt

/-- Whether a decision gets stuck while loops are vectorized, at most `fuel` of them. -/
def sweepStuck (config : VectorConfig) : Nat → (rejected : List BlockId) → TypeTable → Func → Bool
  | 0, _, _, _ => false
  | fuel + 1, rejected, tt, f =>
    let g := FlowGraph.ofFunc f
    let dom := DomTree.ofGraph g
    let t := LoopForest.ofGraph g dom
    firstStuck config f g dom (t.innermost.map t.loop) rejected tt ||
      match firstPlan config f g dom (t.innermost.map t.loop) rejected tt with
      | (none, _) => false
      | (some p, rejected, tt, _) =>
        sweepStuck config fuel (p.loop.header :: rejected) tt (apply config f p)

end Vectorize

/-- The pass that vectorizes innermost loops.  Fewer than two lanes are no vectors. -/
def Func.vectorize (config : VectorConfig) (tt : TypeTable) (f : Func) : PassResult :=
  if config.width < 2 then ⟨tt, f, false, []⟩
  else Vectorize.sweep config (f.blocks.size + 1) [] tt f

/-- Whether the pass gets stuck. -/
def Func.vectorizeStuck (config : VectorConfig) (tt : TypeTable) (f : Func) : Bool :=
  if config.width < 2 then false else Vectorize.sweepStuck config (f.blocks.size + 1) [] tt f

end LoopNest
