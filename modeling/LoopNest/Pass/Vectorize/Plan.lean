import LoopNest.Dependence
import LoopNest.Loop.Counted
import LoopNest.Pass.Basic

/-!
# Deciding how to vectorize a loop

A loop can be widened when it is a counted loop of step one whose body is one block,
its header and latch do nothing but count, nothing in it is used after it, it runs at
least once per lane, no two of its accesses may conflict, and every instruction of the
body can be widened.

Each value of the body has a *lane shape*: the same in every lane, an integer or a
pointer that advances by a fixed stride from lane to lane, or a full vector.  Indices
and addresses are kept as the scalar of the first lane.  A load or store whose address
advances by one element becomes a vector access.  Floating-point and truth-value
operations on vectors are widened, and their uniform operands are splatted.

Deciding interns the vector types that it meets.  They stay in the table even if the
loop is rejected later.
-/

namespace LoopNest

/-- The width of vectors and of the registers that hold them. -/
structure VectorConfig where
  /-- The number of lanes. -/
  width : Nat
  /-- The size of a register in bits. -/
  registerBits : Nat
deriving DecidableEq, Inhabited

/-- Four lanes in registers of 128 bits. -/
def VectorConfig.standard : VectorConfig := ⟨4, 128⟩

/-- Why a loop is not vectorized. -/
inductive VectorRejection where
  /-- The loop is no counted loop. -/
  | shape (e : ShapeError)
  /-- The loop was vectorized before. -/
  | alreadyVectorized
  /-- The induction value advances by something else than one. -/
  | nonUnitStep (step : Int64)
  /-- The body is not one block. -/
  | multiBlockBody (count : Nat)
  /-- Header or latch do more than count. -/
  | extraControlWork
  /-- The number of iterations is not known before the loop. -/
  | unknownTripCount
  /-- There are fewer iterations than lanes. -/
  | shortTripCount (trips : Nat)
  /-- A value is used after the loop. -/
  | liveOut (inst : String)
  /-- The exit has phis. -/
  | exitPhi
  /-- An instruction has no vector form. -/
  | unsupported (inst : String)
  /-- The vector would not fit a register. -/
  | laneTooWide (bits : Nat)
  /-- A value that varies with the lane is used outside of addresses. -/
  | varyingIndex (inst : String)
  /-- An access does not go to consecutive elements. -/
  | nonUnitStride (inst : String)
  /-- A store goes to one place in every iteration. -/
  | reduction (inst : String)
  /-- Two accesses may conflict. -/
  | memoryConflict (first second : String)
deriving DecidableEq, Inhabited

/-- The rejection in words. -/
def VectorRejection.message : VectorRejection → String
  | .shape e => e.message
  | .alreadyVectorized => "loop is already vectorized"
  | .nonUnitStep s =>
    let step := s.toInt
    s!"induction step is {step}, expected 1"
  | .multiBlockBody n => s!"body spans {n} blocks"
  | .extraControlWork => "header or latch does more than loop control"
  | .unknownTripCount => "trip count is not computable before the loop"
  | .shortTripCount n => s!"constant trip count {n} is smaller than the vector width"
  | .liveOut i => s!"`{i}` is used after the loop"
  | .exitPhi => "exit block has phis"
  | .unsupported i => s!"`{i}` cannot be widened"
  | .laneTooWide bits => s!"{bits}-bit lanes do not fit the vector register"
  | .varyingIndex i => s!"`{i}` varies per lane outside address computation"
  | .nonUnitStride i => s!"`{i}` does not access consecutive elements"
  | .reduction i => s!"store `{i}` accumulates into one location across iterations"
  | .memoryConflict a b => s!"memory accesses `{a}` and `{b}` may conflict across iterations"

/-! ## Plans -/

/-- How a value differs between the lanes of one vector iteration. -/
inductive LaneShape where
  /-- The same in every lane. -/
  | uniform
  /-- An integer that advances by a stride. -/
  | index (stride : Int64)
  /-- A pointer that advances by a number of elements. -/
  | address (stride : Int64)
  /-- A vector. -/
  | varying
deriving DecidableEq, Inhabited

/-- How an instruction of the body is carried over. -/
inductive Lowering where
  /-- As it is. -/
  | scalar
  /-- With a new result type, and some operands splatted to vectors of the given types. -/
  | widen (ty : TyId) (splats : List (Operand × TyId))
deriving DecidableEq, Inhabited

/-- Where the vector loop ends. -/
inductive VectorEnd where
  /-- At a known induction value. -/
  | constant (v : Int64)
  /-- At an induction value that is computed before the loop. -/
  | computed
deriving DecidableEq, Inhabited

/-- What is needed to vectorize a loop. -/
structure VectorPlan where
  /-- The loop. -/
  loop : CountedLoop
  /-- The instructions of the body, with how they are carried over. -/
  steps : List (InstId × Lowering)
  /-- Where the vector loop ends. -/
  stop : VectorEnd
  /-- Whether the old loop is kept for the rest. -/
  epilogue : Bool
  /-- The type of the induction value. -/
  ivTy : TyId
  /-- The type of truth values. -/
  boolTy : TyId
  /-- The type without values. -/
  voidTy : TyId
  /-- The name that the new blocks and values start with. -/
  base : String
deriving DecidableEq, Inhabited

/-- A decision that may intern types and may reject the loop. -/
abbrev Planning (α : Type) := ExceptT VectorRejection (StateM TypeTable) α

namespace Vectorize

/-- Rejects the loop. -/
def reject {α : Type} (r : VectorRejection) : Planning α := fun tt => (.error r, tt)

/-- Takes over the outcome of a check. -/
def ofExcept {α : Type} (r : Except VectorRejection α) : Planning α := fun tt => (r, tt)

/-- Looks at the type table. -/
def types : Planning TypeTable := fun tt => (.ok tt, tt)

/-- Interns a type. -/
def intern (s : Shape) : Planning TyId := fun tt =>
  let (t, tt) := tt.intern s
  (.ok t, tt)

/-- The loop under consideration. -/
structure Context where
  /-- The function. -/
  func : Func
  /-- Its dominators. -/
  dom : DomTree
  /-- The loop. -/
  natural : NaturalLoop
  /-- The same loop, as a counted loop. -/
  loop : CountedLoop
  /-- The vectors. -/
  config : VectorConfig
deriving Inhabited

variable (c : Context)

/-! ## Structure -/

/-- Whether the header holds the induction phi, the test and the branch only. -/
def headerIsControl : Bool :=
  match c.func.body c.loop.header with
  | [i, t, _] => i == c.loop.induction && t == c.loop.cond
  | _ => false

/-- Whether the latch holds the sum and the branch only. -/
def latchIsControl : Bool :=
  match c.func.body c.loop.latch with
  | [n, _] => n == c.loop.next
  | _ => false

/-- Demands the shape that vectorizing starts from. -/
def checkStructure : Except VectorRejection Unit :=
  if c.loop.step ≠ 1 then .error (.nonUnitStep c.loop.step)
  else if c.loop.body.length ≠ 1 then .error (.multiBlockBody c.loop.body.length)
  else if (headerIsControl c && latchIsControl c) = false then .error .extraControlWork
  else if (c.func.phis c.loop.exit).isEmpty = false then .error .exitPhi
  else
    match (c.natural.blocks.flatMap c.func.body).find? (c.func.usedOutside c.natural.contains) with
    | some i => .error (.liveOut (c.func.instLabel i))
    | none => .ok ()

/-- The end of the vector loop, and whether iterations are left over. -/
def vectorEnd (tt : TypeTable) : Except VectorRejection (VectorEnd × Bool) :=
  let width := c.config.width
  match c.loop.tripCount? tt c.func c.dom c.natural with
  | some (.constant n) =>
    if n < width then .error (.shortTripCount n)
    else
      let start := (c.func.intLiteral? c.loop.start).getD 0
      .ok (.constant (start + Int64.ofNat (n - n % width)), n % width ≠ 0)
  | some .invariant => .ok (.computed, true)
  | none => .error .unknownTripCount

/-! ## Memory -/

/-- The first pair of accesses that may conflict. -/
def firstConflict? : List MemAccess → Option (MemAccess × MemAccess)
  | [] => none
  | a :: rest =>
    match rest.find? a.mayConflict with
    | some b => some (a, b)
    | none => firstConflict? rest

/-- Demands that no two accesses of the body may conflict. -/
def checkMemory : Except VectorRejection Unit :=
  match firstConflict? (MemAccess.ofBlocks c.func c.loop.body) with
  | some (a, b) => .error (.memoryConflict (c.func.instLabel a.inst) (c.func.instLabel b.inst))
  | none => .ok ()

/-! ## Body -/

/-- The lane shapes of the induction value and of the instructions seen so far. -/
abbrev LaneShapes := List (Operand × LaneShape)

/-- The lane shape of an operand.  Of the values of the header, only the induction value may
be used in the body. -/
def laneShape (shapes : LaneShapes) (v : Operand) : Except VectorRejection LaneShape :=
  match shapes.lookup v with
  | some s => .ok s
  | none =>
    match v with
    | .inst i =>
      if c.func.owner i = some c.loop.header then .error (.varyingIndex (c.func.instLabel i))
      else .ok .uniform
    | _ => .ok .uniform

/-- The vector type for a scalar type, if it has one that fits a register. -/
def vectorTy (t : TyId) (user : InstId) : Planning TyId := do
  match (← types).elementScalar? t with
  | none => reject (.unsupported (c.func.instLabel user))
  | some s =>
    if !s.isFloat && s != .bool then reject (.unsupported (c.func.instLabel user))
    else if c.config.registerBits < s.bits * c.config.width then reject (.laneTooWide s.bits)
    else intern (.vector c.config.width s)

/-- The splats that the uniform operands of a widened operation need, each operand once. -/
def splatsFor (user : InstId) :
    List (Operand × LaneShape) → List (Operand × TyId) → Planning (List (Operand × TyId))
  | [], done => return done
  | (v, s) :: rest, done =>
    if s = .uniform ∧ done.all (fun d => d.1 ≠ v) = true then do
      let t ← vectorTy c (c.func.tyOf v) user
      splatsFor user rest (done ++ [(v, t)])
    else splatsFor user rest done

/-- The lane shape of a pointer step. -/
def lowerGep (i : InstId) : List LaneShape → Planning (LaneShape × Lowering)
  | [.uniform, .uniform] => return (.uniform, .scalar)
  | [.uniform, .index s] => return (.address s, .scalar)
  | _ => reject (.varyingIndex (c.func.instLabel i))

/-- A load: of one element for all lanes, or of consecutive elements. -/
def lowerLoad (i : InstId) : List LaneShape → Planning (LaneShape × Lowering)
  | [.uniform] => return (.uniform, .scalar)
  | [.address s] => do
    if s = 1 then
      let t ← vectorTy c (c.func.inst i).ty i
      return (.varying, .widen t [])
    else reject (.nonUnitStride (c.func.instLabel i))
  | _ => reject (.nonUnitStride (c.func.instLabel i))

/-- A store to consecutive elements. -/
def lowerStore (i : InstId) (value : Operand) : List LaneShape → Planning (LaneShape × Lowering)
  | [v, .address s] => do
    if s ≠ 1 then reject (.nonUnitStride (c.func.instLabel i))
    else
      let t ← vectorTy c (c.func.tyOf value) i
      match v with
      | .varying => return (.uniform, .widen (c.func.inst i).ty [])
      | .uniform => return (.uniform, .widen (c.func.inst i).ty [(value, t)])
      | _ => reject (.varyingIndex (c.func.instLabel i))
  | [_, .uniform] => reject (.reduction (c.func.instLabel i))
  | _ => reject (.nonUnitStride (c.func.instLabel i))

/-- An integer operation, which must be affine in the induction value. -/
def lowerIndex (i : InstId) (shapes : List LaneShape) : Planning (LaneShape × Lowering) :=
  if shapes.contains .varying then reject (.varyingIndex (c.func.instLabel i))
  else
    match c.natural.stride? c.func c.dom (.inst i) c.loop.iv with
    | some s => if s = 0 then return (.uniform, .scalar) else return (.index s, .scalar)
    | none => reject (.varyingIndex (c.func.instLabel i))

/-- A comparison of integers, which must be the same in every lane. -/
def lowerCompare (i : InstId) (shapes : List LaneShape) : Planning (LaneShape × Lowering) :=
  if shapes.all (· == .uniform) then return (.uniform, .scalar)
  else reject (.varyingIndex (c.func.instLabel i))

/-- Whether a lane shape is that of an index or an address. -/
def LaneShape.isStrided : LaneShape → Bool
  | .index _ | .address _ => true
  | _ => false

/-- An operation that is widened when an operand is a vector. -/
def lowerLanewise (i : InstId) (operands : List Operand) (shapes : List LaneShape) :
    Planning (LaneShape × Lowering) := do
  if shapes.any LaneShape.isStrided then reject (.varyingIndex (c.func.instLabel i))
  else if shapes.contains .varying then
    let t ← vectorTy c (c.func.inst i).ty i
    let splats ← splatsFor c i (operands.zip shapes) []
    return (.varying, .widen t splats)
  else return (.uniform, .scalar)

/-- How one instruction of the body is carried over. -/
def lowerInst (shapes : LaneShapes) (i : InstId) : Planning (LaneShape × Lowering) := do
  let x := c.func.inst i
  let ops ← ofExcept (x.op.operands.mapM (laneShape c shapes))
  match x.op with
  | .gep _ _ => lowerGep c i ops
  | .bitcast _ =>
    if ops = [.uniform] then return (.uniform, .scalar)
    else reject (.unsupported (c.func.instLabel i))
  | .load _ => lowerLoad c i ops
  | .store v _ => lowerStore c i v ops
  | .binary o _ _ =>
    if !o.isFloat && (← types).elementScalar? x.ty != some .bool then lowerIndex c i ops
    else lowerLanewise c i x.op.operands ops
  | .icmp _ _ _ => lowerCompare c i ops
  | .fcmp _ _ _ => lowerLanewise c i x.op.operands ops
  | .select _ _ _ => lowerLanewise c i x.op.operands ops
  | _ => reject (.unsupported (c.func.instLabel i))

/-- How the instructions of the body are carried over. -/
def lowerBody : LaneShapes → List InstId → Planning (List (InstId × Lowering))
  | _, [] => return []
  | shapes, i :: is => do
    let (s, lowering) ← lowerInst c shapes i
    let rest ← lowerBody ((.inst i, s) :: shapes) is
    return (i, lowering) :: rest

/-! ## The decision -/

/-- The name of a block without the ending `.header`. -/
def baseName (name : String) : String :=
  let ending := ".header".toList
  let cs := name.toList
  if ending.isSuffixOf cs then String.ofList (cs.take (cs.length - ending.length)) else name

/-- Decides how to vectorize a loop. -/
def plan (config : VectorConfig) (f : Func) (g : FlowGraph) (dom : DomTree) (l : NaturalLoop) :
    Planning VectorPlan := do
  if (f.block l.header).vectorized then reject .alreadyVectorized
  else
    match CountedLoop.recognize f g dom l with
    | .error e => reject (.shape e)
    | .ok loop =>
      let c : Context := ⟨f, dom, l, loop, config⟩
      ofExcept (checkStructure c)
      let (stop, epilogue) ← ofExcept (vectorEnd c (← types))
      ofExcept (checkMemory c)
      let steps ← lowerBody c [(loop.iv, .index 1)] (f.body loop.bodyEntry).dropLast
      let boolTy ← intern (.scalar .bool)
      let voidTy ← intern .void
      return {
        loop, steps, stop, epilogue
        ivTy := f.tyOf loop.iv
        boolTy, voidTy
        base := baseName (f.block loop.header).name }

/-- Whether carrying over an instruction gets stuck in the search for its stride. -/
def instStuck (shapes : LaneShapes) (i : InstId) (tt : TypeTable) : Bool :=
  match c.func.op i with
  | .binary o lhs rhs =>
    !o.isFloat && tt.elementScalar? (c.func.inst i).ty != some .bool &&
      match [lhs, rhs].mapM (laneShape c shapes) with
      | .ok ops => !ops.contains .varying && c.natural.isStuck c.func c.dom (.inst i) c.loop.iv
      | .error _ => false
  | _ => false

/-- Whether carrying over the instructions of the body gets stuck. -/
def bodyStuck : LaneShapes → List InstId → TypeTable → Bool
  | _, [], _ => false
  | shapes, i :: is, tt =>
    instStuck c shapes i tt ||
      match lowerInst c shapes i tt with
      | (.ok (s, _), tt) => bodyStuck ((.inst i, s) :: shapes) is tt
      | (.error _, _) => false

/-- Whether the decision about a loop gets stuck: while it is read as a counted loop, at its trip
count, at an access of the body, since the way from its pointer to the root is lost, or in the
search for a stride.  Blocks list no operand that does not exist in an accepted function, so nothing
else gets stuck. -/
def planStuck (config : VectorConfig) (f : Func) (g : FlowGraph) (dom : DomTree) (l : NaturalLoop)
    (tt : TypeTable) : Bool :=
  if (f.block l.header).vectorized then false
  else
    CountedLoop.isStuck f g dom l ||
      match CountedLoop.recognize f g dom l with
      | .error _ => false
      | .ok loop =>
        let c : Context := ⟨f, dom, l, loop, config⟩
        match checkStructure c with
        | .error _ => false
        | .ok _ =>
          loop.tripsStuck f ||
            match vectorEnd c tt with
            | .error _ => false
            | .ok _ =>
              MemAccess.anyLost f loop.body ||
                match checkMemory c with
                | .error _ => false
                | .ok _ => bodyStuck c [(loop.iv, .index 1)] (f.body loop.bodyEntry).dropLast tt

end Vectorize

end LoopNest
