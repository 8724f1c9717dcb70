import LoopNest.Machine.Access
import LoopNest.Program
import LoopNest.Ty.Layout

/-!
# Steps of the machine

The machine executes one function of a program at a time.  A *frame* is an
activation of a function: its arguments, the results of its instructions so far,
the current block and the instructions of it that are still to come.  A *state* is
the running frame, the frames that wait for a call to return, the memory, and the
number of instructions executed.

A step executes one instruction.  A branch also enters its target: the phis at the
start of the target take their values together, from the edge that was followed,
before any result changes.  Each phi and each other instruction counts as one step
towards the limit, and is counted before it is executed.

`step` is a function, so a run is the iteration of `step` and has one result.

Sizes and widths are not limited here.  An instruction whose sizes do not fit into 64 bits, or whose
scalars the machine cannot move, gets it stuck.  Whether there is such an instruction is seen from the
function alone (`Func.stuckAt`).
-/

namespace LoopNest

/-- An activation of a function. -/
structure Frame where
  /-- The function. -/
  func : Func
  /-- The arguments. -/
  args : List Datum
  /-- The latest result of each instruction. -/
  results : Array (Option Datum)
  /-- The current block. -/
  block : BlockId
  /-- The instructions of the current block that are still to come. -/
  rest : List InstId
deriving Inhabited

namespace Frame

/-- The value of an operand. -/
def eval (tt : TypeTable) (fr : Frame) : Operand → Except Fault Datum
  | .inst i =>
    match fr.results[i]? with
    | some (some d) => .ok d
    | _ => .error (.malformed (.undefinedValue i))
  | .param k =>
    match fr.args[k]? with
    | some d => .ok d
    | none => .error (.malformed (.paramOutOfRange k))
  | .const c =>
    match fr.func.constants[c]? with
    | none => .error (.malformed (.unknownConstant c))
    | some ⟨_, .bool b⟩ => .ok (.bool b)
    | some ⟨_, .f32 x⟩ => .ok (.f32 x)
    | some ⟨ty, .int v⟩ =>
      match tt.elementScalar? ty with
      | some s => .ok (.int (s.normalize v))
      | none => .error (.malformed .noScalar)

/-- Records the result of an instruction. -/
def record (fr : Frame) (i : InstId) (d : Datum) : Frame :=
  { fr with results := fr.results.setIfInBounds i (some d) }

/-- The scalar of a type. -/
def scalarOf (tt : TypeTable) (t : TyId) : Except Fault Scalar :=
  match tt.elementScalar? t with
  | some s => .ok s
  | none => .error (.malformed .noScalar)

/-- The result of an instruction that neither branches nor calls. -/
def compute (tt : TypeTable) (fr : Frame) (x : Inst) : Access Datum :=
  let value (v : Operand) : Access Datum := Access.ofExcept (fr.eval tt v)
  match x.op with
  | .alloca t _ => do return .ptr (← Access.alloc (tt.paddedSize t))
  | .load p => do
    let p ← Access.ofExcept (← value p).asPtr
    Access.countLoad
    fun m => (m.load tt p x.ty, m)
  | .store v p => do
    let p ← Access.ofExcept (← value p).asPtr
    let d ← value v
    Access.countStore
    match d with
    | .int n =>
      let s ← Access.ofExcept (scalarOf tt (fr.func.tyOf v))
      Memory.storeInt p n s
    | d => Memory.storeDatum p d
    return .void
  | .gep b i => do
    let p ← Access.ofExcept (← value b).asPtr
    let n ← Access.ofExcept (← value i).asInt
    match tt.pointee? x.ty with
    | some t => return .ptr (p.advance (n * Int64.ofNat (tt.paddedSize t)))
    | none => Access.ofExcept (.error (.malformed .gepOnNonPointer))
  | .binary op l r => do
    let s ← Access.ofExcept (scalarOf tt x.ty)
    let a ← value l
    let b ← value r
    Access.ofExcept (lanewise (op.apply s) a b)
  | .icmp pred l r => do
    let s ← Access.ofExcept (scalarOf tt (fr.func.tyOf l))
    let a ← value l
    let b ← value r
    Access.ofExcept (lanewise (pred.apply s) a b)
  | .fcmp pred l r => do
    let a ← value l
    let b ← value r
    Access.ofExcept (lanewise pred.apply a b)
  | .select c t e => do
    let c ← value c
    let t ← value t
    let e ← value e
    Access.ofExcept (c.choose t e)
  | .bitcast v => value v
  | .splat v => do
    let d ← value v
    return .vector (List.replicate ((tt.lanes? x.ty).getD 1) d)
  | .phi _ => Access.ofExcept (.error (.malformed .misplacedPhi))
  | .call _ _ | .br _ | .condBr _ _ _ | .ret _ => return .void

end Frame

/-! ## Where the machine gets stuck -/

/-- What the length of a region stays below. -/
def regionLimit : Nat := 2 ^ 63

/-- Whether integers can be fitted into the scalar.  A shift by all 64 bits is none. -/
def Scalar.canNormalize (s : Scalar) : Bool := s.kind ≠ .sint || 0 < s.width

/-- Whether the scalar can be made of its bytes: an integer of eight at most, a float of the first
four, a truth value of the first one. -/
def Scalar.canLoad (s : Scalar) : Bool :=
  match s.kind with
  | .bool => 0 < s.width
  | .float => 4 ≤ s.width
  | _ => s.width ≤ 8 && s.canNormalize

/-- Whether the bytes of the scalar can be made of it. -/
def Scalar.canStore (s : Scalar) : Bool := !s.isInteger || s.width ≤ 8

namespace Func

variable (tt : TypeTable) (f : Func)

/-- Whether the machine can evaluate an operand: an integer constant is fitted into its type. -/
def canEval : Operand → Bool
  | .const c =>
    match f.constants[c]? with
    | some ⟨ty, .int _⟩ => (tt.elementScalar? ty).all Scalar.canNormalize
    | _ => true
  | _ => true

/-- Whether the sizes that an instruction asks for can be counted, and a region of the size be had. -/
def sizesFit (i : InstId) : Bool :=
  match f.op i with
  | .alloca t _ => tt.paddedFits t && tt.paddedSize t < regionLimit
  | .gep _ _ => (tt.pointee? (f.inst i).ty).all tt.paddedFits
  | _ => true

/-- Whether the machine has the scalars of an instruction. -/
def scalarsFit (i : InstId) : Bool :=
  match f.op i with
  | .load _ => (tt.elementScalar? (f.inst i).ty).all Scalar.canLoad
  | .store v _ => (tt.elementScalar? (f.tyOf v)).all Scalar.canStore
  | .binary _ _ _ => (tt.elementScalar? (f.inst i).ty).all Scalar.canNormalize
  | .icmp _ l _ => (tt.elementScalar? (f.tyOf l)).all Scalar.canNormalize
  | _ => true

/-- Whether the machine gets stuck at an instruction, whatever the state is. -/
def stuckAt (i : InstId) : Bool :=
  !((f.op i).operands.all (f.canEval tt) && f.sizesFit tt i && f.scalarsFit tt i)

end Func

namespace Frame

/-! ## Entering a block -/

/-- The values that phis take from an edge, with the steps counted so far. -/
def phiValues (tt : TypeTable) (limit : Nat) (fr : Frame) (source : Option BlockId)
    (name : String) : List InstId → Nat → Except Fault (List (InstId × Datum)) × Nat
  | [], steps => (.ok [], steps)
  | i :: is, steps =>
    if limit < steps + 1 then (.error (.stepLimit limit), steps + 1)
    else
      match source.bind (fr.func.incoming? i) with
      | none => (.error (.malformed (.noIncoming name)), steps + 1)
      | some v =>
        match fr.eval tt v with
        | .error e => (.error e, steps + 1)
        | .ok d =>
          match phiValues tt limit fr source name is (steps + 1) with
          | (.ok ds, n) => (.ok ((i, d) :: ds), n)
          | (.error e, n) => (.error e, n)

/-- Enters a block from another one, or from the outside. -/
def enter (tt : TypeTable) (limit : Nat) (fr : Frame) (source : Option BlockId) (target : BlockId)
    (steps : Nat) : Except Fault Frame × Nat :=
  let f := fr.func
  match phiValues tt limit fr source (f.block target).name (f.phis target) steps with
  | (.error e, n) => (.error e, n)
  | (.ok values, n) =>
    let fr := values.foldl (fun fr (i, d) => fr.record i d) fr
    (.ok { fr with block := target, rest := f.afterPhis target }, n)

/-- A new activation of a function, before its entry is entered. -/
def activate (f : Func) (args : List Datum) : Frame :=
  { func := f, args, results := Array.replicate f.insts.size none, block := 0, rest := [] }

end Frame

/-! ## States and steps -/

/-- A frame that waits for the call at an instruction to return. -/
structure Caller where
  /-- The waiting frame. -/
  frame : Frame
  /-- The call. -/
  call : InstId
deriving Inhabited

/-- A state of the machine. -/
structure State where
  /-- The running frame. -/
  frame : Frame
  /-- The waiting frames, innermost first. -/
  callers : List Caller
  /-- The memory. -/
  memory : Memory
  /-- The instructions executed so far. -/
  steps : Nat
deriving Inhabited

/-- The end of a run. -/
structure Halt where
  /-- The returned datum, or why there is none. -/
  result : Except Fault Datum
  /-- The memory that is left behind. -/
  memory : Memory
  /-- The instructions executed, the one that broke the limit included. -/
  steps : Nat

/-- What a step leads to. -/
inductive Transition where
  /-- The run goes on. -/
  | next (s : State)
  /-- The run is over. -/
  | halt (h : Halt)

namespace Machine

/-- Enters a block and goes on there. -/
def goto (p : Program) (limit : Nat) (fr : Frame) (callers : List Caller) (m : Memory)
    (source : Option BlockId) (target : BlockId) (steps : Nat) : Transition :=
  match fr.enter p.types limit source target steps with
  | (.ok fr, n) => .next ⟨fr, callers, m, n⟩
  | (.error e, n) => .halt ⟨.error e, m, n⟩

/-- Starts a function.  It must be defined and get as many arguments as it has parameters. -/
def invoke (p : Program) (limit : Nat) (f : Func) (args : List Datum) (callers : List Caller)
    (m : Memory) (steps : Nat) : Transition :=
  match f.entry? with
  | none => .halt ⟨.error (.unknownCallee f.name), m, steps⟩
  | some e =>
    if f.params.size ≠ args.length then
      .halt ⟨.error (.argumentCount f.name f.params.size args.length), m, steps⟩
    else
      goto p limit (Frame.activate f args) callers m none e steps

/-- The defined function that a name stands for. -/
def callee? (p : Program) (name : String) : Option Func :=
  ((p.funcNamed? name).bind p.func?).filter fun f => !f.isDeclaration

/-- Hands a datum back to the innermost waiting frame. -/
def giveBack (d : Datum) (callers : List Caller) (m : Memory) (steps : Nat) : Transition :=
  match callers with
  | [] => .halt ⟨.ok d, m, steps⟩
  | c :: cs => .next ⟨c.frame.record c.call d, cs, m, steps⟩

/-- Executes an instruction that is already counted and taken off the block. -/
def execute (p : Program) (limit : Nat) (fr : Frame) (callers : List Caller) (m : Memory)
    (i : InstId) (steps : Nat) : Transition :=
  let x := fr.func.inst i
  match x.op with
  | .br t => goto p limit fr callers m (some fr.block) t steps
  | .condBr c t e =>
    match (fr.eval p.types c).bind Datum.asBool with
    | .error err => .halt ⟨.error err, m, steps⟩
    | .ok taken => goto p limit fr callers m (some fr.block) (if taken then t else e) steps
  | .ret none => giveBack .void callers m steps
  | .ret (some v) =>
    match fr.eval p.types v with
    | .error err => .halt ⟨.error err, m, steps⟩
    | .ok d => giveBack d callers m steps
  | .call name args =>
    match callee? p name with
    | none => .halt ⟨.error (.unknownCallee name), m, steps⟩
    | some f =>
      match args.mapM (fr.eval p.types) with
      | .error err => .halt ⟨.error err, m, steps⟩
      | .ok ds => invoke p limit f ds (⟨fr, i⟩ :: callers) m steps
  | _ =>
    match fr.compute p.types x m with
    | (.ok d, m) => .next ⟨fr.record i d, callers, m, steps⟩
    | (.error err, m) => .halt ⟨.error err, m, steps⟩

/-- Executes the next instruction. -/
def step (p : Program) (limit : Nat) : State → Transition
  | ⟨fr, callers, m, steps⟩ =>
    match fr.rest with
    | [] => .halt ⟨.error (.malformed (.fellThrough (fr.func.block fr.block).name)), m, steps⟩
    | i :: rest =>
      if limit < steps + 1 then .halt ⟨.error (.stepLimit limit), m, steps + 1⟩
      else execute p limit { fr with rest } callers m i (steps + 1)

/-! ## Runs -/

/-- Steps until the run is over, at most `fuel` times. -/
def run (p : Program) (limit : Nat) : Nat → State → Halt
  | 0, s => ⟨.error (.stepLimit limit), s.memory, s.steps⟩
  | fuel + 1, s =>
    match step p limit s with
    | .next s => run p limit fuel s
    | .halt h => h

end Machine

/-- The number of instructions that a run may execute unless it is given another limit. -/
def defaultStepLimit : Nat := 50000000

/-- Calls a function.  Every step but the last one counts an instruction, so that a run that
keeps to the limit is over after one step more. -/
def Program.run (p : Program) (f : Func) (args : List Datum) (m : Memory) (limit : Nat) : Halt :=
  match Machine.invoke p limit f args [] m 0 with
  | .next s => Machine.run p limit (limit + 1) s
  | .halt h => h

end LoopNest
