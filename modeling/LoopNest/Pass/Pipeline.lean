import LoopNest.Pass.Fusion
import LoopNest.Pass.Padding
import LoopNest.Pass.Vectorize.Apply
import LoopNest.Text.Blank

/-!
# Pipelines

A pipeline runs passes one after the other on a function, and starts over as long as
one of them changed something, for at most ten rounds.  On a program it does so for
each defined function.

A pass that gets stuck has no outcome: nobody is told whether it changed something, and
the run is over.  What the passes before it did is done.

Passes are registered under names.  A pipeline is written as names with commas between
them; blanks around a name do not count, and blank entries are skipped.  There are three
preset pipelines, one for each optimization level.
-/

namespace LoopNest

/-! ## Passes -/

/-- The passes. -/
inductive Pass where
  /-- Vectorizes innermost loops. -/
  | vectorize (config : VectorConfig)
  /-- Pads stack slots. -/
  | padSlots
  /-- Moves independent inner loops out. -/
  | fuseLoops
  /-- Verifies and reports. -/
  | validate
deriving DecidableEq, Inhabited

namespace Pass

/-- The name of the pass. -/
def name : Pass → String
  | .vectorize _ => "auto-vectorization"
  | .padSlots => "data-layout-transform"
  | .fuseLoops => "loop-fusion"
  | .validate => "ir-validation"

/-- What the pass does to a defined function. -/
def apply (p : Pass) (tt : TypeTable) (f : Func) : PassResult :=
  match p with
  | .vectorize config => f.vectorize config tt
  | .padSlots => f.padSlots tt
  | .fuseLoops => f.fuseLoops tt
  | .validate => f.validate tt

/-- Whether the pass gets stuck on a defined function. -/
def stuckOn (p : Pass) (tt : TypeTable) (f : Func) : Bool :=
  match p with
  | .vectorize config => f.vectorizeStuck config tt
  | .padSlots => f.padStuck tt
  | .fuseLoops => f.fuseStuck tt
  | .validate => false

end Pass

/-- Why a pass has no outcome. -/
inductive PassError where
  /-- The function has no body. -/
  | notApplicable (pass function : String)
  /-- The program has no such function. -/
  | unknownFunction (id : FuncId)
  /-- The pass got stuck, and did not come back to report it. -/
  | stuck (pass : String)
deriving DecidableEq, Inhabited

namespace PassError

/-- The error in words. -/
def message : PassError → String
  | .notApplicable pass function =>
    s!"pass `{pass}` does not apply to declaration `{function}`"
  | .unknownFunction id => s!"function handle {id} is not part of the module"
  | .stuck pass => s!"pass `{pass}` got stuck"

/-- Whether the pass got stuck. -/
def isStuck : PassError → Bool
  | .stuck _ => true
  | _ => false

end PassError

/-- The outcome of passes on a program. -/
structure PassRun where
  /-- Whether anything changed, or why a pass could not run. -/
  result : Except PassError Bool
  /-- The program. -/
  program : Program
  /-- What was reported, in order. -/
  log : List LogLine

/-- Whether a pass gets stuck on a function. -/
def Pass.isStuck (pass : Pass) (p : Program) (id : FuncId) : Bool :=
  match p.func? id with
  | none => false
  | some f => !f.isDeclaration && pass.stuckOn p.types f

/-- Runs a pass on a function. -/
def Pass.run (pass : Pass) (p : Program) (id : FuncId) : PassRun :=
  match p.func? id with
  | none => ⟨.error (.unknownFunction id), p, []⟩
  | some f =>
    if f.isDeclaration then ⟨.error (.notApplicable pass.name f.name), p, []⟩
    else if pass.stuckOn p.types f then ⟨.error (.stuck pass.name), p, []⟩
    else
      let r := pass.apply p.types f
      ⟨.ok r.changed, { p with types := r.types }.setFunc id r.func, r.log⟩

/-! ## Pipelines -/

/-- Passes to be run in order. -/
structure Pipeline where
  /-- The passes. -/
  passes : List Pass
deriving DecidableEq, Inhabited

/-- The number of rounds after which a pipeline gives up. -/
def maxRounds : Nat := 10

namespace Pipeline

/-- The names of the passes. -/
def names (pl : Pipeline) : List String := pl.passes.map Pass.name

/-- Runs each pass once, and says whether one of them changed something. -/
def round (number : Nat) (id : FuncId) : List Pass → Program → PassRun
  | [], p => ⟨.ok false, p, []⟩
  | pass :: rest, p =>
    match pass.run p id with
    | ⟨.error e, p, log⟩ => ⟨.error e, p, log⟩
    | ⟨.ok changed, p, log⟩ =>
      let name := pass.name
      let note : List LogLine :=
        if changed then [⟨.debug, s!"round {number}: `{name}` changed the function"⟩] else []
      let r := round number id rest p
      { r with result := r.result.map (changed || ·), log := log ++ note ++ r.log }

/-- Runs rounds until one changes nothing, at most `left` of them. -/
def rounds (pl : Pipeline) (id : FuncId) : (left : Nat) → (number : Nat) → Program → PassRun
  | 0, _, p => ⟨.ok false, p, []⟩
  | left + 1, number, p =>
    match round number id pl.passes p with
    | ⟨.ok true, p, log⟩ =>
      let r := rounds pl id left (number + 1) p
      { r with result := r.result.map fun _ => true, log := log ++ r.log }
    | r => r

/-- Runs the pipeline on a function. -/
def run (pl : Pipeline) (p : Program) (id : FuncId) : PassRun := pl.rounds id maxRounds 0 p

/-- Whether a pass of the pipeline gets stuck on a function. -/
def isStuck (pl : Pipeline) (p : Program) (id : FuncId) : Bool :=
  match (pl.run p id).result with
  | .ok _ => false
  | .error e => e.isStuck

/-- Runs the pipeline on some functions in turn. -/
def runAll (pl : Pipeline) : List FuncId → Program → PassRun
  | [], p => ⟨.ok false, p, []⟩
  | id :: ids, p =>
    match pl.run p id with
    | ⟨.error e, p, log⟩ => ⟨.error e, p, log⟩
    | ⟨.ok changed, p, log⟩ =>
      let r := pl.runAll ids p
      { r with result := r.result.map (changed || ·), log := log ++ r.log }

/-- Runs the pipeline on all defined functions of a program. -/
def runProgram (pl : Pipeline) (p : Program) : PassRun :=
  let defined := (List.range p.funcs.size).filter fun id =>
    match p.func? id with
    | some f => !f.isDeclaration
    | none => false
  pl.runAll defined p

end Pipeline

/-! ## Optimization levels -/

/-- How much is done. -/
inductive OptLevel where
  /-- Nothing. -/
  | none
  /-- Padding and moving loops. -/
  | basic
  /-- The same and vectorization. -/
  | full
deriving DecidableEq, Inhabited

namespace OptLevel

/-- Reads a level, written as a digit with or without an `O` before it. -/
def read? : String → Option OptLevel
  | "0" | "O0" => some .none
  | "1" | "O1" => some .basic
  | "2" | "O2" => some .full
  | _ => Option.none

/-- What is wrong with a text that is no level. -/
def unknownMessage (text : String) : String :=
  s!"unknown optimization level `{text}` (expected 0, 1 or 2)"

/-- The pipeline of a level. -/
def pipeline : OptLevel → Pipeline
  | .none => ⟨[]⟩
  | .basic => ⟨[.padSlots, .fuseLoops]⟩
  | .full => ⟨[.padSlots, .fuseLoops, .vectorize .standard]⟩

end OptLevel

/-- Optimizes all defined functions of a program as far as possible. -/
def Program.optimize (p : Program) : PassRun := OptLevel.full.pipeline.runProgram p

/-! ## Registered passes -/

/-- Why a pass cannot be looked up or registered. -/
inductive RegistryError where
  /-- No pass has that name. -/
  | unknownPass (name : String)
  /-- There is a pass with that name. -/
  | duplicate (name : String)
deriving DecidableEq, Inhabited

/-- The error in words. -/
def RegistryError.message : RegistryError → String
  | .unknownPass name => s!"unknown pass `{name}`"
  | .duplicate name => s!"pass `{name}` is already registered"

/-- Passes under names, in the order of their registration. -/
structure Registry where
  /-- The names and what they stand for. -/
  entries : List (String × Pass)
deriving DecidableEq, Inhabited

namespace Registry

/-- The registry without passes. -/
def empty : Registry := ⟨[]⟩

/-- All passes, under their own names. -/
def builtins : Registry :=
  ⟨([.vectorize .standard, .padSlots, .fuseLoops, .validate] : List Pass).map fun p => (p.name, p)⟩

/-- The registered names. -/
def names (r : Registry) : List String := r.entries.map Prod.fst

/-- The pass under a name. -/
def find? (r : Registry) (name : String) : Option Pass := r.entries.lookup name

/-- Registers a pass under a new name. -/
def register (r : Registry) (name : String) (p : Pass) : Except RegistryError Registry :=
  if (r.find? name).isSome then .error (.duplicate name) else .ok ⟨r.entries ++ [(name, p)]⟩

/-- Reads a pipeline. -/
def pipeline (r : Registry) (text : String) : Except RegistryError Pipeline := do
  let names := ((text.splitOn ",").map Text.trim).filter (· ≠ "")
  let passes ← names.mapM fun name =>
    match r.find? name with
    | some p => .ok p
    | none => .error (.unknownPass name)
  return ⟨passes⟩

end Registry

end LoopNest
