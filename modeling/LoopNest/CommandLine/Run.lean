import LoopNest.CommandLine.Args
import LoopNest.Listing
import LoopNest.Machine.Step

/-!
# The command

The command generates a kernel, verifies it, optimizes it and verifies it again.  Then it
prints the listing of the program, or executes the kernel and prints its output as a
table.

Inputs are filled from the given values, repeated as needed, or with 0, 1, 2, ...; a
second input goes on where the first one ended.

An error is a chain of messages, the outermost first.
-/

namespace LoopNest

namespace CommandLine

/-- How the command ends. -/
inductive Outcome where
  /-- It printed something. -/
  | success (stdout stderr : String)
  /-- It failed, with a chain of messages. -/
  | failure (errors : List String)
  /-- The arguments are wrong. -/
  | usage
deriving DecidableEq, Inhabited

/-- What the version option prints. -/
def versionText : String := "loomir-cli 0.1.0\n"

/-- What the help option prints. -/
def helpText : String :=
  "Usage: [OPTIONS] [relu|conv2d|maxpool2d|help]\n\n" ++
  "Kernels:\n" ++
  "  relu       --len N\n" ++
  "  conv2d     --input HxW --kernel HxW [--stride HxW] [--padding HxW]\n" ++
  "  maxpool2d  --input HxW --kernel HxW [--stride HxW]\n\n" ++
  "Options:\n" ++
  "  -O, --opt-level LEVEL  0, 1 or 2 (default 1)\n" ++
  "      --passes NAMES     comma-separated passes, instead of the level\n" ++
  "      --emit-ir          list the optimized program on standard error\n" ++
  "      --run              execute the kernel and print its output\n" ++
  "      --values NUMBERS   comma-separated input values for --run\n" ++
  "      --list-passes      list the passes and exit\n" ++
  "  -v, --verbose          report more\n" ++
  "  -h, --help             print this help\n" ++
  "  -V, --version          print the version\n"

/-! ## Generating -/

/-- A generated kernel with the sizes of its buffers. -/
structure Built where
  /-- The program. -/
  program : Program
  /-- The kernel. -/
  func : FuncId
  /-- The numbers of elements of the inputs. -/
  inputs : List Nat
  /-- The shape of the output. -/
  output : Dims
  /-- What was reported. -/
  log : List LogLine

/-- The kernel that was generated, or the message. -/
def built (g : Generated) (inputs : List Nat) (output : Dims) : Except String Built :=
  match g.result with
  | .ok func => .ok ⟨g.program, func, inputs, output, g.log⟩
  | .error e => .error e.message

/-- Generates a kernel in a program of its own. -/
def build (k : KernelRequest) : Except String Built :=
  let (ptr, types) := TypeTable.scalarPointer .empty .f32
  let p : Program := { Program.empty with types }
  match k with
  | .relu len => built (Kernel.relu p ptr ptr (some len)) [len] ⟨1, len⟩
  | .conv2d c =>
    match c.outputDims with
    | .error e => .error e.message
    | .ok out => built (Kernel.conv2d p ptr ptr ptr c) [c.input.area, c.kernel.area] out
  | .maxpool2d c =>
    match c.outputDims with
    | .error e => .error e.message
    | .ok out => built (Kernel.maxPool2d p ptr ptr c) [c.input.area] out

/-! ## Executing -/

/-- The elements of an input that starts at a place in the endless row of values. -/
def fill (values : List F32) (offset len : Nat) : List F32 :=
  let row := values.toArray
  (List.range len).map fun i =>
    if row.isEmpty then F32.nearest (offset + i) 1
    else row.getD ((offset + i) % row.size) .zero

/-- Allocates the inputs, with the data that are passed for them. -/
def allocInputs (values : List F32) : (offset : Nat) → List Nat → Memory → List Datum × Memory
  | _, [], m => ([], m)
  | offset, len :: lens, m =>
    let (p, m) := m.allocF32 (fill values offset len)
    let (ds, m) := allocInputs values (offset + len) lens m
    (.ptr p :: ds, m)

/-- Executes a kernel, and gives its output. -/
def execute (p : Program) (b : Built) (values : List F32) : Except (List String) (List F32) :=
  let (inputs, m) := allocInputs values 0 b.inputs .empty
  let (out, m) := m.allocF32 (List.replicate b.output.area .zero)
  match p.func? b.func with
  | none => .error ["execution failed"]
  | some f =>
    let h := p.run f (inputs ++ [.ptr out]) m defaultStepLimit
    match h.result with
    | .error e => .error ["execution failed", e.message]
    | .ok _ =>
      match h.memory.readF32 out b.output.area with
      | .ok data => .ok data
      | .error e => .error [e.message]

/-- The rows of a table, at most `fuel` of them. -/
def rowsOf (width : Nat) : (fuel : Nat) → List F32 → List (List F32)
  | 0, _ => []
  | _, [] => []
  | fuel + 1, xs => xs.take width :: rowsOf width fuel (xs.drop width)

/-- The output as a table. -/
def table (width : Nat) (data : List F32) : String :=
  let line (row : List F32) : String := " ".intercalate (row.map (F32.toText .plain)) ++ "\n"
  String.join ((rowsOf (max width 1) data.length data).map line)

/-! ## The command -/

/-- The pipeline that was asked for. -/
def choosePipeline (r : Request) : Except (List String) Pipeline :=
  match r.passes with
  | none => .ok r.level.pipeline
  | some text =>
    match Registry.builtins.pipeline text with
    | .ok pl => .ok pl
    | .error e =>
      .error ["invalid pipeline (available: " ++ ", ".intercalate Registry.builtins.names ++ ")",
        e.message]

/-- Demands that a program is well formed. -/
def demandVerified (p : Program) (context : String) : Except (List String) Unit :=
  match p.verify with
  | .ok () => .ok ()
  | .error e => .error [context, e.message]

/-- The lines that are important enough for a verbosity. -/
def shownLines (verbose : Nat) (log : List LogLine) : String :=
  let shown (l : LogLine) : Bool :=
    match l.level with
    | .error | .warn => true
    | .info => 1 ≤ verbose
    | .debug => 2 ≤ verbose
    | .trace => false
  String.join ((log.filter shown).map fun l => l.render ++ "\n")

/-- Generates, optimizes and shows a kernel; gives what is printed on either channel. -/
def perform (r : Request) (k : KernelRequest) : Except (List String) (String × String) := do
  let b ← match build k with
    | .ok b => .ok b
    | .error e => .error ["kernel generation failed", e]
  demandVerified b.program "generated IR is malformed"
  let pl ← choosePipeline r
  let run := pl.runProgram b.program
  match run.result with
  | .error e => .error ["optimization failed", e.message]
  | .ok _ =>
    demandVerified run.program "optimized IR is malformed"
    let listing := run.program.listing
    let aside := shownLines r.verbose (b.log ++ run.log) ++ (if r.emitIr then listing ++ "\n" else "")
    if r.run then
      let data ← execute run.program b r.values
      return (table b.output.width data, aside)
    else return (listing, aside)

/-- Carries a request out. -/
def Request.outcome (r : Request) : Outcome :=
  if r.listPasses then .success (String.join (Registry.builtins.names.map (· ++ "\n"))) ""
  else
    match r.kernel with
    | none => .failure ["no kernel given (expected one of: relu, conv2d, maxpool2d)"]
    | some k =>
      match perform r k with
      | .ok (out, aside) => .success out aside
      | .error chain => .failure chain

/-- Carries out what the arguments ask for. -/
def runArgs (args : List String) : Outcome :=
  match parse args with
  | .ok r => r.outcome
  | .error .version => .success versionText ""
  | .error .help => .success helpText ""
  | .error .usage => .usage

end CommandLine

end LoopNest
