import LoopNest.Kernel.Conv2d
import LoopNest.Kernel.MaxPool2d
import LoopNest.Kernel.Relu
import LoopNest.Pass.Pipeline

/-!
# Command line arguments

The arguments are `[OPTIONS] KERNEL [OPTIONS]`, where the kernel is `relu`, `conv2d` or
`maxpool2d`.  Some options are global: they may stand before or after the kernel, and
the later place wins.  Every kernel has options of its own, which stand after it, and
`--list-passes` and `--version` stand before it.

A long option takes its value after `=` or as the next argument, a short one directly,
after `=`, or as the next argument.  The next argument is no value if it starts with a
dash and is not a dash alone.  Short options may be joined.  An option may be given once
in each place; only `--values` adds up, and `-v` counts.  After `--` no argument is
allowed.

Arguments are looked at from left to right, and the first one that is wrong, or that asks
for the version or help, decides.
-/

namespace LoopNest

namespace CommandLine

/-! ## Options -/

/-- The options. -/
inductive Opt where
  | optLevel | passes | emitIr | run | values | listPasses | verbose | help | version
  | len | input | kernel | stride | padding
deriving DecidableEq, Inhabited

/-- The kernels. -/
inductive KernelName where
  | relu | conv2d | maxpool2d
deriving DecidableEq, Inhabited

/-- The kernel with a given name. -/
def KernelName.ofString? : String → Option KernelName
  | "relu" => some .relu
  | "conv2d" => some .conv2d
  | "maxpool2d" => some .maxpool2d
  | _ => none

namespace Opt

/-- The options that may stand on either side of the kernel. -/
def isGlobal : Opt → Bool
  | .optLevel | .passes | .emitIr | .run | .values | .verbose | .help => true
  | _ => false

/-- Whether an option may stand before the kernel, or after the given kernel. -/
def isAllowed (o : Opt) : Option KernelName → Bool
  | none => o.isGlobal || [Opt.listPasses, .version].contains o
  | some .relu => o.isGlobal || o == .len
  | some .conv2d => o.isGlobal || [Opt.input, .kernel, .stride, .padding].contains o
  | some .maxpool2d => o.isGlobal || [Opt.input, .kernel, .stride].contains o

/-- Whether an option takes a value. -/
def takesValue : Opt → Bool
  | .optLevel | .passes | .values | .len | .input | .kernel | .stride | .padding => true
  | _ => false

/-- The option with a given long name. -/
def ofLong? : String → Option Opt
  | "opt-level" => some .optLevel
  | "passes" => some .passes
  | "emit-ir" => some .emitIr
  | "run" => some .run
  | "values" => some .values
  | "list-passes" => some .listPasses
  | "verbose" => some .verbose
  | "help" => some .help
  | "version" => some .version
  | "len" => some .len
  | "input" => some .input
  | "kernel" => some .kernel
  | "stride" => some .stride
  | "padding" => some .padding
  | _ => none

/-- The option with a given letter. -/
def ofShort? : Char → Option Opt
  | 'O' => some .optLevel
  | 'v' => some .verbose
  | 'h' => some .help
  | 'V' => some .version
  | _ => none

end Opt

/-! ## Values -/

/-- The number that a text of digits denotes, below a bound. -/
def readDigits? (bound : Nat) (cs : List Char) : Option Nat :=
  if cs.isEmpty || !cs.all Char.isDigit then none
  else
    let n := F32.digitsValue cs
    if n < bound then some n else none

/-- Reads an unsigned 32-bit number, with or without a plus sign. -/
def readU32? (s : String) : Option Nat :=
  match s.toList with
  | '+' :: cs => readDigits? (2 ^ 32) cs
  | cs => readDigits? (2 ^ 32) cs

/-- Reads a count: an unsigned 32-bit number, or a zero with a minus sign. -/
def readCount? (s : String) : Option Nat :=
  match s.toList with
  | '-' :: cs => readDigits? 1 cs
  | _ => readU32? s

/-- The texts before and after the first `x`, in either case. -/
def splitCross? (s : String) : Option (String × String) :=
  let isCross (c : Char) : Bool := c == 'x' || c == 'X'
  match s.toList.dropWhile fun c => !isCross c with
  | [] => none
  | _ :: after => some (String.ofList (s.toList.takeWhile fun c => !isCross c), String.ofList after)

/-- Reads `HxW`, or one number for both. -/
def readDims? (s : String) : Option Dims :=
  match splitCross? s with
  | some (h, w) => do
    let height ← readU32? (Text.trim h)
    let width ← readU32? (Text.trim w)
    return ⟨height, width⟩
  | none => do
    let n ← readU32? (Text.trim s)
    return ⟨n, n⟩

/-! ## What was given -/

/-- The options given in one place. -/
structure Given where
  /-- The optimization level. -/
  optLevel : Option OptLevel := none
  /-- The pipeline, as text. -/
  passes : Option String := none
  /-- Whether the program is to be listed aside. -/
  emitIr : Bool := false
  /-- Whether the kernel is to be executed. -/
  run : Bool := false
  /-- The input values. -/
  values : List F32 := []
  /-- Whether the passes are to be listed. -/
  listPasses : Bool := false
  /-- How often more reports were asked for. -/
  verbose : Nat := 0
  /-- The number of elements. -/
  len : Option Nat := none
  /-- The shape of the input. -/
  input : Option Dims := none
  /-- The shape of the weights or the window. -/
  kernel : Option Dims := none
  /-- How far the window moves. -/
  stride : Option Dims := none
  /-- The rows and columns of zeros around the input. -/
  padding : Option Dims := none
deriving Inhabited

/-- Why parsing stopped. -/
inductive Stop where
  /-- The arguments are wrong. -/
  | usage
  /-- The version was asked for. -/
  | version
  /-- Help was asked for. -/
  | help
deriving DecidableEq, Inhabited

/-- A value that is given for the first time and can be read. -/
def once {α : Type} (before : Option α) (v : Option α) : Except Stop (Option α) :=
  match before, v with
  | none, some a => .ok (some a)
  | _, _ => .error .usage

/-- A flag that is given for the first time. -/
def flag (before : Bool) : Except Stop Bool := if before then .error .usage else .ok true

/-- Takes down an option with its value. -/
def Given.take (g : Given) (o : Opt) (value : String) : Except Stop Given :=
  match o with
  | .optLevel => do return { g with optLevel := ← once g.optLevel (OptLevel.read? value) }
  | .passes => do return { g with passes := ← once g.passes (some value) }
  | .emitIr => do return { g with emitIr := ← flag g.emitIr }
  | .run => do return { g with run := ← flag g.run }
  | .values =>
    match (value.splitOn ",").mapM F32.read? with
    | some xs => .ok { g with values := g.values ++ xs }
    | none => .error .usage
  | .listPasses => do return { g with listPasses := ← flag g.listPasses }
  | .verbose => .ok { g with verbose := g.verbose + 1 }
  | .help => .error .help
  | .version => .error .version
  | .len => do return { g with len := ← once g.len (readCount? value) }
  | .input => do return { g with input := ← once g.input (readDims? value) }
  | .kernel => do return { g with kernel := ← once g.kernel (readDims? value) }
  | .stride => do return { g with stride := ← once g.stride (readDims? value) }
  | .padding => do return { g with padding := ← once g.padding (readDims? value) }

/-- The options of two places; the second one wins. -/
def Given.merge (before after : Given) : Given :=
  { after with
    optLevel := after.optLevel.or before.optLevel
    passes := after.passes.or before.passes
    emitIr := before.emitIr || after.emitIr
    run := before.run || after.run
    values := if after.values.isEmpty then before.values else after.values
    listPasses := before.listPasses || after.listPasses
    verbose := if after.verbose = 0 then before.verbose else after.verbose }

/-! ## Parsing -/

/-- What one argument amounts to. -/
inductive Word where
  /-- The end of the options. -/
  | dashes
  /-- A long option with the value after `=`, if there is one. -/
  | long (name : String) (value : Option String)
  /-- Short options. -/
  | short (letters : List Char)
  /-- Anything else. -/
  | plain (text : String)

/-- Classifies an argument. -/
def Word.ofString (s : String) : Word :=
  match s.toList with
  | ['-', '-'] => .dashes
  | '-' :: '-' :: cs =>
    match cs.dropWhile (· != '=') with
    | [] => .long (String.ofList cs) none
    | _ :: value => .long (String.ofList (cs.takeWhile (· != '='))) (some (String.ofList value))
  | '-' :: c :: cs => .short (c :: cs)
  | _ => .plain s

/-- Whether an argument can be the value of the option before it. -/
def canBeValue (s : String) : Bool :=
  match Word.ofString s with
  | .plain _ => true
  | _ => false

/-- The options of an argument.  The last one may still wait for its value. -/
def readShort (place : Option KernelName) : List Char → Given → Except Stop (Given × Option Opt)
  | [], g => .ok (g, none)
  | c :: cs, g =>
    match Opt.ofShort? c with
    | none => .error .usage
    | some o =>
      if o.isAllowed place = false then .error .usage
      else if o.takesValue then
        match cs with
        | [] => .ok (g, some o)
        | '=' :: v => do return (← g.take o (String.ofList v), none)
        | v => do return (← g.take o (String.ofList v), none)
      else do readShort place cs (← g.take o "")

/-- A long option.  It may wait for its value. -/
def readLong (place : Option KernelName) (name : String) (value : Option String) (g : Given) :
    Except Stop (Given × Option Opt) :=
  match Opt.ofLong? name with
  | none => .error .usage
  | some o =>
    if o.isAllowed place = false then .error .usage
    else
      match o.takesValue, value with
      | true, some v => do return (← g.take o v, none)
      | true, none => .ok (g, some o)
      | false, some _ => .error .usage
      | false, none => do return (← g.take o "", none)

/-- The options after a kernel. -/
def readAfter (kernel : KernelName) : (waiting : Option Opt) → List String → Given →
    Except Stop Given
  | some _, [], _ => .error .usage
  | some o, s :: rest, g => do
    if canBeValue s then readAfter kernel none rest (← g.take o s) else .error .usage
  | none, [], g => .ok g
  | none, s :: rest, g =>
    match Word.ofString s with
    | .dashes => if rest.isEmpty then .ok g else .error .usage
    | .long name value => do
      let (g, waiting) ← readLong (some kernel) name value g
      readAfter kernel waiting rest g
    | .short letters => do
      let (g, waiting) ← readShort (some kernel) letters g
      readAfter kernel waiting rest g
    | .plain _ => .error .usage

/-- The outcome of the word `help`, which takes at most one kernel or itself. -/
def helpFor : List String → Stop
  | [] => .help
  | [s] => if s == "help" || (KernelName.ofString? s).isSome then .help else .usage
  | _ => .usage

/-- The kernel with the options on both sides of it. -/
def readBefore : (waiting : Option Opt) → List String → Given →
    Except Stop (Given × Option KernelName)
  | some _, [], _ => .error .usage
  | some o, s :: rest, g => do
    if canBeValue s then readBefore none rest (← g.take o s) else .error .usage
  | none, [], g => .ok (g, none)
  | none, s :: rest, g =>
    match Word.ofString s with
    | .dashes => if rest.isEmpty then .ok (g, none) else .error .usage
    | .long name value => do
      let (g, waiting) ← readLong none name value g
      readBefore waiting rest g
    | .short letters => do
      let (g, waiting) ← readShort none letters g
      readBefore waiting rest g
    | .plain name =>
      match KernelName.ofString? name with
      | some k => do return (g.merge (← readAfter k none rest {}), some k)
      | none => .error (if name == "help" then helpFor rest else .usage)

/-! ## Requests -/

/-- A kernel with its parameters. -/
inductive KernelRequest where
  /-- A rectified linear unit over a number of elements. -/
  | relu (len : Nat)
  /-- A convolution. -/
  | conv2d (shape : Conv2d)
  /-- A max pooling. -/
  | maxpool2d (shape : MaxPool2d)
deriving Inhabited

/-- What the command line asks for. -/
structure Request where
  /-- The kernel, if one is named. -/
  kernel : Option KernelRequest
  /-- The optimization level. -/
  level : OptLevel
  /-- The pipeline that replaces that of the level. -/
  passes : Option String
  /-- Whether the program is listed aside. -/
  emitIr : Bool
  /-- Whether the kernel is executed. -/
  run : Bool
  /-- The input values, repeated as needed. -/
  values : List F32
  /-- Whether the passes are listed. -/
  listPasses : Bool
  /-- How much is reported. -/
  verbose : Nat
deriving Inhabited

/-- A parameter that must be given. -/
def demand {α : Type} : Option α → Except Stop α
  | some a => .ok a
  | none => .error .usage

/-- The parameters of a kernel.  Strides default to one, for pooling to the window. -/
def Given.kernelRequest (g : Given) : KernelName → Except Stop KernelRequest
  | .relu => do return .relu (← demand g.len)
  | .conv2d => do
    let input ← demand g.input
    let kernel ← demand g.kernel
    return .conv2d { input, kernel, stride := g.stride.getD ⟨1, 1⟩, padding := g.padding.getD ⟨0, 0⟩ }
  | .maxpool2d => do
    let input ← demand g.input
    let kernel ← demand g.kernel
    return .maxpool2d { input, kernel, stride := g.stride.getD kernel }

/-- Reads the arguments. -/
def parse (args : List String) : Except Stop Request := do
  let (g, name) ← readBefore none args {}
  let kernel ← match name with
    | some k => do pure (some (← g.kernelRequest k))
    | none => pure none
  return {
    kernel
    level := g.optLevel.getD .basic
    passes := g.passes
    emitIr := g.emitIr
    run := g.run
    values := g.values
    listPasses := g.listPasses
    verbose := g.verbose }

end CommandLine

end LoopNest
