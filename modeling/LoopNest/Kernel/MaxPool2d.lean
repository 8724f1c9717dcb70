import LoopNest.Kernel.Tensor

/-!
# Max pooling

`maxpool2d(input, output)` takes the largest element of each window.  The loop nest
is `oy`, `ox`, `ky`, `kx`, all 32-bit.  The running maximum lives in a stack slot,
which is reset to negative infinity for every output cell, and is written to the
output when the window is done.  An element replaces the maximum only if it is
greater, so NaNs are skipped.
-/

namespace LoopNest

/-- The shape of a pooling. -/
structure MaxPool2d where
  /-- The input. -/
  input : Dims
  /-- The window. -/
  kernel : Dims
  /-- How far the window moves. -/
  stride : Dims
deriving DecidableEq, Inhabited

namespace MaxPool2d

/-- The extent of the output in one dimension. -/
def outputExtent (c : MaxPool2d) (dim : Dims → Nat) : Except KernelError Nat :=
  let kernel := c.kernel.toText
  if dim c.kernel = 0 ∨ dim c.stride = 0 then
    let stride := c.stride.toText
    .error (.invalidParameter s!"pooling window {kernel} and stride {stride} must be at least 1")
  else if dim c.input < dim c.kernel then
    let input := c.input.toText
    .error (.invalidParameter s!"input {input} smaller than pooling window {kernel}")
  else
    .ok ((dim c.input - dim c.kernel) / dim c.stride + 1)

/-- The shape of the output. -/
def outputDims (c : MaxPool2d) : Except KernelError Dims := do
  let height ← c.outputExtent Dims.height
  let width ← c.outputExtent Dims.width
  return ⟨height, width⟩

/-- A pooling with checked operands. -/
structure Plan where
  /-- The shape. -/
  shape : MaxPool2d
  /-- The shape of the output. -/
  out : Dims
  /-- The input. -/
  input : TensorOperand
  /-- The output. -/
  output : TensorOperand

/-- Checks the operands, and that the index computations stay within 32-bit integers. -/
def plan (c : MaxPool2d) (tt : TypeTable) (input output : TyId) : Except KernelError Plan := do
  let input ← TensorOperand.classify tt "input" input
  let output ← TensorOperand.classify tt "output" output
  let out ← c.outputDims
  input.require c.input.area
  output.require out.area
  fitsI32 "input size" c.input.area
  fitsI32 "stride"
    (max c.stride.height c.stride.width * max c.input.height c.input.width)
  return ⟨c, out, input, output⟩

/-- The constants of the kernel. -/
structure Constants where
  /-- The integer zero. -/
  zero : Operand
  /-- The width of the input. -/
  inputWidth : Operand
  /-- The shape of the window. -/
  kernel : Operand × Operand
  /-- The strides. -/
  stride : Operand × Operand
  /-- The shape of the output. -/
  out : Operand × Operand
  /-- Negative infinity. -/
  negInf : Operand

/-- Makes the constants. -/
def constants (pl : Plan) : Build Constants := do
  let zero ← Build.i32 0
  let inputWidth ← Build.dim pl.shape.input.width
  let kernel ← Build.dims pl.shape.kernel
  let stride ← Build.dims pl.shape.stride
  let out ← Build.dims pl.out
  let negInf ← Build.f32 .negInfinity
  return { zero, inputWidth, kernel, stride, out, negInf }

/-- Compares one element with the running maximum. -/
def tap (k : Constants) (here : BlockId) (src slot oy ox ky kx : Operand) : Build Unit := do
  let oyS ← Build.mul here oy k.stride.1 "iy.base"
  let iy ← Build.add here oyS ky "iy"
  let oxS ← Build.mul here ox k.stride.2 "ix.base"
  let ix ← Build.add here oxS kx "ix"
  let row ← Build.mul here iy k.inputWidth "in.row"
  let idx ← Build.add here row ix "in.idx"
  let ptr ← Build.gep here src idx "in.addr"
  let x ← Build.load here ptr "x"
  let cur ← Build.load here slot "max"
  let greater ← Build.fcmp here .ogt x cur "greater"
  let next ← Build.select here greater x cur "max.next"
  Build.store here next slot

/-- Writes the maximum to its output cell. -/
def writeCell (k : Constants) (here : BlockId) (dst slot oy ox : Operand) : Build Unit := do
  let result ← Build.load here slot "max.final"
  let row ← Build.mul here oy k.out.2 "out.row"
  let cell ← Build.add here row ox "out.idx"
  let ptr ← Build.gep here dst cell "out.addr"
  Build.store here result ptr

/-- The code of the kernel. -/
def code (pl : Plan) : Build Unit := do
  let f32 ← Build.intern (.scalar .f32)
  let entry ← Build.block "entry"
  let src ← pl.input.elements entry 0
  let dst ← pl.output.elements entry 1
  let slot ← Build.alloca entry f32 4 "max.slot"
  let k ← constants pl
  let oyLoop ← Build.loop entry k.zero k.out.1 "oy" fun body oy => do
    let oxLoop ← Build.loop body k.zero k.out.2 "ox" fun body ox => do
      Build.store body k.negInf slot
      let kyLoop ← Build.loop body k.zero k.kernel.1 "ky" fun body ky => do
        let kxLoop ← Build.loop body k.zero k.kernel.2 "kx" fun body kx => do
          tap k body src slot oy ox ky kx
          return body
        return kxLoop.exit
      writeCell k kyLoop.exit dst slot oy ox
      return kyLoop.exit
    return oxLoop.exit
  Build.ret oyLoop.exit none

/-- The report on the kernel. -/
def report (pl : Plan) (f : Func) : String :=
  "built maxpool2d window " ++ pl.shape.kernel.crossText ++ " stride " ++ pl.shape.stride.crossText ++ " -> " ++
    pl.out.crossText ++ ": " ++ toString f.instCount ++ " instructions"

end MaxPool2d

/-- Adds a max pooling to a program. -/
def Kernel.maxPool2d (p : Program) (input output : TyId) (c : MaxPool2d) : Generated :=
  match c.plan p.types input output with
  | .error e => refuse p e
  | .ok pl => generate p "maxpool2d" [pl.input, pl.output] (MaxPool2d.code pl) (MaxPool2d.report pl)

end LoopNest
