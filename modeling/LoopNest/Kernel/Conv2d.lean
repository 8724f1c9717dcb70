import LoopNest.Kernel.Tensor

/-!
# Convolution

`conv2d(input, weight, output)` convolves one channel in row-major order.  The input
may be padded with zeros on all sides, and the window moves in strides.

The loop nest is `oy`, `ox`, `ky`, `kx`, all 32-bit.  An output cell is set to zero
and the products are added to it in memory.  In the padding a tap reads as `0.0`: the
coordinate is compared with the input as an unsigned number, so that a negative one
fails too, and the load goes to element 0 when it is outside.
-/

namespace LoopNest

/-- The shape of a convolution. -/
structure Conv2d where
  /-- The input. -/
  input : Dims
  /-- The weights. -/
  kernel : Dims
  /-- How far the window moves. -/
  stride : Dims
  /-- The rows and columns of zeros on each side. -/
  padding : Dims
deriving DecidableEq, Inhabited

namespace Conv2d

/-- The extent of the padded input in one dimension. -/
def paddedExtent (c : Conv2d) (dim : Dims → Nat) : Except KernelError Nat := do
  let both ← checkedU64 (2 * dim c.padding)
  checkedU64 (dim c.input + both)

/-- The extent of the output in one dimension. -/
def outputExtent (c : Conv2d) (dim : Dims → Nat) : Except KernelError Nat := do
  if dim c.kernel = 0 ∨ dim c.stride = 0 then
    let kernel := c.kernel.toText
    let stride := c.stride.toText
    .error (.invalidParameter s!"kernel {kernel} and stride {stride} must be at least 1")
  else
    let padded ← c.paddedExtent dim
    if padded < dim c.kernel then
      let input := c.input.toText
      let kernel := c.kernel.toText
      .error (.invalidParameter s!"padded input {input} smaller than kernel {kernel}")
    else
      let extent ← checkedU64 ((padded - dim c.kernel) / dim c.stride + 1)
      if extent < 2 ^ 32 then .ok extent else .error (.invalidParameter "output too large")

/-- The shape of the output. -/
def outputDims (c : Conv2d) : Except KernelError Dims := do
  let height ← c.outputExtent Dims.height
  let width ← c.outputExtent Dims.width
  return ⟨height, width⟩

/-- Whether the input is padded. -/
def isPadded (c : Conv2d) : Bool := c.padding.height != 0 || c.padding.width != 0

/-- A convolution with checked operands. -/
structure Plan where
  /-- The shape. -/
  shape : Conv2d
  /-- The shape of the output. -/
  out : Dims
  /-- The input. -/
  input : TensorOperand
  /-- The weights. -/
  weight : TensorOperand
  /-- The output. -/
  output : TensorOperand

/-- The rows that the windows reach down to, as elements of the input. -/
def rowSpan (c : Conv2d) (out : Dims) : Except KernelError Nat := do
  let first ← checkedU64 (out.height * c.stride.height)
  let last ← checkedU64 (first + c.kernel.height)
  checkedU64 (last * max c.input.width 1)

/-- Checks the operands, and that the index computations stay within 32-bit integers.  All sums and
products are computed before the first one is checked. -/
def plan (c : Conv2d) (tt : TypeTable) (input weight output : TyId) :
    Except KernelError Plan := do
  let input ← TensorOperand.classify tt "input" input
  let weight ← TensorOperand.classify tt "weight" weight
  let output ← TensorOperand.classify tt "output" output
  let out ← c.outputDims
  input.require (← checkedU64 c.input.area)
  weight.require (← checkedU64 c.kernel.area)
  output.require (← checkedU64 out.area)
  let height ← c.paddedExtent Dims.height
  let width ← c.paddedExtent Dims.width
  let inputSize ← checkedU64 c.input.area
  let outputSize ← checkedU64 out.area
  let span ← c.rowSpan out
  fitsI32 "input height" height
  fitsI32 "input width" width
  fitsI32 "input size" inputSize
  fitsI32 "output size" outputSize
  fitsI32 "row span" span
  return ⟨c, out, input, weight, output⟩

/-- The constants of the kernel. -/
structure Constants where
  /-- The integer zero. -/
  zero : Operand
  /-- The shape of the input. -/
  input : Operand × Operand
  /-- The shape of the weights. -/
  kernel : Operand × Operand
  /-- The strides. -/
  stride : Operand × Operand
  /-- The padding. -/
  padding : Operand × Operand
  /-- The shape of the output. -/
  out : Operand × Operand
  /-- The number zero. -/
  zeroF : Operand

/-- Makes the constants. -/
def constants (pl : Plan) : Build Constants := do
  let zero ← Build.i32 0
  let input ← Build.dims pl.shape.input
  let kernel ← Build.dims pl.shape.kernel
  let stride ← Build.dims pl.shape.stride
  let padding ← Build.dims pl.shape.padding
  let out ← Build.dims pl.out
  let zeroF ← Build.f32 .zero
  return { zero, input, kernel, stride, padding, out, zeroF }

/-- Loads the input at a row and column of the padded input. -/
def loadPadded (k : Constants) (here : BlockId) (src iy ix : Operand) : Build Operand := do
  let y ← Build.binary here .sub iy k.padding.1 "py"
  let x ← Build.binary here .sub ix k.padding.2 "px"
  let yIn ← Build.icmp here .ult y k.input.1 "py.in"
  let xIn ← Build.icmp here .ult x k.input.2 "px.in"
  let inside ← Build.binary here .and yIn xIn "inside"
  let row ← Build.mul here y k.input.2 "in.row"
  let idx ← Build.add here row x "in.idx"
  let safe ← Build.select here inside idx k.zero "in.safe"
  let ptr ← Build.gep here src safe "in.addr"
  let raw ← Build.load here ptr "x.raw"
  Build.select here inside raw k.zeroF "x"

/-- Loads the input at a row and column. -/
def loadPlain (k : Constants) (here : BlockId) (src iy ix : Operand) : Build Operand := do
  let row ← Build.mul here iy k.input.2 "in.row"
  let idx ← Build.add here row ix "in.idx"
  let ptr ← Build.gep here src idx "in.addr"
  Build.load here ptr "x"

/-- Adds the product of one tap to an output cell. -/
def tap (k : Constants) (padded : Bool) (here : BlockId) (src wts dst oy ox ky kx cell : Operand) :
    Build Unit := do
  let oyS ← Build.mul here oy k.stride.1 "iy.base"
  let iy ← Build.add here oyS ky "iy"
  let oxS ← Build.mul here ox k.stride.2 "ix.base"
  let ix ← Build.add here oxS kx "ix"
  let x ← if padded then loadPadded k here src iy ix else loadPlain k here src iy ix
  let wRow ← Build.mul here ky k.kernel.2 "w.row"
  let wIdx ← Build.add here wRow kx "w.idx"
  let wPtr ← Build.gep here wts wIdx "w.addr"
  let w ← Build.load here wPtr "w"
  let prod ← Build.binary here .fmul x w "prod"
  let accPtr ← Build.gep here dst cell "acc.addr"
  let acc ← Build.load here accPtr "acc"
  let sum ← Build.binary here .fadd acc prod "sum"
  Build.store here sum accPtr

/-- The code of the kernel. -/
def code (pl : Plan) : Build Unit := do
  let entry ← Build.block "entry"
  let src ← pl.input.elements entry 0
  let wts ← pl.weight.elements entry 1
  let dst ← pl.output.elements entry 2
  let k ← constants pl
  let oyLoop ← Build.loop entry k.zero k.out.1 "oy" fun body oy => do
    let oxLoop ← Build.loop body k.zero k.out.2 "ox" fun body ox => do
      let row ← Build.mul body oy k.out.2 "out.row"
      let cell ← Build.add body row ox "out.idx"
      let outPtr ← Build.gep body dst cell "out.addr"
      Build.store body k.zeroF outPtr
      let kyLoop ← Build.loop body k.zero k.kernel.1 "ky" fun body ky => do
        let kxLoop ← Build.loop body k.zero k.kernel.2 "kx" fun body kx => do
          tap k pl.shape.isPadded body src wts dst oy ox ky kx cell
          return body
        return kxLoop.exit
      return kyLoop.exit
    return oxLoop.exit
  Build.ret oyLoop.exit none

/-- The report on the kernel. -/
def report (pl : Plan) (f : Func) : String :=
  "built conv2d " ++ pl.shape.input.crossText ++ " * " ++ pl.shape.kernel.crossText ++ " -> " ++ pl.out.crossText ++
    ": " ++ toString f.instCount ++ " instructions"

end Conv2d

/-- Adds a convolution to a program. -/
def Kernel.conv2d (p : Program) (input weight output : TyId) (c : Conv2d) : Generated :=
  match c.plan p.types input weight output with
  | .error e => refuse p e
  | .ok pl =>
    generate p "conv2d" [pl.input, pl.weight, pl.output] (Conv2d.code pl) (Conv2d.report pl)

end LoopNest
