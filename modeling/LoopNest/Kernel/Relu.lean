import LoopNest.Kernel.Tensor

/-!
# Rectified linear unit

`relu(input, output)` sets `output[i]` to `input[i]` where that is greater than
zero, and to `0.0` elsewhere.  The comparison is ordered, so a NaN gives `0.0`.
One 64-bit loop goes over the elements.

The number of elements is given, or taken from an array-typed input.
-/

namespace LoopNest

namespace Relu

/-- The elements that the kernel goes over. -/
structure Plan where
  /-- The input. -/
  input : TensorOperand
  /-- The output. -/
  output : TensorOperand
  /-- The number of elements. -/
  length : Nat

/-- Checks the operands and settles the length. -/
def plan (tt : TypeTable) (input output : TyId) (length : Option Nat) :
    Except KernelError Plan := do
  let input ← TensorOperand.classify tt "input" input
  let output ← TensorOperand.classify tt "output" output
  match length.or input.length with
  | none => .error .missingLength
  | some n =>
    input.require n
    output.require n
    return ⟨input, output, n⟩

/-- The code of the kernel. -/
def code (pl : Plan) : Build Unit := do
  let entry ← Build.block "entry"
  let src ← pl.input.elements entry 0
  let dst ← pl.output.elements entry 1
  let zero ← Build.i64 0
  let n ← Build.i64 (Int64.ofNat pl.length)
  let zeroF ← Build.f32 .zero
  let l ← Build.loop entry zero n "i" fun body i => do
    let px ← Build.gep body src i "x.addr"
    let x ← Build.load body px "x"
    let positive ← Build.fcmp body .ogt x zeroF "positive"
    let y ← Build.select body positive x zeroF "y"
    let py ← Build.gep body dst i "y.addr"
    Build.store body y py
    return body
  Build.ret l.exit none

/-- The report on the kernel. -/
def report (pl : Plan) (f : Func) : String :=
  let n := pl.length
  let blocks := f.layout.length
  let insts := f.instCount
  s!"built relu over {n} elements: {blocks} blocks, {insts} instructions"

end Relu

/-- Adds a rectified linear unit to a program. -/
def Kernel.relu (p : Program) (input output : TyId) (length : Option Nat) : Generated :=
  match Relu.plan p.types input output length with
  | .error e => refuse p e
  | .ok pl => generate p "relu" [pl.input, pl.output] (Relu.code pl) (Relu.report pl)

end LoopNest
