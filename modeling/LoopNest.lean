import LoopNest.BlockMap
import LoopNest.BuildError
import LoopNest.Builder
import LoopNest.CommandLine.Args
import LoopNest.CommandLine.Run
import LoopNest.Dependence
import LoopNest.Dominance
import LoopNest.F32.Basic
import LoopNest.F32.Decimal
import LoopNest.F32.Text
import LoopNest.FlowGraph
import LoopNest.Func.Basic
import LoopNest.Func.Edit
import LoopNest.Inst
import LoopNest.Kernel.Conv2d
import LoopNest.Kernel.Loop
import LoopNest.Kernel.MaxPool2d
import LoopNest.Kernel.Relu
import LoopNest.Kernel.Tensor
import LoopNest.Listing
import LoopNest.Log
import LoopNest.Loop.Affine
import LoopNest.Loop.Counted
import LoopNest.Loop.Forest
import LoopNest.Machine.Access
import LoopNest.Machine.Arith
import LoopNest.Machine.Datum
import LoopNest.Machine.Memory
import LoopNest.Machine.Step
import LoopNest.Main
import LoopNest.Pass.Basic
import LoopNest.Pass.Fusion
import LoopNest.Pass.Padding
import LoopNest.Pass.Pipeline
import LoopNest.Pass.Vectorize.Apply
import LoopNest.Pass.Vectorize.Plan
import LoopNest.Pool
import LoopNest.Program
import LoopNest.Text.Blank
import LoopNest.Ty.Basic
import LoopNest.Ty.Layout
import LoopNest.Ty.Text
import LoopNest.Typing
import LoopNest.Verify
import LoopNest.Proofs.Accepted
import LoopNest.Proofs.Dependence
import LoopNest.Proofs.Func.Available
import LoopNest.Proofs.Func.Edit
import LoopNest.Proofs.Func.Grow
import LoopNest.Proofs.Func.Traces
import LoopNest.Proofs.Fusion.Moved
import LoopNest.Proofs.Fusion.Nest
import LoopNest.Proofs.Fusion.Preserves
import LoopNest.Proofs.Fusion.Replay
import LoopNest.Proofs.Fusion.Unnested
import LoopNest.Proofs.Fusion.Settled
import LoopNest.Proofs.Graph.Dominance
import LoopNest.Proofs.Graph.Forest
import LoopNest.Proofs.Graph.Loops
import LoopNest.Proofs.Graph.Order
import LoopNest.Proofs.Graph.Paths
import LoopNest.Proofs.Graph.Search
import LoopNest.Proofs.Loop.Counted
import LoopNest.Proofs.Loop.Searched
import LoopNest.Proofs.Loop.Strides
import LoopNest.Proofs.Loop.Trips
import LoopNest.Proofs.Machine.Arith
import LoopNest.Proofs.Machine.Bytes
import LoopNest.Proofs.Machine.Coherent
import LoopNest.Proofs.Machine.Compute
import LoopNest.Proofs.Machine.Defined
import LoopNest.Proofs.Machine.Extends
import LoopNest.Proofs.Machine.Lockstep
import LoopNest.Proofs.Machine.Longer
import LoopNest.Proofs.Machine.PointsTo
import LoopNest.Proofs.Machine.Recent
import LoopNest.Proofs.Machine.Runs
import LoopNest.Proofs.Machine.Sound
import LoopNest.Proofs.Machine.Steps
import LoopNest.Proofs.Padding.Accepted
import LoopNest.Proofs.Padding.Blocks
import LoopNest.Proofs.Padding.Mirrors
import LoopNest.Proofs.Padding.Planned
import LoopNest.Proofs.Padding.Preserves
import LoopNest.Proofs.Padding.Replaced
import LoopNest.Proofs.Ty.Extends
import LoopNest.Proofs.Typing
import LoopNest.Proofs.Typing.Extends
import LoopNest.Proofs.Verified
import LoopNest.Proofs.Builder.Checked
import LoopNest.Proofs.Func.Erase
import LoopNest.Proofs.Func.Insert
import LoopNest.Proofs.Func.Rooted
import LoopNest.Proofs.Typing.Rules
import LoopNest.Proofs.Vectorize.Body
import LoopNest.Proofs.Vectorize.Copied
import LoopNest.Proofs.Vectorize.Filled
import LoopNest.Proofs.Vectorize.Preamble
import LoopNest.Proofs.Vectorize.Spliced
import LoopNest.Proofs.Kernel.Conv2d
import LoopNest.Proofs.Kernel.Overflow
import LoopNest.Proofs.Kernel.MaxPool2d
import LoopNest.Proofs.Builder.Draws
import LoopNest.Proofs.Kernel.Relu
import LoopNest.Proofs.Pass.Pipeline
import LoopNest.Proofs.Vectorize.Rooted
import LoopNest.Proofs.Vectorize.Shapes
import LoopNest.Proofs.Vectorize.Contiguous
import LoopNest.Proofs.Builder.Calls
import LoopNest.Proofs.Builder.Laid
import LoopNest.Proofs.Builder.Shape
import LoopNest.Proofs.Loop.Independent
import LoopNest.Proofs.Builder.Scope
import LoopNest.Proofs.Builder.Keeps
import LoopNest.Proofs.Kernel.Accepted
import LoopNest.Proofs.Graph.Exchange
import LoopNest.Proofs.Vectorize.Flow
import LoopNest.Proofs.Vectorize.Framed
import LoopNest.Proofs.Vectorize.Accepted
import LoopNest.Proofs.Vectorize.Verified
import LoopNest.Proofs.Machine.Activations
import LoopNest.Proofs.Loop.Tours
import LoopNest.Proofs.Loop.TripCounts
import LoopNest.Proofs.Loop.StrideTours
import LoopNest.Proofs.Graph.Innermost
import LoopNest.Proofs.Vectorize.Untouched
import LoopNest.Proofs.Vectorize.Apart
import LoopNest.Proofs.Func.Grounded
import LoopNest.Proofs.Vectorize.Innermost
import LoopNest.Proofs.Vectorize.Rewritten
import LoopNest.Proofs.Vectorize.Settled
import LoopNest.Proofs.Vectorize.Ended
import LoopNest.Proofs.Machine.Stores
import LoopNest.Proofs.Names
import LoopNest.Proofs.Vectorize.Split
import LoopNest.Proofs.Fusion.Decided
import LoopNest.Proofs.Machine.Word
import LoopNest.Proofs.Ty.Indexed
import LoopNest.Proofs.Ty.Tree
import LoopNest.Proofs.Ty.Layout
import LoopNest.Proofs.Func.Linked
import LoopNest.Proofs.Graph.Snapshot
import LoopNest.Proofs.Kernel.Optimized
import LoopNest.Proofs.Vectorize.Preserves
