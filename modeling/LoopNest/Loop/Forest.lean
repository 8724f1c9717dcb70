import LoopNest.Dominance

/-!
# Natural loops

A back edge leads from a block, the *latch*, to a block that dominates it, the
*header*.  All back edges to one header make one loop: the header and the blocks that
reach a latch without passing through the header.  Only reachable blocks count.

Two loops with different headers are either disjoint or nested.  The parent of a loop
is the smallest larger loop that contains its header.  The forest numbers the loops
in the reverse post-order of their headers, so that a parent comes before its
children.
-/

namespace LoopNest

/-- The number of a loop in its forest. -/
abbrev LoopId := Nat

/-- The header, latches and blocks of a loop. -/
structure NaturalLoop where
  /-- The block through which the loop is entered. -/
  header : BlockId
  /-- The sources of the back edges, in layout order. -/
  latches : List BlockId
  /-- All blocks of the loop, nested loops included, in layout order. -/
  blocks : List BlockId
deriving DecidableEq, Inhabited

namespace NaturalLoop

/-- Whether a block belongs to the loop. -/
def contains (l : NaturalLoop) (b : BlockId) : Bool := l.blocks.contains b

/-- The blocks outside the loop that it branches to, each once. -/
def exits (l : NaturalLoop) (f : Func) : List BlockId :=
  ((l.blocks.flatMap f.successors).filter fun s => !l.contains s).eraseDups

/-- The blocks of the loop that branch out of it. -/
def exitingBlocks (l : NaturalLoop) (f : Func) : List BlockId :=
  l.blocks.filter fun b => (f.successors b).any fun s => !l.contains s

end NaturalLoop

/-- The edges of a graph between reachable blocks, turned around. -/
def FlowGraph.backward (g : FlowGraph) : FlowGraph :=
  let reachable := g.reversePostOrder
  ⟨reachable.map fun b => (b, (g.predecessors b).filter reachable.contains)⟩

namespace LoopForest

/-- The sources of back edges to a block, in layout order. -/
def latchesOf (g : FlowGraph) (dom : DomTree) (header : BlockId) : List BlockId :=
  (g.predecessors header).filter fun p => dom.isReachable p && dom.dominates header p

/-- The header and the blocks that lead to a latch around it. -/
def membersOf (back : FlowGraph) (header : BlockId) (latches : List BlockId) : BlockSet :=
  (back.searchFrom latches (.avoiding [header])).visited

/-- The loop with a given header, if it has a back edge. -/
def loopAt? (g back : FlowGraph) (dom : DomTree) (header : BlockId) : Option NaturalLoop :=
  let latches := latchesOf g dom header
  if latches.isEmpty then none
  else
    let members := membersOf back header latches
    some ⟨header, latches, g.blocks.filter members.contains⟩

end LoopForest

/-- The loops of a function. -/
structure LoopForest where
  /-- The loops, in the reverse post-order of their headers. -/
  loops : Array NaturalLoop
deriving DecidableEq, Inhabited

namespace LoopForest

/-- The loops of a flow graph. -/
def ofGraph (g : FlowGraph) (dom : DomTree) : LoopForest :=
  let back := g.backward
  ⟨(g.reversePostOrder.filterMap (loopAt? g back dom)).toArray⟩

/-- The loops of a function. -/
def ofFunc (f : Func) : LoopForest :=
  let g := FlowGraph.ofFunc f
  ofGraph g (.ofGraph g)

/-- The numbers of all loops. -/
def ids (t : LoopForest) : List LoopId := List.range t.loops.size

/-- The loop under a number, an empty one for a number without a loop. -/
def loop (t : LoopForest) (l : LoopId) : NaturalLoop := t.loops[l]?.getD ⟨0, [], []⟩

/-- The number of blocks of a loop. -/
def size (t : LoopForest) (l : LoopId) : Nat := (t.loop l).blocks.length

/-- The first loop of the smallest size. -/
def smallest (t : LoopForest) (ls : List LoopId) : Option LoopId :=
  ls.foldl (fun best l =>
    match best with
    | none => some l
    | some b => if t.size l < t.size b then some l else best) none

/-- The loop around a loop. -/
def parent? (t : LoopForest) (l : LoopId) : Option LoopId :=
  t.smallest (t.ids.filter fun o =>
    o != l && t.size l < t.size o && (t.loop o).contains (t.loop l).header)

/-- The loops directly inside a loop. -/
def children (t : LoopForest) (l : LoopId) : List LoopId :=
  t.ids.filter fun o => t.parent? o == some l

/-- The loops that are inside no other. -/
def topLevel (t : LoopForest) : List LoopId := t.ids.filter fun l => (t.parent? l).isNone

/-- Whether a loop has no loop inside. -/
def isInnermost (t : LoopForest) (l : LoopId) : Bool := (t.children l).isEmpty

/-- The loops that have no loop inside. -/
def innermost (t : LoopForest) : List LoopId := t.ids.filter t.isInnermost

/-- The innermost loop around a block. -/
def loopOf? (t : LoopForest) (b : BlockId) : Option LoopId :=
  t.smallest (t.ids.filter fun l => (t.loop l).contains b)

/-- The number of loops from a loop up to the outermost, at most `fuel`. -/
def depthWithin (t : LoopForest) : Nat → LoopId → Nat
  | 0, _ => 0
  | fuel + 1, l =>
    match t.parent? l with
    | some p => t.depthWithin fuel p + 1
    | none => 1

/-- The nesting depth of a loop, 1 for one that is inside no other. -/
def depth (t : LoopForest) (l : LoopId) : Nat := t.depthWithin t.loops.size l

end LoopForest

end LoopNest
