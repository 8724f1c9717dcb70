import LoopNest.BlockMap
import LoopNest.Func.Basic

/-!
# Flow graphs

The flow graph of a function is a snapshot of its branch edges: the live blocks
in layout order, each with its successors.  The predecessors of a block are read
off the same list, so they come in layout order too.

A depth-first search visits a block at most once and its successors in order.  It
puts a block in front of the finished ones when all its successors are finished,
so the finished list of a search from the entry is a reverse post-order: the
entry comes first, and an edge points backwards in the list only if it closes a
cycle.  Edges to blocks that are not live are ignored.

A search can also start with some blocks marked as visited, and then finds what is
reachable around them.  The blocks of a loop are found that way.

The recursion of the search is as deep as the path it follows, and a path that
visits no block twice is no longer than the layout.
-/

namespace LoopNest

/-- The branch edges of a function. -/
structure FlowGraph where
  /-- The live blocks in layout order, each with its successors. -/
  edges : List (BlockId × List BlockId)
deriving DecidableEq, Inhabited

namespace FlowGraph

/-- The flow graph of a function. -/
def ofFunc (f : Func) : FlowGraph := ⟨f.layout.map fun b => (b, f.successors b)⟩

/-- The live blocks, in layout order. -/
def blocks (g : FlowGraph) : List BlockId := g.edges.map Prod.fst

/-- The block where execution starts. -/
def entry? (g : FlowGraph) : Option BlockId := g.blocks.head?

/-- The successors of a block, none if it is not live. -/
def successors (g : FlowGraph) (b : BlockId) : List BlockId := (g.edges.lookup b).getD []

/-- The live blocks that branch to a block, in layout order. -/
def predecessors (g : FlowGraph) (b : BlockId) : List BlockId :=
  (g.edges.filter fun e => e.2.contains b).map Prod.fst

/-- Whether a block is live. -/
def isLive (g : FlowGraph) (b : BlockId) : Bool := g.blocks.contains b

/-- The successors of all live blocks as a map. -/
def index (g : FlowGraph) : BlockMap (List BlockId) := .ofList g.edges

/-! ## Depth-first search -/

/-- The progress of a search. -/
structure Search where
  /-- The blocks that were entered, and those that the search had to avoid. -/
  visited : BlockSet
  /-- The blocks whose successors are all done, last finished first. -/
  finished : List BlockId
deriving DecidableEq, Inhabited

/-- A search before its first block, with blocks that it has to avoid. -/
def Search.avoiding (avoided : List BlockId) : Search := ⟨.ofList (avoided.map (·, ())), []⟩

/-- Visits a block and, unless it was visited before, what it leads to.  The map gives the
successors of the live blocks. -/
def visit (rows : BlockMap (List BlockId)) : Nat → BlockId → Search → Search
  | 0, _, s => s
  | fuel + 1, b, s =>
    if s.visited.contains b then s
    else
      match rows.get? b with
      | none => s
      | some next =>
        let s := next.foldl (fun s c => visit rows fuel c s)
          { s with visited := s.visited.insert b () }
        { s with finished := b :: s.finished }

/-- Searches from some blocks in turn. -/
def searchFrom (g : FlowGraph) (starts : List BlockId) (s : Search) : Search :=
  let rows := g.index
  starts.foldl (fun s b => visit rows (g.edges.length + 1) b s) s

/-- Searches from the entry, never entering the given blocks. -/
def searchAvoiding (g : FlowGraph) (avoided : List BlockId) : Search :=
  g.searchFrom g.entry?.toList (.avoiding avoided)

/-- The blocks that are reachable from the entry, in reverse post-order. -/
def reversePostOrder (g : FlowGraph) : List BlockId := (g.searchAvoiding []).finished

/-- Whether a block can be reached from the entry. -/
def isReachable (g : FlowGraph) (b : BlockId) : Bool := g.reversePostOrder.contains b

/-! ## Paths

The search is measured against paths, which know nothing of it. -/

/-- An edge between two live blocks. -/
def Edge (g : FlowGraph) (a b : BlockId) : Prop :=
  a ∈ g.blocks ∧ b ∈ g.blocks ∧ b ∈ g.successors a

/-- `Path g a b trail` says that `trail` lists the blocks of a path from `a` to `b`, both
included. -/
inductive Path (g : FlowGraph) : BlockId → BlockId → List BlockId → Prop where
  /-- The path that stays in one live block. -/
  | here {a : BlockId} : a ∈ g.blocks → Path g a a [a]
  /-- A path that starts with an edge. -/
  | step {a b c : BlockId} {trail : List BlockId} :
      g.Edge a b → Path g b c trail → Path g a c (a :: trail)

/-- The predecessors in the snapshot are those of the function. -/
theorem predecessors_ofFunc (f : Func) (b : BlockId) :
    (ofFunc f).predecessors b = f.predecessors b := by
  simp only [predecessors, ofFunc, Func.predecessors, List.filter_map, List.map_map]
  simp [Function.comp_def]

/-- The live blocks in the snapshot are the layout. -/
theorem blocks_ofFunc (f : Func) : (ofFunc f).blocks = f.layout := by
  simp [blocks, ofFunc, Function.comp_def]

end FlowGraph

end LoopNest
