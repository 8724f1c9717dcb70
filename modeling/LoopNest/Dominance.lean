import LoopNest.FlowGraph

/-!
# Dominance

A block dominates another when every path from the entry to the other goes through
it.  Every block dominates itself, and an unreachable block is dominated by all blocks
and dominates no other.

The strict dominators of a reachable block form a chain, so a tree says it all: each
reachable block other than the entry points to its *immediate* dominator, and the
dominators of a block are what lies on its way up to the entry.

The tree is found by iteration.  At first it holds the entry alone.  A *sweep* goes over
the other blocks in reverse post-order and puts each one below the place where the ways
up from its predecessors meet, as far as these are in the tree already.  Sweeps are
repeated until one changes nothing.  Blocks on a way up come ever earlier in reverse
post-order, so two ways up meet where a finger on each of them, the later one always
moving on, first point to the same block.

An instruction dominates another one in the same block when it comes first.
-/

namespace LoopNest

/-- The immediate dominators of the reachable blocks of a flow graph. -/
structure DomTree where
  /-- The block above each reachable block.  The entry is above itself. -/
  parents : BlockMap BlockId
  /-- The place of each reachable block in reverse post-order. -/
  places : BlockMap Nat
deriving DecidableEq, Inhabited

namespace DomTree

/-- The place of a block in reverse post-order. -/
def place (d : DomTree) (b : BlockId) : Nat := (d.places.get? b).getD 0

/-- Whether a block can be reached from the entry. -/
def isReachable (d : DomTree) (b : BlockId) : Bool := d.parents.contains b

/-- The immediate dominator of a reachable block other than the entry. -/
def idom? (d : DomTree) (b : BlockId) : Option BlockId := (d.parents.get? b).filter (· ≠ b)

/-! ## Ways up -/

/-- The first block on the way up from a block whose place is not after a limit, at most
`fuel` blocks further up. -/
def climbWithin (d : DomTree) (limit : Nat) : Nat → BlockId → BlockId
  | 0, b => b
  | fuel + 1, b =>
    if limit < d.place b then
      match d.parents.get? b with
      | some c => d.climbWithin limit fuel c
      | none => b
    else b

/-- The first block on the way up from a block whose place is not after a limit. -/
def climb (d : DomTree) (limit : Nat) (b : BlockId) : BlockId := d.climbWithin limit (d.place b) b

/-- Where the ways up from two blocks meet, after at most `fuel` turns of the two fingers. -/
def meetWithin (d : DomTree) : Nat → BlockId → BlockId → BlockId
  | 0, a, _ => a
  | fuel + 1, a, b =>
    if a = b then a
    else
      let a := d.climb (d.place b) a
      let b := d.climb (d.place a) b
      d.meetWithin fuel a b

/-- The first block that is on the ways up from two blocks. -/
def meet (d : DomTree) (a b : BlockId) : BlockId := d.meetWithin (d.place a + d.place b + 1) a b

/-- The meeting point of some blocks with one more, which counts only if it is in the tree. -/
def meetStep (d : DomTree) (found : Option BlockId) (b : BlockId) : Option BlockId :=
  if d.parents.contains b then
    match found with
    | none => some b
    | some c => some (d.meet b c)
  else found

/-- Where the ways up from those blocks of a list meet that are in the tree. -/
def meetAll? (d : DomTree) (bs : List BlockId) : Option BlockId := bs.foldl d.meetStep none

/-! ## Sweeps -/

/-- The tree with a block put below another one, if there is one, and whether that changes
anything. -/
def put (d : DomTree) (b : BlockId) : Option BlockId → DomTree × Bool
  | none => (d, false)
  | some c =>
    if d.parents.get? b = some c then (d, false)
    else ({ d with parents := d.parents.insert b c }, true)

/-- The tree with a block put below the meeting point of its predecessors, and whether that
changes anything. -/
def adjust (d : DomTree) (b : BlockId) (preds : List BlockId) : DomTree × Bool :=
  d.put b (d.meetAll? preds)

/-- Adjusts blocks in turn, each given with its predecessors. -/
def sweep (d : DomTree) : List (BlockId × List BlockId) → DomTree × Bool
  | [] => (d, false)
  | (b, preds) :: rows =>
    let (d, changed) := d.adjust b preds
    let (d, changed') := d.sweep rows
    (d, changed || changed')

/-- Sweeps until nothing changes, at most `fuel` times. -/
def settle (rows : List (BlockId × List BlockId)) : Nat → DomTree → DomTree
  | 0, d => d
  | fuel + 1, d =>
    match d.sweep rows with
    | (d, true) => settle rows fuel d
    | (d, false) => d

/-- The tree that holds the first of the given blocks, with the places of all. -/
def start (order : List BlockId) : DomTree :=
  { parents := .ofList (order.head?.toList.map fun e => (e, e)), places := .ofList order.zipIdx }

/-- The blocks that a sweep goes over, with their predecessors. -/
def rows (g : FlowGraph) : List (BlockId × List BlockId) :=
  g.reversePostOrder.tail.map fun b => (b, g.predecessors b)

/-- A number of sweeps that is always enough. -/
def enough (g : FlowGraph) : Nat := g.reversePostOrder.length * g.reversePostOrder.length + 2

/-- The dominator tree of a flow graph. -/
def ofGraph (g : FlowGraph) : DomTree := settle (rows g) (enough g) (start g.reversePostOrder)

/-- The dominator tree of a function. -/
def ofFunc (f : Func) : DomTree := ofGraph (.ofFunc f)

/-! ## Queries -/

/-- Whether every path from the entry to `b` goes through `a`. -/
def dominates (d : DomTree) (a b : BlockId) : Bool :=
  a == b || !d.isReachable b ||
    match d.places.get? a with
    | some limit => d.climb limit b == a
    | none => false

/-- Whether the first of two instructions comes before the second on every path. -/
def instDominates (d : DomTree) (f : Func) (a b : InstId) : Bool :=
  match f.owner a, f.owner b with
  | some x, some y =>
    if x ≠ y then d.dominates x y
    else
      match (f.body x).findIdx? (· = a), (f.body x).findIdx? (· = b) with
      | some i, some j => i < j
      | _, _ => false
  | _, _ => false

end DomTree

namespace FlowGraph

/-- Dominance by paths: `a` lies on every path from the entry to `b`. -/
def Dominates (g : FlowGraph) (a b : BlockId) : Prop :=
  ∀ e trail, g.entry? = some e → g.Path e b trail → a ∈ trail

end FlowGraph

end LoopNest
