import LoopNest.Func.Basic

/-!
# Memory dependence

Every pointer is traced back through casts and pointer steps to its *root*: a
parameter, a stack slot, or something unknown.  Two different parameters are disjoint
only if both are marked `noalias`, and a stack slot meets nothing but itself.  No other
independence is inferred.

The *offset* of a pointer is zero at the root, or the index of the one pointer step
from it; anything longer is unknown.

The way to the root is *lost* when it comes to an operand that names an instruction
which does not exist, or goes in a circle.

Two accesses may conflict unless both only read, their roots are disjoint, or they use
the same index on the same root.  The last rule is about different iterations of a
loop in which the index never repeats, which whoever applies it has to make sure.
-/

namespace LoopNest

/-- Where a pointer points into. -/
inductive MemRoot where
  /-- The memory behind a parameter. -/
  | param (index : Nat) (noalias : Bool)
  /-- A stack slot. -/
  | alloca (i : InstId)
  /-- Anything. -/
  | unknown
deriving DecidableEq, Inhabited

/-- Whether two roots may be the same memory. -/
def MemRoot.mayAlias : MemRoot → MemRoot → Bool
  | .unknown, _ => true
  | _, .unknown => true
  | .param a na, .param b nb => a == b || !(na && nb)
  | a, b => a == b

/-- Where a pointer is relative to its root. -/
inductive Offset where
  /-- At the root. -/
  | zero
  /-- One pointer step from the root. -/
  | index (v : Operand)
  /-- Somewhere. -/
  | unknown
deriving DecidableEq, Inhabited

/-- A pointer as root and offset. -/
structure Place where
  /-- What it points into. -/
  root : MemRoot
  /-- Where in it. -/
  offset : Offset
deriving DecidableEq, Inhabited

/-- A pointer about which nothing is known. -/
def Place.unknown : Place := ⟨.unknown, .unknown⟩

/-- The place after a cast: the same one at the root, unknown inside the root elsewhere. -/
def Place.cast (p : Place) : Place := ⟨p.root, if p.offset = .zero then .zero else .unknown⟩

/-- The place after a pointer step. -/
def Place.step (p : Place) (index : Operand) : Place :=
  ⟨p.root, if p.offset = .zero then .index index else .unknown⟩

namespace Func

/-- The place of a pointer, following at most `fuel` instructions. -/
def placeWithin (f : Func) : Nat → Operand → Place
  | _, .param k =>
    match f.params[k]? with
    | some p => ⟨.param k p.noalias, .zero⟩
    | none => .unknown
  | _, .const _ => .unknown
  | 0, .inst _ => .unknown
  | fuel + 1, .inst i =>
    match f.op i with
    | .alloca _ _ => if i < f.insts.size then ⟨.alloca i, .zero⟩ else .unknown
    | .bitcast v => (f.placeWithin fuel v).cast
    | .gep base index => (f.placeWithin fuel base).step index
    | _ => .unknown

/-- The place of a pointer. -/
def place (f : Func) (ptr : Operand) : Place := f.placeWithin (f.insts.size + 1) ptr

/-- Whether the way from a pointer to its root is lost, or longer than `fuel` instructions. -/
def lostWithin (f : Func) : Nat → Operand → Bool
  | 0, .inst _ => true
  | fuel + 1, .inst i =>
    if f.insts.size ≤ i then true
    else
      match f.op i with
      | .bitcast v => f.lostWithin fuel v
      | .gep base _ => f.lostWithin fuel base
      | _ => false
  | _, _ => false

/-- Whether the way from a pointer to its root is lost.  One that is longer than the list of
instructions goes in a circle. -/
def isLost (f : Func) (ptr : Operand) : Bool := f.lostWithin (f.insts.size + 1) ptr

end Func

/-! ## Accesses -/

/-- What an access does. -/
inductive AccessKind where
  /-- A load. -/
  | read
  /-- A store. -/
  | write
  /-- A call, which may do both. -/
  | readWrite
deriving DecidableEq, Inhabited

namespace AccessKind

/-- Whether memory may be read. -/
def reads : AccessKind → Bool
  | .write => false
  | _ => true

/-- Whether memory may be written. -/
def writes : AccessKind → Bool
  | .read => false
  | _ => true

end AccessKind

/-- An instruction that touches memory. -/
structure MemAccess where
  /-- The instruction. -/
  inst : InstId
  /-- What it does. -/
  kind : AccessKind
  /-- Where. -/
  place : Place
deriving DecidableEq, Inhabited

namespace MemAccess

/-- The access of an instruction. -/
def ofInst? (f : Func) (i : InstId) : Option MemAccess :=
  match f.op i with
  | .load p => some ⟨i, .read, f.place p⟩
  | .store _ p => some ⟨i, .write, f.place p⟩
  | .call _ _ => some ⟨i, .readWrite, .unknown⟩
  | _ => none

/-- The accesses of some blocks, in order. -/
def ofBlocks (f : Func) (bs : List BlockId) : List MemAccess :=
  (bs.flatMap f.body).filterMap (ofInst? f)

/-- Whether the way from a pointer to its root is lost for an access in some blocks. -/
def anyLost (f : Func) (bs : List BlockId) : Bool :=
  (bs.flatMap f.body).any fun i =>
    match f.op i with
    | .load p => f.isLost p
    | .store _ p => f.isLost p
    | _ => false

/-- Whether two accesses may depend on one another across iterations. -/
def mayConflict (a b : MemAccess) : Bool :=
  (a.kind.writes || b.kind.writes) && a.place.root.mayAlias b.place.root &&
    match a.place.offset, b.place.offset with
    | .index x, .index y =>
      x != y || a.place.root != b.place.root || a.place.root == .unknown || a.kind == .readWrite
    | _, _ => true

end MemAccess

end LoopNest
