import LoopNest.Loop.Forest

/-!
# Index expressions in loops

A value is *invariant* in a loop when it is a parameter, a constant, or computed
outside the loop in a block that dominates the header.

The *stride* of a value is the factor `c` for which the value is `c` times the
induction value plus something invariant.  It is found through sums, differences
and products with a constant, and must fit into 64 bits.

The search gets stuck when it comes to an operand that names an instruction which
does not exist, asks for the value of a constant which does not exist, or goes in a
circle.
-/

namespace LoopNest

/-- A 64-bit integer from one that must be in range. -/
def checkedI64 (v : Int) : Option Int64 :=
  if -2 ^ 63 ≤ v ∧ v < 2 ^ 63 then some (Int64.ofInt v) else none

/-- Whether an operand names an instruction that does not exist. -/
def Func.lacksInst (f : Func) : Operand → Bool
  | .inst i => f.insts.size ≤ i
  | _ => false

/-- Whether an operand names a constant that does not exist. -/
def Func.lacksConst (f : Func) : Operand → Bool
  | .const c => f.constants.size ≤ c
  | _ => false

namespace NaturalLoop

/-- Whether a value stays the same while the loop runs. -/
def isInvariant (l : NaturalLoop) (f : Func) (dom : DomTree) : Operand → Bool
  | .inst i =>
    match f.owner i with
    | some b => !l.contains b && dom.dominates b l.header
    | none => false
  | _ => true

/-- The stride of a product, from the strides of its factors. -/
def productStride (f : Func) (lhs rhs : Operand) (ls rs : Int64) : Option Int64 :=
  if rs = 0 then
    if ls = 0 then some 0
    else do checkedI64 ((← f.intLiteral? rhs).toInt * ls.toInt)
  else if ls = 0 then do checkedI64 ((← f.intLiteral? lhs).toInt * rs.toInt)
  else none

/-- The stride of a value, following operands at most `fuel` deep. -/
def strideWithin (l : NaturalLoop) (f : Func) (dom : DomTree) (iv : Operand) :
    Nat → Operand → Option Int64
  | 0, _ => none
  | fuel + 1, v =>
    if v = iv then some 1
    else if l.isInvariant f dom v then some 0
    else
      match v with
      | .inst i =>
        match f.op i with
        | .binary .add lhs rhs => do
          let ls ← l.strideWithin f dom iv fuel lhs
          let rs ← l.strideWithin f dom iv fuel rhs
          checkedI64 (ls.toInt + rs.toInt)
        | .binary .sub lhs rhs => do
          let ls ← l.strideWithin f dom iv fuel lhs
          let rs ← l.strideWithin f dom iv fuel rhs
          checkedI64 (ls.toInt - rs.toInt)
        | .binary .mul lhs rhs => do
          let ls ← l.strideWithin f dom iv fuel lhs
          let rs ← l.strideWithin f dom iv fuel rhs
          productStride f lhs rhs ls rs
        | _ => none
      | _ => none

/-- The stride of a value.  A chain of operands that are all computed inside the loop is no
longer than the list of instructions. -/
def stride? (l : NaturalLoop) (f : Func) (dom : DomTree) (v iv : Operand) : Option Int64 :=
  l.strideWithin f dom iv (f.insts.size + 1) v

/-- Whether the stride of a product asks for a constant that does not exist. -/
def productLost (f : Func) (lhs rhs : Operand) (ls rs : Int64) : Bool :=
  if rs = 0 then ls ≠ 0 && f.lacksConst rhs else ls = 0 && f.lacksConst lhs

/-- What the search for the stride of a value comes to, following operands at most `fuel` deep.  It
comes to nothing when it gets stuck or needs more fuel.  It looks at the second operand only if the
first one has a stride. -/
def searchWithin (l : NaturalLoop) (f : Func) (dom : DomTree) (iv : Operand) :
    Nat → Operand → Option (Option Int64)
  | 0, _ => none
  | fuel + 1, v =>
    if v = iv then some (some 1)
    else if f.lacksInst v then none
    else if l.isInvariant f dom v then some (some 0)
    else
      match v with
      | .inst i =>
        match f.op i with
        | .binary op lhs rhs =>
          if op = .add ∨ op = .sub ∨ op = .mul then
            match l.searchWithin f dom iv fuel lhs with
            | some (some ls) =>
              match l.searchWithin f dom iv fuel rhs with
              | some (some rs) =>
                match op with
                | .add => some (checkedI64 (ls.toInt + rs.toInt))
                | .sub => some (checkedI64 (ls.toInt - rs.toInt))
                | _ =>
                  if productLost f lhs rhs ls rs then none
                  else some (productStride f lhs rhs ls rs)
              | r => r
            | r => r
          else some none
        | _ => some none
      | _ => some none

/-- Whether the search for the stride of a value gets stuck.  One that is longer than the list of
instructions goes in a circle. -/
def isStuck (l : NaturalLoop) (f : Func) (dom : DomTree) (v iv : Operand) : Bool :=
  (l.searchWithin f dom iv (f.insts.size + 1) v).isNone

end NaturalLoop

end LoopNest
