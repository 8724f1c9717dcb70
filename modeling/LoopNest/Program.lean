import LoopNest.Func.Edit

/-!
# Programs

A program is a type table and a list of functions, defined or declared.  A
function is called by name, and adding one gives it a name of its own: the
wanted name if it is free, otherwise the wanted name with `.1`, `.2`, ...
-/

namespace LoopNest

/-- The number of a function in its program. -/
abbrev FuncId := Nat

/-- The first of `base.n`, `base.(n + 1)`, ... that is not taken, after at most `fuel` tries. -/
def freshNameFrom (taken : String → Bool) (base : String) : Nat → Nat → String
  | 0, n => base ++ "." ++ toString n
  | fuel + 1, n =>
    let candidate := base ++ "." ++ toString n
    if taken candidate then freshNameFrom taken base fuel (n + 1) else candidate

/-- `base` if it is free, otherwise the first free one of `base.1`, `base.2`, ...; `bound` is
at least the number of names that are taken. -/
def freshName (taken : String → Bool) (bound : Nat) (base : String) : String :=
  if taken base then freshNameFrom taken base bound 1 else base

/-- A program. -/
structure Program where
  /-- The types that its functions refer to. -/
  types : TypeTable
  /-- Its functions. -/
  funcs : Array Func
deriving Inhabited

namespace Program

/-- The program without types and functions. -/
def empty : Program := ⟨.empty, #[]⟩

/-- The function under a number. -/
def func? (p : Program) (f : FuncId) : Option Func := p.funcs[f]?

/-- The first function with a name. -/
def funcNamed? (p : Program) (name : String) : Option FuncId :=
  p.funcs.findIdx? (·.name == name)

/-- The name that a new function gets. -/
def freshFuncName (p : Program) (base : String) : String :=
  freshName (fun n => (p.funcNamed? n).isSome) p.funcs.size base

/-- Adds a function under a name of its own. -/
def addFunc (p : Program) (f : Func) : FuncId × Program :=
  (p.funcs.size, { p with funcs := p.funcs.push { f with name := p.freshFuncName f.name } })

/-- Replaces a function. -/
def setFunc (p : Program) (id : FuncId) (f : Func) : Program :=
  { p with funcs := p.funcs.setIfInBounds id f }

end Program

end LoopNest
