import LoopNest.Log
import LoopNest.Verify

/-!
# Passes on functions

A pass changes one function of a program, and may add types to the type table on the
way.  It says whether it changed the function, and reports what it did.  Types that
were interned for a change that was then given up stay.
-/

namespace LoopNest

/-- The outcome of a pass on a function. -/
structure PassResult where
  /-- The type table. -/
  types : TypeTable
  /-- The function. -/
  func : Func
  /-- Whether the function was changed. -/
  changed : Bool
  /-- What was reported, in order. -/
  log : List LogLine
deriving Inhabited

/-- The name of an instruction, or its mnemonic if it has none. -/
def Func.instLabel (f : Func) (i : InstId) : String :=
  ((f.inst i).name).getD (f.op i).mnemonic

/-- Whether a live instruction outside some blocks uses the result of an instruction. -/
def Func.usedOutside (f : Func) (inside : BlockId → Bool) (i : InstId) : Bool :=
  (f.users (.inst i)).any fun u =>
    match f.owner u with
    | some b => !inside b
    | none => false

/-! ## Validation -/

/-- The pass that verifies a function and reports the outcome.  It changes nothing. -/
def Func.validate (tt : TypeTable) (f : Func) : PassResult :=
  let line : LogLine := match f.verify tt with
    | .ok () => ⟨.debug, "ir-validation: `" ++ f.name ++ "` is well formed"⟩
    | .error e => ⟨.warn, "ir-validation: `" ++ f.name ++ "`: " ++ e.message⟩
  ⟨tt, f, false, [line]⟩

end LoopNest
