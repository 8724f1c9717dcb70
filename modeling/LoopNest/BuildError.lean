/-!
# Errors of construction

Why an instruction cannot be built, or why its operands do not fit.
-/

namespace LoopNest

/-- Why an instruction cannot be built. -/
inductive BuildError where
  /-- A number without a block, instruction or constant. -/
  | badHandle (index size : Nat)
  /-- A parameter beyond the last one. -/
  | badParam (index count : Nat)
  /-- An operand of the wrong type; both are given as text. -/
  | typeMismatch (expected found : String)
  /-- The block already ends in a terminator. -/
  | blockTerminated (block : String)
  /-- The value is not in the function any more. -/
  | erasedValue
deriving DecidableEq, Inhabited

/-- The error in words. -/
def BuildError.message : BuildError → String
  | .badHandle index size => s!"handle index {index} out of bounds (arena size: {size})"
  | .badParam index count => s!"parameter {index} out of range (function has {count})"
  | .typeMismatch expected found => s!"type mismatch: expected {expected}, found {found}"
  | .blockTerminated block => s!"block `{block}` already has a terminator"
  | .erasedValue => "use of erased value"

end LoopNest
