import LoopNest.Ty.Basic

/-!
# Written types

Scalars are `i1`, or a letter for the kind and the number of bits.  A vector is
`<4 x f32>`, a pointer `ptr<f32>`, an array `[8 x i8]`, and a struct lists its
members in braces.  A named struct is written by its name, `%name`.  The name of
any other type is not shown.
-/

namespace LoopNest

/-- A letter for the kind and the number of bits, or `i1`. -/
def Scalar.toText (s : Scalar) : String :=
  let bits := s.width * 8
  match s.kind with
  | .bool => "i1"
  | .sint => s!"i{bits}"
  | .uint => s!"u{bits}"
  | .float => s!"f{bits}"

/-- A shape, given how to write its components. -/
def Shape.toText (component : TyId → String) : Shape → String
  | .void => "void"
  | .scalar s => s.toText
  | .vector lanes s => "<" ++ toString lanes ++ " x " ++ s.toText ++ ">"
  | .pointer t => "ptr<" ++ component t ++ ">"
  | .array t n => "[" ++ toString n ++ " x " ++ component t ++ "]"
  | .struct ms => "\x7b " ++ ", ".intercalate (ms.map component) ++ " \x7d"

namespace TypeTable

/-- A type, following components at most `fuel` deep. -/
def textWithin (tt : TypeTable) : Nat → TyId → String
  | 0, _ => ""
  | fuel + 1, t =>
    match tt.get? t with
    | none => s!"<invalid type [{t}]>"
    | some ⟨some name, .struct _⟩ => "%" ++ name
    | some ⟨_, s⟩ => s.toText (tt.textWithin fuel)

/-- The text of a type. -/
def text (tt : TypeTable) (t : TyId) : String := tt.textWithin (tt.size + 1) t

/-- The text of a shape, also for a struct that has a name. -/
def shapeText (tt : TypeTable) (s : Shape) : String := s.toText tt.text

end TypeTable

end LoopNest
