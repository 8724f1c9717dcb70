import LoopNest.F32.Decimal

/-!
# Written single-precision numbers

A number is written with the digits of its shortest decimal.  A `NumberStyle`
fixes the rest: which orders of magnitude are written positionally, and whether
a whole number ends in `.0`.  The order of magnitude of a number is the
exponent `k` of its scientific form `d.ddd * 10 ^ k`.

There are two styles.  `plain` is for result tables: always positional, and
whole numbers bare.  `literal` is for constants and diagnostics: whole numbers
end in `.0`, and orders below -4 or from 16 on use an exponent, as in `1e-7`.

`F32.read?` reads a decimal back: digits with at most one point and at least
one digit, an optional exponent, or one of the words `nan`, `inf`, `infinity`
in any case, all after an optional sign.
-/

namespace LoopNest

namespace F32

/-! ## Writing -/

/-- How the digits of a number are laid out. -/
structure NumberStyle where
  /-- The orders of magnitude that are written without an exponent. -/
  positional : Int → Bool
  /-- Whether a whole number ends in `.0`. -/
  pointed : Bool

/-- Always positional, whole numbers bare. -/
def NumberStyle.plain : NumberStyle := ⟨fun _ => true, false⟩

/-- Positional from `0.0001` up to below `10 ^ 16`, whole numbers end in `.0`. -/
def NumberStyle.literal : NumberStyle := ⟨fun k => -4 ≤ k && k < 16, true⟩

/-- A string of zeros. -/
def zeros (n : Nat) : String := String.ofList (List.replicate n '0')

/-- Digits with a point after the first `point` of them, padded with zeros on either side. -/
def positionalText (pointed : Bool) (digits : List Char) (point : Int) : String :=
  let tail := if pointed then ".0" else ""
  let count : Int := digits.length
  if point ≤ 0 then "0." ++ zeros (-point).toNat ++ String.ofList digits
  else if count ≤ point then String.ofList digits ++ zeros (point - count).toNat ++ tail
  else String.ofList (digits.take point.toNat) ++ "." ++ String.ofList (digits.drop point.toNat)

/-- Digits in scientific form, `d.ddde` and the exponent. -/
def scientificText (digits : List Char) (order : Int) : String :=
  let lead := String.ofList (digits.take 1)
  let rest := digits.drop 1
  let fraction := if rest.isEmpty then "" else "." ++ String.ofList rest
  lead ++ fraction ++ "e" ++ toString order

/-- The text of a decimal in a style. -/
def NumberStyle.decimalText (style : NumberStyle) (d : Decimal) : String :=
  let digits := (Nat.repr d.digits).toList
  let point : Int := (digits.length : Int) + d.exponent
  if d.digits = 0 then (if style.pointed then "0.0" else "0")
  else if style.positional (point - 1) then positionalText style.pointed digits point
  else scientificText digits (point - 1)

/-- The text of a number in a style.  NaN has no sign. -/
def toText (style : NumberStyle) (x : F32) : String :=
  let sign := if x.negative then "-" else ""
  if x.isNaN then "NaN"
  else if x.isInfinite then sign ++ "inf"
  else sign ++ style.decimalText x.shortest

/-! ## Reading -/

/-- The digits at the front, and what follows them. -/
def splitDigits (cs : List Char) : List Char × List Char :=
  (cs.takeWhile Char.isDigit, cs.dropWhile Char.isDigit)

/-- The number that a string of digits denotes. -/
def digitsValue (cs : List Char) : Nat :=
  cs.foldl (fun n c => n * 10 + (c.toNat - '0'.toNat)) 0

/-- An exponent: a sign or none, and at least one digit up to the end. -/
def readExponent? (cs : List Char) : Option Int :=
  let (negative, cs) : Bool × List Char := match cs with
    | '-' :: r => (true, r)
    | '+' :: r => (false, r)
    | r => (false, r)
  let (digits, rest) := splitDigits cs
  if digits.isEmpty || !rest.isEmpty then none
  else
    let n : Int := digitsValue digits
    some (if negative then -n else n)

/-- An unsigned decimal, up to the end of the text. -/
def readDecimal? (cs : List Char) : Option Decimal :=
  let (whole, rest) := splitDigits cs
  let (fraction, rest) := match rest with
    | '.' :: r => splitDigits r
    | r => ([], r)
  if whole.isEmpty && fraction.isEmpty then none
  else
    let digits := digitsValue (whole ++ fraction)
    let shift : Int := fraction.length
    match rest with
    | [] => some ⟨digits, -shift⟩
    | c :: r => if c = 'e' ∨ c = 'E' then (readExponent? r).map (⟨digits, · - shift⟩) else none

/-- The number nearest to a decimal.  Orders beyond the range of the format need no arithmetic. -/
def ofDecimal (d : Decimal) : F32 :=
  let order : Int := d.length + d.exponent
  if d.digits = 0 ∨ order < -80 then zero
  else if 80 < order then ⟨0x7f800000⟩
  else if d.exponent < 0 then nearest d.digits (10 ^ (-d.exponent).toNat)
  else nearest (d.digits * 10 ^ d.exponent.toNat) 1

/-- The word for a number that has no digits, in any case. -/
def readWord? (cs : List Char) : Option F32 :=
  match String.ofList (cs.map Char.toLower) with
  | "nan" => some canonicalNaN
  | "inf" => some ⟨0x7f800000⟩
  | "infinity" => some ⟨0x7f800000⟩
  | _ => none

/-- Reads a number. -/
def read? (text : String) : Option F32 :=
  let (negative, cs) : Bool × List Char := match text.toList with
    | '-' :: r => (true, r)
    | '+' :: r => (false, r)
    | r => (false, r)
  let magnitude := match readDecimal? cs with
    | some d => some (ofDecimal d)
    | none => readWord? cs
  magnitude.map fun x => if negative then x.neg else x

end F32

end LoopNest
