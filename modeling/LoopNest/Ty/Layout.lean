import LoopNest.Ty.Basic

/-!
# Memory layout of types

Scalars are aligned to their width, vectors to the next power of two of their
size, pointers take eight bytes, arrays repeat their element at multiples of its
padded size, and the members of a struct follow one another, each at the next
multiple of its own alignment.

The *store size* of a type counts the bytes up to the end of its last part; the
*padded size* rounds it up to the alignment, and is the distance of consecutive
array elements.

Handles refer to the table, so the recursion is bounded by its number of types:
in a table where every type is interned after its components no chain of
components is longer.

Sizes are exact here.  The machine counts bytes in 64 bits; whether every count on
the way to a size fits is a question of its own (`TypeTable.storeFits`,
`TypeTable.paddedFits`).
-/

namespace LoopNest

/-- The bytes of a pointer. -/
def pointerBytes : Nat := 8

/-- The next multiple of `align` from `value` on.  Alignments 0 and 1 ask for nothing. -/
def alignTo (value align : Nat) : Nat :=
  if align ≤ 1 then value else (value + align - 1) / align * align

/-- The first of `p`, `2 * p`, `4 * p`, ... that is not below `n`, at most `fuel` doublings away. -/
def powerFrom (n : Nat) : Nat → Nat → Nat
  | 0, p => p
  | fuel + 1, p => if n ≤ p then p else powerFrom n fuel (2 * p)

/-- The least power of two that is not below `n`. -/
def nextPowerOfTwo (n : Nat) : Nat := powerFrom n n 1

/-- Size and alignment of a type, in bytes. -/
structure Extent where
  /-- The bytes up to the end of the last part. -/
  size : Nat
  /-- The alignment. -/
  align : Nat
deriving DecidableEq, Inhabited

/-- The size rounded up to the alignment. -/
def Extent.padded (e : Extent) : Nat := alignTo e.size e.align

/-- The offsets of consecutive members from `start` on. -/
def Extent.offsetsFrom : Nat → List Extent → List Nat
  | _, [] => []
  | start, e :: es =>
    let offset := alignTo start e.align
    offset :: offsetsFrom (offset + e.padded) es

/-- The offsets of the members of a struct. -/
def Extent.memberOffsets (es : List Extent) : List Nat := offsetsFrom 0 es

/-- The extent of a struct with the given members. -/
def Extent.ofMembers (es : List Extent) : Extent :=
  { size := match (memberOffsets es).getLast?, es.getLast? with
      | some offset, some last => offset + last.size
      | _, _ => 0
    align := (es.map Extent.align).max?.getD 1 }

namespace TypeTable

/-- The extent of a type, following components at most `fuel` deep. -/
def extentWithin (tt : TypeTable) : Nat → TyId → Extent
  | 0, _ => ⟨0, 1⟩
  | fuel + 1, t =>
    match tt.shape t with
    | .void => ⟨0, 1⟩
    | .scalar s => ⟨s.width, s.width⟩
    | .vector lanes s => ⟨lanes * s.width, nextPowerOfTwo (lanes * s.width)⟩
    | .pointer _ => ⟨pointerBytes, pointerBytes⟩
    | .array element length =>
      let e := tt.extentWithin fuel element
      ⟨length * e.padded, e.align⟩
    | .struct members => .ofMembers (members.map (tt.extentWithin fuel))

/-- The extent of a type. -/
def extent (tt : TypeTable) (t : TyId) : Extent := tt.extentWithin (tt.size + 1) t

/-- The alignment of a type in bytes. -/
def align (tt : TypeTable) (t : TyId) : Nat := (tt.extent t).align

/-- The bytes of a value without padding at its end. -/
def storeSize (tt : TypeTable) (t : TyId) : Nat := (tt.extent t).size

/-- The distance in bytes of consecutive array elements. -/
def paddedSize (tt : TypeTable) (t : TyId) : Nat := (tt.extent t).padded

/-- The store size in bits. -/
def sizeInBits (tt : TypeTable) (t : TyId) : Nat := tt.storeSize t * 8

/-- The byte offset of each member of a struct, nothing for other types. -/
def memberOffsets (tt : TypeTable) (t : TyId) : List Nat :=
  match tt.shape t with
  | .struct members => Extent.memberOffsets (members.map tt.extent)
  | _ => []

/-! ## Counts of 64 bits -/

/-- What a count of bytes stays below. -/
def countLimit : Nat := 2 ^ 64

/-- Whether the counts on the way to the store size of a type fit, following components at most
`fuel` deep.  Each member of a struct is counted with its padding, the last one too. -/
def storeFitsWithin (tt : TypeTable) : Nat → TyId → Bool
  | 0, _ => true
  | fuel + 1, t =>
    match tt.shape t with
    | .array element length =>
      let e := tt.extentWithin fuel element
      tt.storeFitsWithin fuel element && e.padded < countLimit && length * e.padded < countLimit
    | .struct members =>
      let es := members.map (tt.extentWithin fuel)
      members.all (tt.storeFitsWithin fuel) &&
        ((Extent.memberOffsets es).zip es).all fun (offset, e) => offset + e.padded < countLimit
    | _ => true

/-- Whether the counts on the way to the store size of a type fit. -/
def storeFits (tt : TypeTable) (t : TyId) : Bool := tt.storeFitsWithin (tt.size + 1) t

/-- Whether the counts on the way to the padded size of a type fit, that size included. -/
def paddedFits (tt : TypeTable) (t : TyId) : Bool := tt.storeFits t && tt.paddedSize t < countLimit

end TypeTable

end LoopNest
