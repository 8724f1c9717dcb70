import LoopNest.Pass.Basic
import LoopNest.Ty.Layout

/-!
# Padding of stack slots

A stack slot whose size is not a whole number of 64-bit words is replaced by an array
of bytes, 8-byte aligned and long enough for the padded type, and a cast of its address
to the old pointer type.  All users go on with the cast, so no other instruction
changes its type.

The types of all replacements are interned before the function is touched.  A slot
whose padded size does not fit into 32 bits is left alone.  Where a size does not even
fit into 64 bits, the pass gets stuck (`Func.padStuck`).
-/

namespace LoopNest

namespace Padding

/-- The alignment and granule of padded slots, in bytes. -/
def granule : Nat := 8

/-- The replacement of one stack slot. -/
structure Slot where
  /-- The slot. -/
  alloca : InstId
  /-- The block that holds it. -/
  block : BlockId
  /-- The type of the byte array. -/
  padded : TyId
  /-- The type of pointers to the byte array. -/
  paddedPtr : TyId
  /-- The pointer type of the slot. -/
  ptr : TyId
  /-- The name of the slot. -/
  name : String
deriving Inhabited

/-- The type that a stack slot holds, if it is not a whole number of words. -/
def unevenTy? (tt : TypeTable) (f : Func) (i : InstId) : Option TyId :=
  match f.op i with
  | .alloca t _ => if tt.sizeInBits t % 64 ≠ 0 then some t else none
  | _ => none

/-- The stack slots to be padded, with the types that they hold. -/
def candidates (tt : TypeTable) (f : Func) : List (InstId × TyId) :=
  f.liveInsts.filterMap fun i => (unevenTy? tt f i).map (i, ·)

/-- The replacements of some stack slots, with the types interned for them and the reports. -/
def planSlots (f : Func) : List (InstId × TyId) → TypeTable → List Slot × TypeTable × List LogLine
  | [], tt => ([], tt, [])
  | (i, t) :: rest, tt =>
    let x := f.inst i
    let name := x.name.getD "alloca"
    let bytes := alignTo (tt.paddedSize t) granule
    match x.owner with
    | none => planSlots f rest tt
    | some block =>
      if 2 ^ 32 ≤ bytes then
        let (slots, tt, log) := planSlots f rest tt
        (slots, tt,
          ⟨.debug, s!"data-layout-transform: `{name}` is too large to pad ({bytes} bytes)"⟩ :: log)
      else
        let type := tt.text t
        let line : LogLine :=
          ⟨.info, s!"data-layout-transform: padding `{name}` ({type}) to {bytes} bytes"⟩
        let (byte, tt) := tt.scalar .i8
        let (padded, tt) := tt.intern (.array byte bytes)
        let (paddedPtr, tt) := tt.intern (.pointer padded)
        let (slots, tt, log) := planSlots f rest tt
        ({ alloca := i, block, padded, paddedPtr, ptr := x.ty, name } :: slots, tt, line :: log)

/-- Replaces one stack slot. -/
def replaceSlot (f : Func) (s : Slot) : Func :=
  let pos := ((f.body s.block).findIdx? (· = s.alloca)).getD 0
  let (slot, f) := f.insertInst s.block pos
    ⟨.alloca s.padded granule, s.paddedPtr, some (s.name ++ ".padded")⟩
  let (cast, f) := f.insertInst s.block (pos + 1) ⟨.bitcast (.inst slot), s.ptr, some s.name⟩
  (f.replaceUses (.inst s.alloca) (.inst cast)).eraseInst s.alloca

end Padding

/-- The pass that pads stack slots to whole words. -/
def Func.padSlots (tt : TypeTable) (f : Func) : PassResult :=
  let (slots, tt, log) := Padding.planSlots f (Padding.candidates tt f) tt
  ⟨tt, slots.foldl Padding.replaceSlot f, !slots.isEmpty, log⟩

/-- Whether padding gets stuck at a slot of the given type, since a count does not fit 64 bits. -/
def Padding.slotStuck (tt : TypeTable) (t : TyId) : Bool :=
  !tt.storeFits t || TypeTable.countLimit ≤ tt.sizeInBits t ||
    tt.sizeInBits t % 64 ≠ 0 &&
      (!tt.paddedFits t || TypeTable.countLimit ≤ alignTo (tt.paddedSize t) Padding.granule)

/-- Whether the pass gets stuck. -/
def Func.padStuck (tt : TypeTable) (f : Func) : Bool :=
  f.liveInsts.any fun i =>
    match f.op i with
    | .alloca t _ => Padding.slotStuck tt t
    | _ => false

end LoopNest
