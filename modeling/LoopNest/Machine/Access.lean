import LoopNest.Machine.Arith
import LoopNest.Machine.Memory
import LoopNest.Ty.Text

/-!
# Loads and stores

A scalar is moved as one run of bytes; a truth value takes one byte and is true
when that is not zero, and a float is always four bytes wide in memory.  A vector is
moved lane by lane at consecutive places, so a vector access that leaves its region
has already moved the lanes before.  An access yields the memory in either case.

Scalars are moved in any width here, and there is always room for a new region.  Where the machine
has no such width or room it gets stuck (`Func.stuckAt`).
-/

namespace LoopNest

/-- An action that may read and change memory, and may stop with a fault. -/
abbrev Access (α : Type) := ExceptT Fault (StateM Memory) α

namespace Access

/-- Takes over the outcome of a computation that leaves memory alone. -/
def ofExcept {α : Type} (r : Except Fault α) : Access α := fun m => (r, m)

/-- Writes bytes. -/
def writeBytes (p : Pointer) (bytes : List UInt8) : Access Unit := fun m =>
  match m.start p bytes.length with
  | .ok s => (.ok (), m.writeAt p.region s bytes)
  | .error e => (.error e, m)

/-- Counts a load. -/
def countLoad : Access Unit := fun m => (.ok (), { m with loads := m.loads + 1 })

/-- Counts a store. -/
def countStore : Access Unit := fun m => (.ok (), { m with stores := m.stores + 1 })

/-- Adds a region of zeros. -/
def alloc (bytes : Nat) : Access Pointer := fun m =>
  let (p, m) := m.alloc bytes
  (.ok p, m)

end Access

/-- The pointer some bytes further on. -/
def Pointer.advance (p : Pointer) (bytes : Int64) : Pointer := { p with offset := p.offset + bytes }

namespace Memory

/-- The scalar at a place.  Bytes that are missing count as zeros. -/
def loadScalar (m : Memory) (p : Pointer) (s : Scalar) : Except Fault Datum := do
  let bytes ← m.readBytes p s.width
  return match s.kind with
    | .bool => .bool (bytes.headD 0 != 0)
    | .float => .f32 ⟨UInt32.ofNat (ofLittleEndian (bytes.take 4))⟩
    | _ => .int (s.normalize (Int64.ofNat (ofLittleEndian bytes)))

/-- The scalars at consecutive places. -/
def loadLanes (m : Memory) (s : Scalar) : (lanes : Nat) → Pointer → Except Fault (List Datum)
  | 0, _ => .ok []
  | n + 1, p => do
    let d ← m.loadScalar p s
    let ds ← m.loadLanes s n (p.advance (Int64.ofNat s.width))
    return d :: ds

/-- The value of a type at a place. -/
def load (m : Memory) (tt : TypeTable) (p : Pointer) (t : TyId) : Except Fault Datum :=
  match tt.shape t with
  | .scalar s => m.loadScalar p s
  | .vector lanes s => do return .vector (← m.loadLanes s lanes p)
  | _ => .error (.unsupported (.loadOf (tt.text t)))

/-- Writes an integer in the width of its type. -/
def storeInt (p : Pointer) (v : Int64) (s : Scalar) : Access Unit :=
  Access.writeBytes p (littleEndian s.width v.toUInt64.toNat)

/-- The bytes of a datum that needs no type, with the room they take. -/
def bytesOf? : Datum → Option (List UInt8)
  | .f32 x => some (littleEndian 4 x.bits.toNat)
  | .bool b => some [if b then 1 else 0]
  | _ => none

/-- Writes lanes at consecutive places. -/
def storeLanes : Pointer → List Datum → Access Unit
  | _, [] => pure ()
  | p, d :: ds =>
    match bytesOf? d with
    | some bytes => do
      Access.writeBytes p bytes
      storeLanes (p.advance (Int64.ofNat bytes.length)) ds
    | none => Access.ofExcept (.error (.unsupported .vectorLanes))

/-- Writes a datum other than an integer. -/
def storeDatum (p : Pointer) (d : Datum) : Access Unit :=
  match d with
  | .vector lanes => storeLanes p lanes
  | d =>
    match bytesOf? d with
    | some bytes => Access.writeBytes p bytes
    | none => Access.ofExcept (.error (.unsupported (.storeOf d)))

end Memory

end LoopNest
