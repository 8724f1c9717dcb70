import LoopNest.Machine.Datum

/-!
# Memory of the machine

Memory is a list of regions, each a row of bytes with its own bounds.  Every
allocation makes a new region, so two regions never overlap, and a pointer cannot
leave its region.  Numbers are stored with the lowest byte first.

An access counts as one load or store however many bytes it moves.  The counters
are kept by the machine; reading a result out of memory does not change them.
-/

namespace LoopNest

/-! ## Bytes -/

/-- The lowest `n` bytes of a number, lowest first. -/
def littleEndian : (n : Nat) → (v : Nat) → List UInt8
  | 0, _ => []
  | n + 1, v => UInt8.ofNat v :: littleEndian n (v / 256)

/-- The number that bytes stand for, lowest first. -/
def ofLittleEndian : List UInt8 → Nat
  | [] => 0
  | b :: bs => b.toNat + 256 * ofLittleEndian bs

/-- Reading back the bytes of a number gives what fits into them. -/
theorem ofLittleEndian_littleEndian (n v : Nat) :
    ofLittleEndian (littleEndian n v) = v % 256 ^ n := by
  induction n generalizing v with
  | zero => simp [littleEndian, ofLittleEndian, Nat.mod_one]
  | succ n ih =>
    simp only [littleEndian, ofLittleEndian, ih, UInt8.toNat_ofNat']
    rw [show 256 ^ (n + 1) = 256 * 256 ^ n by rw [Nat.pow_succ, Nat.mul_comm], Nat.mod_mul]

/-- A number has as many bytes as were asked for. -/
theorem length_littleEndian (n v : Nat) : (littleEndian n v).length = n := by
  induction n generalizing v with
  | zero => rfl
  | succ n ih => simp [littleEndian, ih]

/-! ## Regions -/

/-- The bytes of one allocation. -/
abbrev Region := Array UInt8

/-- The region with some bytes written from a place on. -/
def Region.write (r : Region) (start : Nat) : List UInt8 → Region
  | [] => r
  | b :: bs => Region.write (r.setIfInBounds start b) (start + 1) bs

/-- Byte-addressed memory. -/
structure Memory where
  /-- The regions, in the order of their allocation. -/
  regions : Array Region
  /-- The number of loads executed. -/
  loads : Nat
  /-- The number of stores executed. -/
  stores : Nat
deriving DecidableEq, Inhabited

namespace Memory

/-- Memory without regions. -/
def empty : Memory := ⟨#[], 0, 0⟩

/-- Adds a region. -/
def addRegion (m : Memory) (r : Region) : Pointer × Memory :=
  (⟨m.regions.size, 0⟩, { m with regions := m.regions.push r })

/-- Adds a region of zeros. -/
def alloc (m : Memory) (bytes : Nat) : Pointer × Memory := m.addRegion (Array.replicate bytes 0)

/-- Adds a region that holds single-precision numbers. -/
def allocF32 (m : Memory) (data : List F32) : Pointer × Memory :=
  m.addRegion (data.flatMap fun x => littleEndian 4 x.bits.toNat).toArray

/-- The length of a region, 0 if there is none. -/
def length (m : Memory) (region : Nat) : Nat := (m.regions[region]?.map Array.size).getD 0

/-- The place in its region where an access of `size` bytes starts, if it stays inside. -/
def start (m : Memory) (p : Pointer) (size : Nat) : Except Fault Nat :=
  if 0 ≤ p.offset.toInt ∧ p.offset.toInt.toNat + size ≤ m.length p.region
      ∧ p.region < m.regions.size then
    .ok p.offset.toInt.toNat
  else
    .error (.outOfBounds p.region p.offset size (m.length p.region))

/-- The bytes of a region, none if there is no such region. -/
def region (m : Memory) (id : Nat) : Region := m.regions[id]?.getD #[]

/-- The memory with bytes written into a region from a place on. -/
def writeAt (m : Memory) (region start : Nat) (bytes : List UInt8) : Memory :=
  { m with regions := m.regions.modify region fun r => r.write start bytes }

/-- Reads bytes. -/
def readBytes (m : Memory) (p : Pointer) (size : Nat) : Except Fault (List UInt8) := do
  let s ← m.start p size
  return ((m.region p.region).extract s (s + size)).toList

/-- The number that is stored in four bytes of a region from a place on. -/
def wordAt (r : Region) (start : Nat) : F32 :=
  ⟨UInt32.ofNat (ofLittleEndian (r.extract start (start + 4)).toList)⟩

/-- Reads consecutive single-precision numbers, which counts as no access. -/
def readF32 (m : Memory) (p : Pointer) (count : Nat) : Except Fault (List F32) := do
  let s ← m.start p (count * 4)
  return (List.range count).map fun i => wordAt (m.region p.region) (s + i * 4)

end Memory

end LoopNest
