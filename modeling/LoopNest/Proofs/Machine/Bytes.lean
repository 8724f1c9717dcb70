import LoopNest.Machine.Access
import Mathlib.Logic.Basic

/-!
# Regions as bytes

An access is decided by the regions of the memory alone, not by the counters.  `byteAt`
looks at a single byte, and two lists of regions with the same bytes are equal
(`ext_byteAt`).

A store is a list of *chunks*, each some bytes for a place (`storeChunks`).  The chunks
depend on the datum and the pointer only.  A store succeeds exactly when all of its chunks
lie inside their regions, and then it writes them one after the other
(`Memory.storeDatum_ok_iff`).  Writing leaves the extents of the regions alone, and changes the
bytes that a chunk covers and no others (`byteAt_writeChunk`).
-/

namespace LoopNest

/-- A computation in two parts succeeds when both do. -/
theorem bind_eq_ok_iff {ε α β : Type} {x : Except ε α} {k : α → Except ε β} {b : β} :
    (x >>= k) = .ok b ↔ ∃ a, x = .ok a ∧ k a = .ok b := by
  cases x with
  | ok a =>
    constructor
    · exact fun h => ⟨a, rfl, h⟩
    · rintro ⟨a, ha, h⟩
      cases ha
      exact h
  | error e =>
    constructor
    · exact fun h => by cases h
    · rintro ⟨a, ha, _⟩
      cases ha

/-! ## Bytes of regions -/

/-- One byte of a region. -/
def byteAt (rs : Array Region) (region offset : Nat) : Option UInt8 :=
  rs[region]?.bind fun r => r[offset]?

/-- The number of bytes of a region, 0 if there is none. -/
def extentOf (rs : Array Region) (region : Nat) : Nat := (rs[region]?.map Array.size).getD 0

/-- No region is longer than addresses reach. -/
def Memory.Addressable (m : Memory) : Prop := ∀ r, extentOf m.regions r < 2 ^ 63

instance (m : Memory) : Decidable m.Addressable :=
  decidable_of_iff (∀ r < m.regions.size, extentOf m.regions r < 2 ^ 63)
    ⟨fun h r => (Nat.lt_or_ge r m.regions.size).elim (h r) fun hr => by simp [extentOf, hr],
      fun h r _ => h r⟩

/-- Two lists of regions have the same number of regions, of the same lengths. -/
def SameExtents (rs rs' : Array Region) : Prop :=
  rs.size = rs'.size ∧ ∀ r, extentOf rs r = extentOf rs' r

theorem SameExtents.refl (rs : Array Region) : SameExtents rs rs := ⟨rfl, fun _ => rfl⟩

theorem SameExtents.symm {rs rs' : Array Region} (h : SameExtents rs rs') :
    SameExtents rs' rs := ⟨h.1.symm, fun r => (h.2 r).symm⟩

theorem SameExtents.trans {rs rs' rs'' : Array Region} (h : SameExtents rs rs')
    (h' : SameExtents rs' rs'') : SameExtents rs rs'' :=
  ⟨h.1.trans h'.1, fun r => (h.2 r).trans (h'.2 r)⟩

theorem byteAt_isSome {rs : Array Region} {r o : Nat} :
    (byteAt rs r o).isSome = true ↔ o < extentOf rs r := by
  unfold byteAt extentOf
  cases rs[r]? with
  | none => simp
  | some a => simp

/-- Lists of regions with the same number of regions and the same bytes are equal. -/
theorem ext_byteAt {rs rs' : Array Region} (hs : rs.size = rs'.size)
    (h : ∀ r o, byteAt rs r o = byteAt rs' r o) : rs = rs' := by
  refine Array.ext hs fun i h₁ h₂ => ?_
  refine Array.ext_getElem? fun o => ?_
  have := h i o
  simpa [byteAt, Array.getElem?_eq_getElem h₁, Array.getElem?_eq_getElem h₂] using this

/-! ## Places -/

/-- Where in its region a pointer points to. -/
def Pointer.start (p : Pointer) : Nat := p.offset.toInt.toNat

theorem Pointer.advance_advance (p : Pointer) (a b : Int64) :
    (p.advance a).advance b = p.advance (a + b) := by
  simp only [Pointer.advance, Int64.add_assoc]

/-- An access of some bytes that stays inside its region. -/
def InBounds (rs : Array Region) (p : Pointer) (size : Nat) : Prop :=
  0 ≤ p.offset.toInt ∧ p.start + size ≤ extentOf rs p.region ∧ p.region < rs.size

instance (rs : Array Region) (p : Pointer) (size : Nat) : Decidable (InBounds rs p size) :=
  inferInstanceAs (Decidable (_ ∧ _ ∧ _))

theorem SameExtents.inBounds {rs rs' : Array Region} (h : SameExtents rs rs') {p : Pointer}
    {size : Nat} : InBounds rs p size ↔ InBounds rs' p size := by
  unfold InBounds
  rw [h.1, h.2]

theorem Memory.start_eq_ok {m : Memory} {p : Pointer} {size s : Nat} :
    m.start p size = .ok s ↔ InBounds m.regions p size ∧ s = p.start := by
  have hstart : m.start p size = if InBounds m.regions p size then .ok p.start else
      .error (.outOfBounds p.region p.offset size (m.length p.region)) := rfl
  rw [hstart]
  by_cases h : InBounds m.regions p size
  · rw [if_pos h]
    exact ⟨fun heq => ⟨h, (Except.ok.inj heq).symm⟩, fun heq => by rw [heq.2]⟩
  · rw [if_neg h]
    constructor
    · intro heq
      cases heq
    · rintro ⟨hin, _⟩
      exact absurd hin h

/-! ## Reading -/

/-- Some bytes of a region from a place on. -/
def bytesFrom (rs : Array Region) (p : Pointer) (size : Nat) : List UInt8 :=
  ((rs[p.region]?.getD #[]).extract p.start (p.start + size)).toList

theorem Memory.readBytes_eq_ok {m : Memory} {p : Pointer} {size : Nat} {bs : List UInt8} :
    m.readBytes p size = .ok bs ↔
      InBounds m.regions p size ∧ bs = bytesFrom m.regions p size := by
  unfold Memory.readBytes
  rw [bind_eq_ok_iff]
  constructor
  · rintro ⟨s, hs, heq⟩
    obtain ⟨hin, rfl⟩ := Memory.start_eq_ok.mp hs
    exact ⟨hin, (Except.ok.inj heq).symm⟩
  · rintro ⟨hin, rfl⟩
    exact ⟨p.start, Memory.start_eq_ok.mpr ⟨hin, rfl⟩, rfl⟩

/-- What is read depends on the bytes at the place only. -/
theorem bytesFrom_congr {rs rs' : Array Region} {p : Pointer} {size : Nat}
    (h : ∀ o, p.start ≤ o → o < p.start + size →
      byteAt rs p.region o = byteAt rs' p.region o) (hin : InBounds rs p size)
    (hin' : InBounds rs' p size) : bytesFrom rs p size = bytesFrom rs' p size := by
  obtain ⟨_, hle, hlt⟩ := hin
  obtain ⟨_, hle', hlt'⟩ := hin'
  unfold bytesFrom
  simp only [extentOf, Array.getElem?_eq_getElem hlt, Array.getElem?_eq_getElem hlt',
    Option.map_some, Option.getD_some] at hle hle' ⊢
  congr 1
  refine Array.ext (by simp; omega) fun k h₁ h₂ => ?_
  have hk : k < size := by
    simp only [Array.size_extract] at h₁
    omega
  have := h (p.start + k) (by omega) (by omega)
  simp only [byteAt, Array.getElem?_eq_getElem hlt, Array.getElem?_eq_getElem hlt',
    Option.bind_some] at this
  rw [Array.getElem?_eq_getElem (by omega), Array.getElem?_eq_getElem (by omega)] at this
  simpa using this

/-- A scalar load depends on the extents and on the bytes at the place only. -/
theorem Memory.loadScalar_congr {m m' : Memory} {p : Pointer} {s : Scalar}
    (hext : SameExtents m.regions m'.regions)
    (h : ∀ o, p.start ≤ o → o < p.start + s.width →
      byteAt m.regions p.region o = byteAt m'.regions p.region o) {d : Datum}
    (hd : m.loadScalar p s = .ok d) : m'.loadScalar p s = .ok d := by
  unfold Memory.loadScalar at hd ⊢
  obtain ⟨bs, hb, hd⟩ := bind_eq_ok_iff.mp hd
  obtain ⟨hin, rfl⟩ := Memory.readBytes_eq_ok.mp hb
  have hin' := hext.inBounds.mp hin
  exact bind_eq_ok_iff.mpr
    ⟨_, Memory.readBytes_eq_ok.mpr ⟨hin', bytesFrom_congr h hin hin'⟩, hd⟩

theorem Memory.inBounds_of_loadScalar {m : Memory} {p : Pointer} {s : Scalar} {d : Datum}
    (hd : m.loadScalar p s = .ok d) : InBounds m.regions p s.width := by
  obtain ⟨bs, hb, _⟩ := bind_eq_ok_iff.mp hd
  exact (Memory.readBytes_eq_ok.mp hb).1

/-- A scalar load depends on the region of its pointer only. -/
theorem Memory.loadScalar_congr_region {m m' : Memory} {p : Pointer} {s : Scalar}
    (hs : m.regions.size = m'.regions.size)
    (h : m.regions[p.region]? = m'.regions[p.region]?) :
    m.loadScalar p s = m'.loadScalar p s := by
  unfold Memory.loadScalar Memory.readBytes Memory.start Memory.length Memory.region
  rw [hs, h]

theorem Memory.loadLanes_congr_region {m m' : Memory} {s : Scalar}
    (hs : m.regions.size = m'.regions.size) :
    ∀ (lanes : Nat) {p : Pointer}, m.regions[p.region]? = m'.regions[p.region]? →
      m.loadLanes s lanes p = m'.loadLanes s lanes p
  | 0, _, _ => rfl
  | lanes + 1, p, h => by
    simp only [Memory.loadLanes, Memory.loadScalar_congr_region hs h]
    rw [Memory.loadLanes_congr_region hs lanes (p := p.advance (Int64.ofNat s.width)) h]

/-- A load depends on the region of its pointer only. -/
theorem Memory.load_congr_region {m m' : Memory} {tt : TypeTable} {p : Pointer} {t : TyId}
    (hs : m.regions.size = m'.regions.size)
    (h : m.regions[p.region]? = m'.regions[p.region]?) : m.load tt p t = m'.load tt p t := by
  unfold Memory.load
  cases tt.shape t <;>
    simp only [Memory.loadScalar_congr_region hs h, Memory.loadLanes_congr_region hs _ h]

/-- A load looks at the regions only. -/
theorem Memory.load_congr {m m' : Memory} (h : m.regions = m'.regions) (tt : TypeTable)
    (p : Pointer) (t : TyId) : m.load tt p t = m'.load tt p t :=
  Memory.load_congr_region (by rw [h]) (by rw [h])

/-! ## Chunks -/

/-- Bytes to be written to a place. -/
structure Chunk where
  /-- The place. -/
  place : Pointer
  /-- The bytes. -/
  bytes : List UInt8

/-- The chunk lies inside its region. -/
def Chunk.Fits (c : Chunk) (rs : Array Region) : Prop := InBounds rs c.place c.bytes.length

/-- The chunk covers a byte. -/
def Chunk.Covers (c : Chunk) (region offset : Nat) : Prop :=
  c.place.region = region ∧ c.place.start ≤ offset ∧ offset < c.place.start + c.bytes.length

instance (c : Chunk) (r o : Nat) : Decidable (c.Covers r o) :=
  inferInstanceAs (Decidable (_ ∧ _ ∧ _))

/-- The regions with a chunk written. -/
def writeChunk (rs : Array Region) (c : Chunk) : Array Region :=
  rs.modify c.place.region fun r => r.write c.place.start c.bytes

theorem Region.size_write : ∀ (bs : List UInt8) (r : Region) (start : Nat),
    (Region.write r start bs).size = r.size
  | [], _, _ => rfl
  | b :: bs, r, start => by
    rw [Region.write, Region.size_write bs]
    exact Array.size_setIfInBounds

theorem Region.getElem?_write : ∀ (bs : List UInt8) (r : Region) (start o : Nat),
    start + bs.length ≤ r.size →
    (Region.write r start bs)[o]? =
      if start ≤ o ∧ o < start + bs.length then bs[o - start]? else r[o]?
  | [], r, start, o, _ => by
    rw [Region.write, if_neg]
    simp
  | b :: bs, r, start, o, h => by
    rw [List.length_cons] at h ⊢
    rw [Region.write, Region.getElem?_write bs _ _ o (by rw [Array.size_setIfInBounds]; omega)]
    by_cases ho : o = start
    · subst ho
      rw [if_neg (by omega), if_pos (by omega), Nat.sub_self, List.getElem?_cons_zero,
        Array.getElem?_setIfInBounds_self_of_lt (by omega)]
    · rw [Array.getElem?_setIfInBounds_ne (Ne.symm ho)]
      by_cases hin : start + 1 ≤ o ∧ o < start + 1 + bs.length
      · rw [if_pos hin, if_pos (by omega), show o - start = o - (start + 1) + 1 by omega,
          List.getElem?_cons_succ]
      · rw [if_neg hin, if_neg (by omega)]

theorem size_writeChunk (rs : Array Region) (c : Chunk) : (writeChunk rs c).size = rs.size :=
  Array.size_modify

theorem getElem?_writeChunk (rs : Array Region) (c : Chunk) (r : Nat) :
    (writeChunk rs c)[r]? =
      if c.place.region = r then rs[r]?.map fun a => a.write c.place.start c.bytes
      else rs[r]? := by
  unfold writeChunk
  rw [Array.getElem?_modify]

/-- Writing keeps the extents. -/
theorem sameExtents_writeChunk (rs : Array Region) (c : Chunk) :
    SameExtents rs (writeChunk rs c) := by
  refine ⟨(size_writeChunk rs c).symm, fun r => ?_⟩
  unfold extentOf
  rw [getElem?_writeChunk]
  split
  · cases rs[r]? with
    | none => rfl
    | some a => simp [Region.size_write]
  · rfl

/-- Writing a chunk that fits changes the bytes that it covers. -/
theorem byteAt_writeChunk {rs : Array Region} {c : Chunk} (hf : c.Fits rs) (r o : Nat) :
    byteAt (writeChunk rs c) r o =
      if c.Covers r o then c.bytes[o - c.place.start]? else byteAt rs r o := by
  obtain ⟨_, hle, hlt⟩ := hf
  unfold byteAt Chunk.Covers
  rw [getElem?_writeChunk]
  by_cases hr : c.place.region = r
  · subst hr
    simp only [extentOf, Array.getElem?_eq_getElem hlt, Option.map_some, Option.getD_some] at hle
    simp only [Array.getElem?_eq_getElem hlt, Option.map_some, Option.bind_some, if_true, true_and]
    exact Region.getElem?_write c.bytes _ _ o hle
  · simp [hr]

/-- The regions with chunks written in order. -/
def writeChunks (rs : Array Region) (cs : List Chunk) : Array Region := cs.foldl writeChunk rs

theorem writeChunks_cons (rs : Array Region) (c : Chunk) (cs : List Chunk) :
    writeChunks rs (c :: cs) = writeChunks (writeChunk rs c) cs := rfl

theorem writeChunks_append (rs : Array Region) (cs ds : List Chunk) :
    writeChunks rs (cs ++ ds) = writeChunks (writeChunks rs cs) ds := List.foldl_append

theorem sameExtents_writeChunks : ∀ (cs : List Chunk) (rs : Array Region),
    SameExtents rs (writeChunks rs cs)
  | [], rs => .refl rs
  | c :: cs, rs => (sameExtents_writeChunk rs c).trans (sameExtents_writeChunks cs _)

theorem SameExtents.fits {rs rs' : Array Region} (h : SameExtents rs rs') {c : Chunk} :
    c.Fits rs ↔ c.Fits rs' := h.inBounds

/-- Bytes that no chunk covers stay. -/
theorem byteAt_writeChunks_of_not_covers : ∀ (cs : List Chunk) {rs : Array Region} {r o : Nat},
    (∀ c ∈ cs, c.Fits rs) → (∀ c ∈ cs, ¬ c.Covers r o) →
    byteAt (writeChunks rs cs) r o = byteAt rs r o
  | [], _, _, _, _, _ => rfl
  | c :: cs, rs, r, o, hf, hn => by
    rw [writeChunks_cons, byteAt_writeChunks_of_not_covers cs
      (fun x hx => (sameExtents_writeChunk rs c).fits.mp (hf x (List.mem_cons_of_mem _ hx)))
      (fun x hx => hn x (List.mem_cons_of_mem _ hx)),
      byteAt_writeChunk (hf c List.mem_cons_self), if_neg (hn c List.mem_cons_self)]

/-- What is written to a byte does not depend on what was there before. -/
theorem byteAt_writeChunks_congr : ∀ (cs : List Chunk) {rs rs' : Array Region} {r o : Nat},
    (∀ c ∈ cs, c.Fits rs) → (∀ c ∈ cs, c.Fits rs') →
    ((∀ c ∈ cs, ¬ c.Covers r o) → byteAt rs r o = byteAt rs' r o) →
    byteAt (writeChunks rs cs) r o = byteAt (writeChunks rs' cs) r o
  | [], _, _, _, _, _, _, h => h fun _ hc => absurd hc List.not_mem_nil
  | c :: cs, rs, rs', r, o, hf, hf', h => by
    rw [writeChunks_cons, writeChunks_cons]
    refine byteAt_writeChunks_congr cs
      (fun x hx => (sameExtents_writeChunk rs c).fits.mp (hf x (List.mem_cons_of_mem _ hx)))
      (fun x hx => (sameExtents_writeChunk rs' c).fits.mp (hf' x (List.mem_cons_of_mem _ hx)))
      fun hn => ?_
    rw [byteAt_writeChunk (hf c List.mem_cons_self), byteAt_writeChunk (hf' c List.mem_cons_self)]
    by_cases hc : c.Covers r o
    · rw [if_pos hc, if_pos hc]
    · rw [if_neg hc, if_neg hc]
      refine h fun x hx => ?_
      rcases List.mem_cons.mp hx with rfl | hx
      · exact hc
      · exact hn x hx

/-- Writing chunks a second time changes nothing. -/
theorem writeChunks_idem {rs : Array Region} {cs : List Chunk} (hf : ∀ c ∈ cs, c.Fits rs) :
    writeChunks (writeChunks rs cs) cs = writeChunks rs cs := by
  have hs := sameExtents_writeChunks cs rs
  have hf' : ∀ c ∈ cs, c.Fits (writeChunks rs cs) := fun c hc => hs.fits.mp (hf c hc)
  refine ext_byteAt (sameExtents_writeChunks cs _).1.symm fun r o => ?_
  exact byteAt_writeChunks_congr cs hf' hf (byteAt_writeChunks_of_not_covers cs hf)

/-! ## Stores as chunks -/

/-- The chunks of lanes at consecutive places. -/
def laneChunks : Pointer → List Datum → Option (List Chunk)
  | _, [] => some []
  | p, d :: ds => do
    let bytes ← Memory.bytesOf? d
    let rest ← laneChunks (p.advance (Int64.ofNat bytes.length)) ds
    return ⟨p, bytes⟩ :: rest

/-- The chunks of a datum, an integer in the width of its type. -/
def storeChunks (tt : TypeTable) (t : TyId) (d : Datum) (p : Pointer) : Option (List Chunk) :=
  match d with
  | .int n =>
    (tt.elementScalar? t).map fun s => [⟨p, littleEndian s.width n.toUInt64.toNat⟩]
  | .vector lanes => laneChunks p lanes
  | d => (Memory.bytesOf? d).map fun bytes => [⟨p, bytes⟩]

theorem Access.writeBytes_eq_ok {p : Pointer} {bytes : List UInt8} {m m' : Memory} :
    Access.writeBytes p bytes m = (.ok (), m') ↔
      InBounds m.regions p bytes.length ∧ m' = m.writeAt p.region p.start bytes := by
  unfold Access.writeBytes
  cases h : m.start p bytes.length with
  | ok s =>
    obtain ⟨hin, rfl⟩ := Memory.start_eq_ok.mp h
    constructor
    · intro heq
      exact ⟨hin, (Prod.mk.inj heq).2.symm⟩
    · rintro ⟨_, rfl⟩
      rfl
  | error e =>
    constructor
    · intro heq
      cases (Prod.mk.inj heq).1
    · rintro ⟨hin, _⟩
      rw [Memory.start_eq_ok.mpr ⟨hin, rfl⟩] at h
      cases h

theorem regions_writeAt (m : Memory) (p : Pointer) (bytes : List UInt8) :
    (m.writeAt p.region p.start bytes).regions = writeChunk m.regions ⟨p, bytes⟩ := rfl

/-- How a sequence of accesses runs. -/
theorem Access.bind_eq {α β : Type} (x : Access α) (k : α → Access β) (m : Memory) :
    (x >>= k) m = match x m with
      | (.ok a, m) => k a m
      | (.error e, m) => (.error e, m) := by
  show (match x m with
    | (a, s) => (ExceptT.bindCont k a) s) = _
  rcases x m with ⟨r, m⟩
  cases r <;> rfl

theorem Access.bind_eq_ok {α β : Type} {x : Access α} {k : α → Access β} {m m' : Memory} {b : β} :
    (x >>= k) m = (.ok b, m') ↔ ∃ a n, x m = (.ok a, n) ∧ k a n = (.ok b, m') := by
  rw [Access.bind_eq]
  rcases x m with ⟨r, n⟩
  cases r with
  | ok a =>
    constructor
    · exact fun h => ⟨a, n, rfl, h⟩
    · rintro ⟨a, n, heq, h⟩
      cases heq
      exact h
  | error e =>
    constructor
    · exact fun h => by cases (Prod.mk.inj h).1
    · rintro ⟨a, n, heq, _⟩
      cases (Prod.mk.inj heq).1

theorem Access.ofExcept_eq_ok {α : Type} {r : Except Fault α} {a : α} {m m' : Memory} :
    Access.ofExcept r m = (.ok a, m') ↔ r = .ok a ∧ m' = m := by
  constructor
  · intro h
    exact ⟨(Prod.mk.inj h).1, (Prod.mk.inj h).2.symm⟩
  · rintro ⟨rfl, rfl⟩
    rfl

/-- A store of one run of bytes. -/
theorem Access.writeBytes_ok_iff {p : Pointer} {bytes : List UInt8} {m : Memory}
    {rs : Array Region} :
    (∃ m', Access.writeBytes p bytes m = (.ok (), m') ∧ m'.regions = rs) ↔
      (∀ c ∈ [Chunk.mk p bytes], c.Fits m.regions) ∧ rs = writeChunks m.regions [⟨p, bytes⟩] := by
  constructor
  · rintro ⟨m', h, rfl⟩
    obtain ⟨hin, rfl⟩ := Access.writeBytes_eq_ok.mp h
    refine ⟨fun c hc => ?_, regions_writeAt m p bytes⟩
    rw [List.mem_singleton.mp hc]
    exact hin
  · rintro ⟨hf, rfl⟩
    exact ⟨_, Access.writeBytes_eq_ok.mpr ⟨hf _ (List.mem_singleton.mpr rfl), rfl⟩,
      regions_writeAt m p bytes⟩

theorem Memory.storeLanes_ok_iff : ∀ (ds : List Datum) (p : Pointer) {m : Memory}
    {rs : Array Region},
    (∃ m', Memory.storeLanes p ds m = (.ok (), m') ∧ m'.regions = rs) ↔
      ∃ cs, laneChunks p ds = some cs ∧ (∀ c ∈ cs, c.Fits m.regions) ∧
        rs = writeChunks m.regions cs
  | [], p, m, rs => by
    constructor
    · rintro ⟨m', h, rfl⟩
      cases h
      exact ⟨[], rfl, fun _ hc => absurd hc List.not_mem_nil, rfl⟩
    · rintro ⟨cs, hcs, _, rfl⟩
      cases hcs
      exact ⟨m, rfl, rfl⟩
  | d :: ds, p, m, rs => by
    simp only [Memory.storeLanes, laneChunks]
    cases hb : Memory.bytesOf? d with
    | none =>
      constructor
      · rintro ⟨m', h, _⟩
        cases (Prod.mk.inj h).1
      · rintro ⟨cs, hcs, _⟩
        exact absurd hcs (Option.some_ne_none cs).symm
    | some bytes =>
      simp only [Access.bind_eq_ok]
      constructor
      · rintro ⟨m', ⟨_, n, hw, hr⟩, rfl⟩
        obtain ⟨hin, rfl⟩ := Access.writeBytes_eq_ok.mp hw
        obtain ⟨cs, hcs, hf, hrs⟩ := (Memory.storeLanes_ok_iff ds _).mp ⟨m', hr, rfl⟩
        refine ⟨⟨p, bytes⟩ :: cs, by simp [hcs], fun c hc => ?_, hrs⟩
        rcases List.mem_cons.mp hc with rfl | hc
        · exact hin
        · exact (sameExtents_writeChunk m.regions ⟨p, bytes⟩).fits.mpr (hf c hc)
      · rintro ⟨cs, hcs, hf, rfl⟩
        cases hl : laneChunks (p.advance (Int64.ofNat bytes.length)) ds with
        | none => simp [hl] at hcs
        | some rest =>
          simp only [hl, Option.pure_def, Option.bind_eq_bind, Option.bind_some,
            Option.some.injEq] at hcs
          subst hcs
          have hw := Access.writeBytes_eq_ok.mpr
            ⟨hf _ List.mem_cons_self, (rfl : m.writeAt p.region p.start bytes = _)⟩
          obtain ⟨m', hm', hr⟩ := (Memory.storeLanes_ok_iff ds _).mpr
            ⟨rest, hl, fun c hc => (sameExtents_writeChunk m.regions ⟨p, bytes⟩).fits.mp
              (hf c (List.mem_cons_of_mem _ hc)),
              (rfl : writeChunks (m.writeAt p.region p.start bytes).regions rest = _)⟩
          exact ⟨m', ⟨(), _, hw, hm'⟩, hr⟩

/-- A store succeeds when its chunks fit, and then it writes them. -/
theorem Memory.storeDatum_ok_iff {tt : TypeTable} {t : TyId} {d : Datum} {p : Pointer} {m : Memory}
    {rs : Array Region} (hd : ∀ n, d ≠ .int n) :
    (∃ m', Memory.storeDatum p d m = (.ok (), m') ∧ m'.regions = rs) ↔
      ∃ cs, storeChunks tt t d p = some cs ∧ (∀ c ∈ cs, c.Fits m.regions) ∧
        rs = writeChunks m.regions cs := by
  cases d with
  | int n => exact absurd rfl (hd n)
  | vector lanes => exact Memory.storeLanes_ok_iff lanes p
  | bool b => simp [Memory.storeDatum, Memory.bytesOf?, storeChunks, Access.writeBytes_ok_iff]
  | f32 x => simp [Memory.storeDatum, Memory.bytesOf?, storeChunks, Access.writeBytes_ok_iff]
  | ptr q => simp [Memory.storeDatum, Memory.bytesOf?, storeChunks, Access.ofExcept_eq_ok]
  | void => simp [Memory.storeDatum, Memory.bytesOf?, storeChunks, Access.ofExcept_eq_ok]

end LoopNest
