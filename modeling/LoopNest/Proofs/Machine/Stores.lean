import LoopNest.Proofs.Machine.Cells

/-!
# What is stored is loaded

Integers of up to eight bytes, single-precision numbers, truth values, and vectors of the latter two
can be stored and loaded (`Datum.Storable`).

A store writes the bytes of the datum from its place on, one lane after the other, so it succeeds
exactly when they all lie inside the region (`fits_laneChunks_iff`).  The chunk of each lane starts
where the one before ends, so later lanes leave earlier ones alone and each lane is read back
(`Memory.loadLanes_writeChunks`).  A load of other bytes finds what was there
(`Memory.load_of_apart`).

Offsets have 63 bits, and no region is longer than that.  So the place of a lane is never wrapped
around.
-/

namespace LoopNest

variable {rs rs' : Array Region} {p q : Pointer} {n k w : Nat} {s : Scalar} {d : Datum}

/-! ## Places one after the other -/

/-- The bytes of two accesses have no byte in common. -/
def BytesApart (p : Pointer) (n : Nat) (q : Pointer) (k : Nat) : Prop :=
  p.region ≠ q.region ∨ p.offset.toInt + n ≤ q.offset.toInt ∨ q.offset.toInt + k ≤ p.offset.toInt

theorem InBounds.start_eq (h : InBounds rs p n) : (p.start : Int) = p.offset.toInt :=
  Int.toNat_of_nonneg h.1

/-- The place after some bytes of a region. -/
theorem toInt_advance (hrs : ∀ r, extentOf rs r < 2 ^ 63) (h : InBounds rs p n) :
    (p.advance (Int64.ofNat n)).offset.toInt = p.offset.toInt + n := by
  have hlt := hrs p.region
  obtain ⟨hlo, hle, _⟩ := h
  have hstart : (p.start : Int) = p.offset.toInt := Int.toNat_of_nonneg hlo
  have hn : (Int64.ofNat n).toInt = n := by
    rw [← Int64.ofInt_eq_ofNat, Int64.toInt_ofInt, Int64.size]
    exact Int.bmod_eq_of_le_mul_two (by omega) (by omega)
  rw [Pointer.advance, Int64.toInt_add, hn]
  exact Int.bmod_eq_of_le_mul_two (by omega) (by omega)

theorem start_advance (hrs : ∀ r, extentOf rs r < 2 ^ 63) (h : InBounds rs p n) :
    (p.advance (Int64.ofNat n)).start = p.start + n := by
  have hstart := h.start_eq
  have hadv := toInt_advance hrs h
  unfold Pointer.start at hstart ⊢
  omega

/-- Two accesses, one after the other, are inside when both together are. -/
theorem inBounds_add_iff (hrs : ∀ r, extentOf rs r < 2 ^ 63) : InBounds rs p (n + k) ↔
    InBounds rs p n ∧ InBounds rs (p.advance (Int64.ofNat n)) k := by
  constructor
  · rintro ⟨hlo, hle, hlt⟩
    have hin : InBounds rs p n := ⟨hlo, by omega, hlt⟩
    have hadv := toInt_advance hrs hin
    refine ⟨hin, by omega, ?_, hlt⟩
    rw [start_advance hrs hin, Nat.add_assoc]
    exact hle
  · rintro ⟨hin, _, hle, _⟩
    rw [start_advance hrs hin, Nat.add_assoc] at hle
    exact ⟨hin.1, hle, hin.2.2⟩

/-! ## Scalars -/

/-- A datum that takes one run of bytes, as many as its type says. -/
inductive Datum.Lane : Scalar → Datum → Prop where
  /-- A single-precision number. -/
  | f32 (x : F32) : Lane .f32 (.f32 x)
  /-- A truth value. -/
  | bool (b : Bool) : Lane .bool (.bool b)

/-- A datum of a type that can be stored and loaded. -/
inductive Datum.Storable : Shape → Datum → Prop where
  /-- An integer of one to eight bytes. -/
  | int {s : Scalar} (v : Int64) : s.isInteger = true → 1 ≤ s.width → s.width ≤ 8 →
      Storable (.scalar s) (.int v)
  /-- A number or a truth value. -/
  | single {s : Scalar} {d : Datum} : Lane s d → Storable (.scalar s) d
  /-- One or more of them. -/
  | lanes {s : Scalar} {ds : List Datum} : ds ≠ [] → (∀ d ∈ ds, Lane s d) →
      Storable (.vector ds.length s) (.vector ds)

/-- The datum, an integer in the range of its type. -/
def Datum.normalized : Shape → Datum → Datum
  | .scalar s, .int v => .int (s.normalize v)
  | _, d => d

/-- The scalar that bytes stand for. -/
def Scalar.decode (s : Scalar) (bytes : List UInt8) : Datum :=
  match s.kind with
  | .bool => .bool (bytes.headD 0 != 0)
  | .float => .f32 ⟨UInt32.ofNat (ofLittleEndian (bytes.take 4))⟩
  | _ => .int (s.normalize (Int64.ofNat (ofLittleEndian bytes)))

/-- A scalar is loaded when its bytes are inside the region. -/
theorem Memory.loadScalar_eq_ok {m : Memory} : m.loadScalar p s = .ok d ↔
    InBounds m.regions p s.width ∧ d = s.decode (bytesFrom m.regions p s.width) := by
  unfold Memory.loadScalar
  rw [bind_eq_ok_iff]
  constructor
  · rintro ⟨bytes, hread, heq⟩
    obtain ⟨hin, rfl⟩ := readBytes_eq_ok.mp hread
    exact ⟨hin, (Except.ok.inj heq).symm⟩
  · rintro ⟨hin, rfl⟩
    exact ⟨_, readBytes_eq_ok.mpr ⟨hin, rfl⟩, rfl⟩

/-- The bytes of a number or a truth value stand for it. -/
theorem Datum.Lane.decode (h : d.Lane s) : ∃ bytes, Memory.bytesOf? d = some bytes ∧
    bytes.length = s.width ∧ s.decode bytes = d := by
  cases h with
  | f32 x =>
    refine ⟨_, rfl, length_littleEndian _ _, ?_⟩
    have htake : (littleEndian 4 x.bits.toNat).take 4 = littleEndian 4 x.bits.toNat :=
      List.take_of_length_le (Nat.le_of_eq (length_littleEndian _ _))
    have hbits : x.bits.toNat % 256 ^ 4 = x.bits.toNat := Nat.mod_eq_of_lt x.bits.toNat_lt
    simp only [Scalar.decode, Scalar.f32, htake, ofLittleEndian_littleEndian, hbits,
      UInt32.ofNat_toNat]
  | bool b => cases b <;> exact ⟨_, rfl, rfl, rfl⟩

/-- The bytes of an integer stand for it, up to its type. -/
theorem Scalar.decode_littleEndian (hs : s.isInteger = true) (hw : s.width ≤ 8) (v : Int64) :
    s.decode (littleEndian s.width v.toUInt64.toNat) = .int (s.normalize v) := by
  have hkind : s.kind = .sint ∨ s.kind = .uint := by
    unfold isInteger at hs
    split at hs <;> simp_all
  have hbits : s.bits = s.width * 8 := by
    unfold bits
    rcases hkind with hk | hk <;> rw [hk]
  have hpow : 256 ^ s.width = 2 ^ s.bits := by
    rw [hbits, Nat.mul_comm, Nat.pow_mul]
  have hlow : s.lowBits (Int64.ofNat (v.toUInt64.toNat % 2 ^ s.bits)) = s.lowBits v := by
    have hdvd : 2 ^ s.bits ∣ 2 ^ 64 := Nat.pow_dvd_pow 2 (by omega)
    rw [lowBits, toNat_ofNat, Nat.mod_mod_of_dvd _ hdvd, Nat.mod_mod]
    rfl
  have hint : s.decode (littleEndian s.width v.toUInt64.toNat) =
      .int (s.normalize (Int64.ofNat (v.toUInt64.toNat % 2 ^ s.bits))) := by
    rw [← hpow, ← ofLittleEndian_littleEndian, decode]
    rcases hkind with hk | hk <;> rw [hk]
  rw [hint, (normalize_eq_iff (by rcases hkind with hk | hk <;> simp [hk])).mpr hlow]

/-! ## Chunks of lanes -/

/-- The chunks of lanes, one after the other. -/
theorem laneChunks_cons (h : d.Lane s) (p : Pointer) (ds : List Datum) :
    ∃ bytes, bytes.length = s.width ∧ s.decode bytes = d ∧
      laneChunks p (d :: ds) =
        (laneChunks (p.advance (Int64.ofNat s.width)) ds).map (⟨p, bytes⟩ :: ·) := by
  obtain ⟨bytes, hbytes, hlen, hdec⟩ := h.decode
  refine ⟨bytes, hlen, hdec, ?_⟩
  rw [laneChunks, hbytes, Option.bind_eq_bind, Option.bind_some, hlen]
  cases laneChunks (p.advance (Int64.ofNat s.width)) ds <;> rfl

theorem exists_laneChunks : ∀ {ds : List Datum} (p : Pointer), (∀ d ∈ ds, d.Lane s) →
    ∃ cs, laneChunks p ds = some cs
  | [], _, _ => ⟨[], rfl⟩
  | d :: ds, p, h => by
    obtain ⟨bytes, _, _, hcons⟩ := laneChunks_cons (h d List.mem_cons_self) p ds
    have hds : ∀ e ∈ ds, e.Lane s := fun e he => h e (List.mem_cons_of_mem _ he)
    obtain ⟨cs, hcs⟩ := exists_laneChunks (p.advance (Int64.ofNat s.width)) hds
    exact ⟨_, by rw [hcons, hcs]; rfl⟩

/-- Lanes are inside their region when all their bytes are. -/
theorem fits_laneChunks_iff (hrs : ∀ r, extentOf rs r < 2 ^ 63) : ∀ {ds : List Datum} {p : Pointer}
    {cs : List Chunk}, ds ≠ [] → (∀ d ∈ ds, d.Lane s) → laneChunks p ds = some cs →
    ((∀ c ∈ cs, c.Fits rs) ↔ InBounds rs p (ds.length * s.width))
  | [], _, _, hne, _, _ => absurd rfl hne
  | d :: ds, p, cs, _, h, hcs => by
    obtain ⟨bytes, hlen, _, hcons⟩ := laneChunks_cons (h d List.mem_cons_self) p ds
    rw [hcons] at hcs
    obtain ⟨rest, hrest, rfl⟩ := Option.map_eq_some_iff.mp hcs
    have hfirst : Chunk.Fits ⟨p, bytes⟩ rs ↔ InBounds rs p s.width := by rw [Chunk.Fits, hlen]
    rw [List.forall_mem_cons, hfirst, List.length_cons, Nat.succ_mul, Nat.add_comm,
      inBounds_add_iff hrs]
    by_cases hnil : ds = []
    · -- There is nothing after the last lane.
      subst hnil
      cases hrest
      rw [List.length_nil, Nat.zero_mul]
      refine and_congr_right fun hin => ⟨fun _ => ?_, fun _ => by simp⟩
      exact ((inBounds_add_iff hrs).mp (by rwa [Nat.add_zero])).2
    · exact and_congr_right fun _ => fits_laneChunks_iff hrs hnil
        (fun e he => h e (List.mem_cons_of_mem _ he)) hrest

/-- The chunks of lanes lie behind the place of the first one. -/
theorem place_of_mem_laneChunks (hrs : ∀ r, extentOf rs r < 2 ^ 63) : ∀ {ds : List Datum}
    {p : Pointer} {cs : List Chunk}, (∀ d ∈ ds, d.Lane s) → laneChunks p ds = some cs →
    (∀ c ∈ cs, c.Fits rs) → ∀ c ∈ cs, c.place.region = p.region ∧ p.start ≤ c.place.start ∧
      c.place.start + c.bytes.length ≤ p.start + ds.length * s.width
  | [], _, _, _, hcs, _ => by
    cases hcs
    simp
  | d :: ds, p, cs, h, hcs, hf => by
    obtain ⟨bytes, hlen, _, hcons⟩ := laneChunks_cons (h d List.mem_cons_self) p ds
    rw [hcons] at hcs
    obtain ⟨rest, hrest, rfl⟩ := Option.map_eq_some_iff.mp hcs
    obtain ⟨hfirst, hf⟩ := List.forall_mem_cons.mp hf
    have hin : InBounds rs p s.width := hlen ▸ hfirst
    intro c hc
    rw [List.length_cons, Nat.succ_mul]
    rcases List.mem_cons.mp hc with rfl | hc
    · exact ⟨rfl, Nat.le_refl _, by dsimp only; omega⟩
    · obtain ⟨hr, hle, hend⟩ := place_of_mem_laneChunks hrs
        (fun e he => h e (List.mem_cons_of_mem _ he)) hrest hf c hc
      rw [start_advance hrs hin] at hle hend
      exact ⟨hr, by omega, by omega⟩

/-! ## Reading back -/

/-- What a chunk wrote is read at its place, as long as no later chunk covers it. -/
theorem bytesFrom_writeChunks {c : Chunk} {cs : List Chunk} (hf : c.Fits rs)
    (hfs : ∀ e ∈ cs, e.Fits rs) (hclear : ∀ e ∈ cs, e.place.region = c.place.region →
      c.place.start + c.bytes.length ≤ e.place.start) :
    bytesFrom (writeChunks (writeChunk rs c) cs) c.place c.bytes.length = c.bytes := by
  refine List.ext_getElem? fun k => ?_
  rw [getElem?_bytesFrom]
  by_cases hk : k < c.bytes.length
  · have hcov : c.Covers c.place.region (c.place.start + k) := ⟨rfl, by omega, by omega⟩
    rw [if_pos hk, byteAt_writeChunks_of_not_covers cs
      (fun e he => (sameExtents_writeChunk rs c).fits.mp (hfs e he)) ?_, byteAt_writeChunk hf,
      if_pos hcov, Nat.add_sub_cancel_left]
    rintro e he ⟨hr, hle, _⟩
    have := hclear e he hr
    omega
  · rw [if_neg hk, List.getElem?_eq_none (by omega)]

theorem Memory.loadLanes_writeChunks {m : Memory} : ∀ {ds : List Datum} {p : Pointer}
    {cs : List Chunk} {rs : Array Region}, (∀ r, extentOf rs r < 2 ^ 63) → (∀ d ∈ ds, d.Lane s) →
    laneChunks p ds = some cs → (∀ c ∈ cs, c.Fits rs) → m.regions = writeChunks rs cs →
    m.loadLanes s ds.length p = .ok ds
  | [], _, _, _, _, _, _, _, _ => rfl
  | d :: ds, p, cs, rs, hrs, h, hcs, hf, hm => by
    obtain ⟨bytes, hlen, hdec, hcons⟩ := laneChunks_cons (h d List.mem_cons_self) p ds
    rw [hcons] at hcs
    obtain ⟨rest, hrest, rfl⟩ := Option.map_eq_some_iff.mp hcs
    obtain ⟨hfirst, hf⟩ := List.forall_mem_cons.mp hf
    have hin : InBounds rs p s.width := hlen ▸ hfirst
    have hds : ∀ e ∈ ds, e.Lane s := fun e he => h e (List.mem_cons_of_mem _ he)
    have hext := sameExtents_writeChunk rs ⟨p, bytes⟩
    have hread : bytesFrom m.regions p s.width = bytes := by
      rw [hm, writeChunks_cons, ← hlen]
      refine bytesFrom_writeChunks (c := ⟨p, bytes⟩) hfirst hf fun e he _ => ?_
      have hle := (place_of_mem_laneChunks hrs hds hrest hf e he).2.1
      rwa [start_advance hrs hin, ← hlen] at hle
    have hscalar : m.loadScalar p s = .ok d := by
      refine loadScalar_eq_ok.mpr ⟨?_, by rw [hread, hdec]⟩
      rw [hm]
      exact (sameExtents_writeChunks _ rs).inBounds.mp hin
    have hlanes := loadLanes_writeChunks (fun r => hext.2 r ▸ hrs r) hds hrest
      (fun c hc => hext.fits.mp (hf c hc)) hm
    rw [List.length_cons, Memory.loadLanes, hscalar, hlanes]
    rfl

/-! ## Other bytes -/

/-- The bytes of the chunks are among those of an access. -/
def ChunksWithin (p : Pointer) (n : Nat) (cs : List Chunk) : Prop :=
  ∀ c ∈ cs, c.place.region = p.region ∧ p.offset.toInt ≤ c.place.start ∧
    c.place.start + c.bytes.length ≤ p.offset.toInt + n

/-- A scalar is loaded, or not loaded, as it was before other bytes were written. -/
theorem Memory.loadScalar_of_apart {m m' : Memory} {cs : List Chunk}
    (hm : m'.regions = writeChunks m.regions cs) (hf : ∀ c ∈ cs, c.Fits m.regions)
    (hcs : ChunksWithin p n cs) (hq : BytesApart p n q s.width) :
    m'.loadScalar q s = m.loadScalar q s := by
  have hext : SameExtents m.regions m'.regions := hm ▸ sameExtents_writeChunks cs _
  by_cases hin : InBounds m.regions q s.width
  · have hbytes : bytesFrom m'.regions q s.width = bytesFrom m.regions q s.width := by
      refine (bytesFrom_congr (fun o hlo hhi => ?_) hin (hext.inBounds.mp hin)).symm
      rw [hm, byteAt_writeChunks_of_not_covers cs hf]
      rintro c hc ⟨hr, hle, hlt⟩
      obtain ⟨hreg, hstart, hend⟩ := hcs c hc
      have hoff := hin.start_eq
      rcases hq with hne | happ | happ
      · exact hne (hreg.symm.trans hr)
      · omega
      · omega
    rw [loadScalar_eq_ok.mpr ⟨hin, rfl⟩, loadScalar_eq_ok.mpr ⟨hext.inBounds.mp hin, rfl⟩, hbytes]
  · have hfault : m.start q s.width = m'.start q s.width := by
      have hlen : m.length q.region = m'.length q.region := hext.2 q.region
      unfold Memory.start
      rw [hlen, hext.1]
    have hfail : ∀ {x : Memory}, ¬ InBounds x.regions q s.width →
        ∃ e, x.start q s.width = .error e := by
      intro x hx
      cases hstart : x.start q s.width with
      | ok a => exact absurd (start_eq_ok.mp hstart).1 hx
      | error e => exact ⟨e, rfl⟩
    obtain ⟨e, he⟩ := hfail hin
    have he' := hfault.symm.trans he
    unfold Memory.loadScalar Memory.readBytes
    rw [he, he']
    rfl

theorem Memory.loadLanes_of_apart {m m' : Memory} (hrs : m.Addressable) {cs : List Chunk}
    (hm : m'.regions = writeChunks m.regions cs) (hf : ∀ c ∈ cs, c.Fits m.regions)
    (hcs : ChunksWithin p n cs) : ∀ {lanes : Nat} {q : Pointer},
    BytesApart p n q (lanes * s.width) → m'.loadLanes s lanes q = m.loadLanes s lanes q
  | 0, _, _ => rfl
  | lanes + 1, q, hq => by
    have hq' : BytesApart p n q s.width := by
      unfold BytesApart at hq ⊢
      rw [Nat.succ_mul] at hq
      omega
    have hscalar := loadScalar_of_apart hm hf hcs hq'
    rw [Memory.loadLanes, Memory.loadLanes, hscalar]
    cases hd : m.loadScalar q s with
    | error e => rfl
    | ok d =>
      have hin := inBounds_of_loadScalar hd
      have hadv := toInt_advance hrs hin
      rw [loadLanes_of_apart hrs hm hf hcs]
      unfold BytesApart at hq ⊢
      rw [Nat.succ_mul] at hq
      rw [hadv]
      simp only [Pointer.advance]
      omega

theorem storeSize_of_scalar {tt : TypeTable} {t : TyId} (h : tt.shape t = .scalar s) :
    tt.storeSize t = s.width := by
  rw [TypeTable.storeSize, TypeTable.extent, TypeTable.extentWithin, h]

theorem storeSize_of_vector {tt : TypeTable} {t : TyId} {lanes : Nat}
    (h : tt.shape t = .vector lanes s) : tt.storeSize t = lanes * s.width := by
  rw [TypeTable.storeSize, TypeTable.extent, TypeTable.extentWithin, h]

/-- A load finds what was there before other bytes were written. -/
theorem Memory.load_of_apart {m m' : Memory} (hrs : m.Addressable) {cs : List Chunk}
    (hm : m'.regions = writeChunks m.regions cs) (hf : ∀ c ∈ cs, c.Fits m.regions)
    (hcs : ChunksWithin p n cs) {tt : TypeTable} {u : TyId}
    (hq : BytesApart p n q (tt.storeSize u)) : m'.load tt q u = m.load tt q u := by
  unfold Memory.load
  cases hu : tt.shape u with
  | scalar s => exact loadScalar_of_apart hm hf hcs (storeSize_of_scalar hu ▸ hq)
  | vector lanes s =>
    simp only [loadLanes_of_apart hrs hm hf hcs (storeSize_of_vector hu ▸ hq)]
  | _ => rfl

/-! ## Data that can be stored -/

section

variable {tt : TypeTable} {t : TyId}

/-- What a store writes, where, and what is read there afterwards. -/
theorem Datum.Storable.chunks (h : d.Storable (tt.shape t)) (hrs : ∀ r, extentOf rs r < 2 ^ 63) :
    ∃ cs, storeChunks tt t d p = some cs ∧
      ((∀ c ∈ cs, c.Fits rs) ↔ InBounds rs p (tt.storeSize t)) ∧
      ((∀ c ∈ cs, c.Fits rs) → ChunksWithin p (tt.storeSize t) cs ∧
        ∀ m : Memory, m.regions = writeChunks rs cs →
          m.load tt p t = .ok (d.normalized (tt.shape t))) := by
  -- One run of bytes in the width of a scalar.
  have single : ∀ {s bytes}, tt.shape t = .scalar s → bytes.length = s.width →
      s.decode bytes = d.normalized (tt.shape t) →
      ((∀ c ∈ [Chunk.mk p bytes], c.Fits rs) ↔ InBounds rs p (tt.storeSize t)) ∧
      ((∀ c ∈ [Chunk.mk p bytes], c.Fits rs) → ChunksWithin p (tt.storeSize t) [⟨p, bytes⟩] ∧
        ∀ m : Memory, m.regions = writeChunks rs [⟨p, bytes⟩] →
          m.load tt p t = .ok (d.normalized (tt.shape t))) := by
    intro s bytes hs hlen hdec
    have hfits : Chunk.Fits ⟨p, bytes⟩ rs ↔ InBounds rs p s.width := by rw [Chunk.Fits, hlen]
    rw [List.forall_mem_singleton, hfits, storeSize_of_scalar hs]
    refine ⟨Iff.rfl, fun hin => ⟨?_, fun m hm => ?_⟩⟩
    · rw [ChunksWithin, List.forall_mem_singleton, hlen]
      have hstart := hin.start_eq
      exact ⟨rfl, by dsimp only; omega, by dsimp only; omega⟩
    · have hread : bytesFrom m.regions p s.width = bytes := by
        rw [hm, ← hlen]
        exact @bytesFrom_writeChunks rs ⟨p, bytes⟩ [] (hfits.mpr hin) (by simp) (by simp)
      rw [← hdec, ← hread, Memory.load, hs]
      refine Memory.loadScalar_eq_ok.mpr ⟨?_, rfl⟩
      rw [hm]
      exact (sameExtents_writeChunks _ rs).inBounds.mp hin
  generalize hs : tt.shape t = shape at h
  cases h with
  | int v hi _ hw =>
    have hdec := Scalar.decode_littleEndian hi hw v
    refine ⟨_, ?_, hs ▸ single hs (length_littleEndian _ v.toUInt64.toNat) (hs ▸ hdec)⟩
    rw [storeChunks, TypeTable.elementScalar?, hs]
    rfl
  | single h =>
    obtain ⟨bytes, hbytes, hlen, hdec⟩ := h.decode
    refine ⟨_, ?_, hs ▸ single hs hlen ?_⟩
    · cases h <;> simp [storeChunks, hbytes]
    · rw [hdec, hs]
      cases h <;> rfl
  | @lanes s ds hne h =>
    obtain ⟨cs, hcs⟩ := exists_laneChunks p h
    have hiff := fits_laneChunks_iff hrs hne h hcs
    refine ⟨cs, hcs, ?_, fun hf => ⟨fun c hc => ?_, fun m hm => ?_⟩⟩
    · rwa [storeSize_of_vector hs]
    · have hstart := (hiff.mp hf).start_eq
      obtain ⟨hr, hle, hend⟩ := place_of_mem_laneChunks hrs h hcs hf c hc
      rw [storeSize_of_vector hs]
      exact ⟨hr, by omega, by omega⟩
    · rw [Memory.load, hs]
      simp only [Memory.loadLanes_writeChunks hrs h hcs hf hm]
      rfl

end

/-! ## Vectors lane by lane -/

/-- The place of a lane. -/
def Pointer.lane (p : Pointer) (s : Scalar) (k : Nat) : Pointer :=
  p.advance (Int64.ofNat (k * s.width))

theorem Pointer.lane_zero (p : Pointer) (s : Scalar) : p.lane s 0 = p := by
  simp [Pointer.lane, Pointer.advance]

theorem Pointer.lane_succ (p : Pointer) (s : Scalar) (k : Nat) :
    (p.lane s k).advance (Int64.ofNat s.width) = p.lane s (k + 1) := by
  rw [lane, advance_advance, ← Int64.ofNat_add, ← Nat.succ_mul]
  rfl

/-- Lanes are stored like scalars one after the other. -/
theorem Memory.storeLanes_eq_forM : ∀ {ds : List Datum} (k : Nat), (∀ d ∈ ds, d.Lane s) →
    Memory.storeLanes (p.lane s k) ds =
      (ds.zipIdx k).forM fun (d, i) => Memory.storeDatum (p.lane s i) d
  | [], _, _ => rfl
  | d :: ds, k, h => by
    have hd := h d List.mem_cons_self
    obtain ⟨bytes, hbytes, hlen, _⟩ := hd.decode
    have hstore : Memory.storeDatum (p.lane s k) d = Access.writeBytes (p.lane s k) bytes := by
      cases hd <;> rw [Memory.storeDatum, hbytes] <;> simp
    have hrest := storeLanes_eq_forM (k + 1) fun e he => h e (List.mem_cons_of_mem _ he)
    simp only [Memory.storeLanes, hbytes, hlen, Pointer.lane_succ, hrest, ← hstore]
    rfl

/-- Lanes are loaded like scalars one after the other. -/
theorem Memory.loadLanes_eq_mapM (m : Memory) (s : Scalar) (p : Pointer) : ∀ (lanes k : Nat),
    m.loadLanes s lanes (p.lane s k) =
      (List.range' k lanes).mapM fun i => m.loadScalar (p.lane s i) s
  | 0, _ => rfl
  | lanes + 1, k => by
    rw [Memory.loadLanes, List.range'_succ, List.mapM_cons, Pointer.lane_succ,
      loadLanes_eq_mapM m s p lanes (k + 1)]

/-! ## Store instructions -/

/-- A store instruction whose operands are known counts and writes. -/
theorem Frame.compute_store {tt : TypeTable} {fr : Frame} {x : Inst} {v ptr : Operand}
    (hx : x.op = .store v ptr) (hp : fr.value tt ptr = some (.ptr p)) (hd : fr.value tt v = some d)
    (m : Memory) : fr.compute tt x m =
      storeAccess tt (fr.func.tyOf v) d p { m with stores := m.stores + 1 } := by
  simp only [Frame.compute, hx, Frame.eval_eq_ok.mpr hp, Frame.eval_eq_ok.mpr hd, Access.ofExcept,
    Access.bind_eq, Datum.asPtr, Access.countStore]
  rfl

/-- Memory is a byte store.  A store succeeds exactly when the bytes of the datum lie inside an
existing region.  Then the datum is loaded from there, other bytes are what they were, and so are
the regions.  A vector is moved like its lanes one after the other. -/
theorem Frame.store_loads_back {tt : TypeTable} {fr : Frame} {x : Inst} {v ptr : Operand} {t : TyId}
    (hx : x.op = .store v ptr) (ht : fr.func.tyOf v = t) (hp : fr.value tt ptr = some (.ptr p))
    (hd : fr.value tt v = some d) (hs : d.Storable (tt.shape t)) {m : Memory}
    (hrs : m.Addressable) :
    ((∃ m', fr.compute tt x m = (.ok .void, m')) ↔ p.region < m.regions.size ∧
      0 ≤ p.offset.toInt ∧ p.offset.toInt + tt.storeSize t ≤ extentOf m.regions p.region) ∧
    (∀ m', fr.compute tt x m = (.ok .void, m') →
      m'.load tt p t = .ok (d.normalized (tt.shape t)) ∧
      (∀ q u, BytesApart p (tt.storeSize t) q (tt.storeSize u) →
        m'.load tt q u = m.load tt q u) ∧
      SameExtents m.regions m'.regions) ∧
    ∀ s ds, tt.shape t = .vector ds.length s → d = .vector ds →
      Memory.storeDatum p d = ds.zipIdx.forM (fun (e, i) => Memory.storeDatum (p.lane s i) e) ∧
      ∀ m : Memory, m.load tt p t =
        ((List.range ds.length).mapM fun i => m.loadScalar (p.lane s i) s).map .vector := by
  obtain ⟨cs, hcs, hfits, hwritten⟩ := hs.chunks (p := p) hrs
  have hinb : InBounds m.regions p (tt.storeSize t) ↔ p.region < m.regions.size ∧
      0 ≤ p.offset.toInt ∧ p.offset.toInt + tt.storeSize t ≤ extentOf m.regions p.region := by
    unfold InBounds Pointer.start
    omega
  have hstore : ∀ {rs}, (∃ m', fr.compute tt x m = (.ok .void, m') ∧ m'.regions = rs) ↔
      (∀ c ∈ cs, c.Fits m.regions) ∧ rs = writeChunks m.regions cs := by
    intro rs
    rw [Frame.compute_store hx hp hd, ht, storeAccess_ok_iff]
    simp [hcs]
  refine ⟨?_, fun m' hm' => ?_, fun s ds hshape hds => ?_⟩
  · rw [← hinb, ← hfits]
    constructor
    · rintro ⟨m', hm'⟩
      exact (hstore.mp ⟨m', hm', rfl⟩).1
    · intro hf
      obtain ⟨m', hm', _⟩ := hstore.mpr ⟨hf, rfl⟩
      exact ⟨m', hm'⟩
  · obtain ⟨hf, hm⟩ := hstore.mp ⟨m', hm', rfl⟩
    obtain ⟨hwithin, hload⟩ := hwritten hf
    exact ⟨hload m' hm, fun q u hq => Memory.load_of_apart hrs hm hf hwithin hq,
      hm ▸ sameExtents_writeChunks cs _⟩
  · subst hds
    rw [hshape] at hs
    generalize hn : ds.length = lanes at hs
    cases hs with
    | lanes _ hlanes =>
      have hstart := (p.lane_zero s).symm
      refine ⟨?_, fun m => ?_⟩
      · rw [Memory.storeDatum, ← Memory.storeLanes_eq_forM 0 hlanes, ← hstart]
      · rw [Memory.load, hshape, List.range_eq_range', ← Memory.loadLanes_eq_mapM, ← hstart]
        rfl

/-- The types of `flagFrame`. -/
def flagTypes : TypeTable :=
  ⟨#[⟨none, .void⟩, ⟨none, .scalar .bool⟩, ⟨none, .vector 2 .bool⟩, ⟨none, .pointer 2⟩]⟩

/-- An activation of a function of a pair of truth values and a pointer. -/
def flagFrame (a b : Bool) (p : Pointer) : Frame where
  func := .declare "f" #[⟨"v", 2, false⟩, ⟨"p", 3, false⟩] 0
  args := [.vector [.bool a, .bool b], .ptr p]
  results := #[]
  block := 0
  rest := []

/-- The pair goes to the last two of four bytes. -/
theorem store_loads_back_pair : ∃ m', (flagFrame true false ⟨0, 2⟩).compute flagTypes
      ⟨.store (.param 0) (.param 1), 0, none, none⟩ ⟨#[#[7, 7, 7, 7]], 0, 0⟩ = (.ok .void, m') ∧
    m'.load flagTypes ⟨0, 2⟩ 2 = .ok (.vector [.bool true, .bool false]) ∧
    m'.load flagTypes ⟨0, 0⟩ 2 = Memory.load ⟨#[#[7, 7, 7, 7]], 0, 0⟩ flagTypes ⟨0, 0⟩ 2 := by
  have hpair : Datum.Storable (flagTypes.shape 2) (.vector [.bool true, .bool false]) :=
    @Datum.Storable.lanes .bool [.bool true, .bool false] (by decide)
      (by simpa using ⟨Datum.Lane.bool true, Datum.Lane.bool false⟩)
  have h := @Frame.store_loads_back _ _ flagTypes (flagFrame true false ⟨0, 2⟩)
    ⟨.store (.param 0) (.param 1), 0, none, none⟩ _ _ _ rfl rfl rfl rfl hpair
    ⟨#[#[7, 7, 7, 7]], 0, 0⟩ (by decide)
  obtain ⟨m', hm'⟩ := h.1.mpr (by decide)
  obtain ⟨hload, hapart, _⟩ := h.2.1 m' hm'
  exact ⟨m', hm', hload, hapart ⟨0, 0⟩ 2 (.inr (.inr (by decide)))⟩

end LoopNest
