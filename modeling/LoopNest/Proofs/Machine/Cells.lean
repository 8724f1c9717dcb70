import LoopNest.Proofs.Machine.Arith
import LoopNest.Proofs.Machine.Compute

/-!
# Cells of buffers

A kernel works on *buffers*: a pointer, and single-precision numbers one after the other from
there on.  `Pointer.Spans` says that a pointer has room for some numbers, so that every element
is an access inside the region (`Pointer.Spans.inBounds`).

`Written` follows the memory of a run that fills buffers from their starts: what the buffers hold
so far, and that every other byte is as it was.
-/

namespace LoopNest

/-! ## Cells -/

/-- The number at a place. -/
def cellAt (rs : Array Region) (q : Pointer) : F32 :=
  Memory.wordAt (rs[q.region]?.getD #[]) q.start

/-- The bytes of a number, at a place. -/
def cellChunk (q : Pointer) (x : F32) : Chunk := ⟨q, littleEndian 4 x.bits.toNat⟩

/-- The regions with a number written to a place. -/
def storeCell (rs : Array Region) (q : Pointer) (x : F32) : Array Region :=
  writeChunk rs (cellChunk q x)

variable {rs rs' : Array Region} {p q : Pointer} {x : F32} {n : Nat}

theorem cellAt_eq (rs : Array Region) (q : Pointer) :
    cellAt rs q = ⟨UInt32.ofNat (ofLittleEndian (bytesFrom rs q 4))⟩ := rfl

theorem length_cellChunk (q : Pointer) (x : F32) : (cellChunk q x).bytes.length = 4 :=
  length_littleEndian _ _

theorem fits_cellChunk (h : InBounds rs q 4) (x : F32) : (cellChunk q x).Fits rs := by
  rw [Chunk.Fits, length_cellChunk]
  exact h

theorem sameExtents_storeCell (rs : Array Region) (q : Pointer) (x : F32) :
    SameExtents rs (storeCell rs q x) := sameExtents_writeChunk rs _

/-- A number is loaded from where it is. -/
theorem loadScalar_cell (h : InBounds rs q 4) :
    (Memory.ofRegions rs).loadScalar q .f32 = .ok (.f32 (cellAt rs q)) := by
  refine bind_eq_ok_iff.mpr ⟨bytesFrom rs q 4, Memory.readBytes_eq_ok.mpr ⟨h, rfl⟩, ?_⟩
  have htake : (bytesFrom rs q 4).take 4 = bytesFrom rs q 4 := by
    refine List.take_of_length_le ?_
    simp only [bytesFrom, Array.length_toList, Array.size_extract]
    omega
  simp only [Scalar.f32, htake, cellAt_eq]
  rfl

theorem cellAt_congr (hin : InBounds rs q 4) (hin' : InBounds rs' q 4)
    (h : ∀ o, q.start ≤ o → o < q.start + 4 → byteAt rs q.region o = byteAt rs' q.region o) :
    cellAt rs q = cellAt rs' q := by
  rw [cellAt_eq, cellAt_eq, bytesFrom_congr h hin hin']

theorem getElem?_bytesFrom (rs : Array Region) (p : Pointer) (n k : Nat) :
    (bytesFrom rs p n)[k]? = if k < n then byteAt rs p.region (p.start + k) else none := by
  rw [bytesFrom, byteAt, Array.getElem?_toList, Array.getElem?_extract]
  cases rs[p.region]? with
  | none => simp
  | some r =>
    simp only [Option.getD_some, Option.bind_some]
    by_cases hk : k < n
    · by_cases hr : p.start + k < r.size
      · rw [if_pos (by omega), if_pos hk]
      · rw [if_neg (by omega), if_pos hk, Array.getElem?_eq_none (by omega)]
    · rw [if_neg (by omega), if_neg hk]

theorem ofLittleEndian_lt : ∀ bs : List UInt8, ofLittleEndian bs < 256 ^ bs.length
  | [] => Nat.one_pos
  | b :: bs => by
    have hb := b.toNat_lt
    have hbs := ofLittleEndian_lt bs
    rw [ofLittleEndian, List.length_cons, Nat.pow_succ]
    omega

/-- As many bytes that stand for the same number are the same. -/
theorem ofLittleEndian_inj : ∀ {bs cs : List UInt8}, bs.length = cs.length →
    ofLittleEndian bs = ofLittleEndian cs → bs = cs
  | [], [], _, _ => rfl
  | b :: bs, c :: cs, hlen, h => by
    have hb := b.toNat_lt
    have hc := c.toNat_lt
    rw [ofLittleEndian, ofLittleEndian] at h
    have hhead : b.toNat = c.toNat := by omega
    have htail : ofLittleEndian bs = ofLittleEndian cs := by omega
    rw [UInt8.toNat_inj.mp hhead, ofLittleEndian_inj (Nat.succ.inj hlen) htail]

/-- A number tells its bytes. -/
theorem byteAt_of_cellAt (hin : InBounds rs q 4) (hin' : InBounds rs' q 4)
    (h : cellAt rs q = cellAt rs' q) {o : Nat} (hlo : q.start ≤ o) (hhi : o < q.start + 4) :
    byteAt rs q.region o = byteAt rs' q.region o := by
  have hlen : ∀ {ts : Array Region}, InBounds ts q 4 → (bytesFrom ts q 4).length = 4 := by
    intro ts ht
    obtain ⟨-, hle, hlt⟩ := ht
    simp only [extentOf, Array.getElem?_eq_getElem hlt, Option.map_some, Option.getD_some] at hle
    simp only [bytesFrom, Array.length_toList, Array.size_extract, Array.getElem?_eq_getElem hlt,
      Option.getD_some]
    omega
  have hbound : ∀ {ts : Array Region}, InBounds ts q 4 → ofLittleEndian (bytesFrom ts q 4) < 2 ^ 32 :=
    fun ht => Nat.lt_of_lt_of_eq (ofLittleEndian_lt _) (by rw [hlen ht])
  rw [cellAt_eq, cellAt_eq] at h
  have hbits := congrArg (fun x : F32 => x.bits.toNat) h
  simp only [UInt32.toNat_ofNat_of_lt' (hbound hin), UInt32.toNat_ofNat_of_lt' (hbound hin')] at hbits
  have hbytes := ofLittleEndian_inj ((hlen hin).trans (hlen hin').symm) hbits
  have hk := congrArg (·[o - q.start]?) hbytes
  simpa only [getElem?_bytesFrom, Nat.add_sub_cancel' hlo, if_pos (Nat.sub_lt_left_of_lt_add hlo hhi)]
    using hk

/-- A number that was written is read back. -/
theorem cellAt_storeCell (h : InBounds rs q 4) (x : F32) : cellAt (storeCell rs q x) q = x := by
  have hread : bytesFrom (storeCell rs q x) q 4 = littleEndian 4 x.bits.toNat := by
    refine List.ext_getElem? fun k => ?_
    rw [getElem?_bytesFrom]
    by_cases hk : k < 4
    · have hcov : (cellChunk q x).Covers q.region (q.start + k) := by
        rw [Chunk.Covers, length_cellChunk]
        exact ⟨rfl, Nat.le_add_right _ _, Nat.add_lt_add_left hk _⟩
      rw [if_pos hk, storeCell, byteAt_writeChunk (fits_cellChunk h x), if_pos hcov]
      show (littleEndian 4 x.bits.toNat)[q.start + k - q.start]? = _
      rw [Nat.add_sub_cancel_left]
    · rw [if_neg hk, List.getElem?_eq_none]
      rw [length_littleEndian]
      omega
  have hbits : x.bits.toNat % 256 ^ 4 = x.bits.toNat := Nat.mod_eq_of_lt x.bits.toNat_lt
  rw [cellAt_eq, hread, ofLittleEndian_littleEndian, hbits, UInt32.ofNat_toNat]

theorem byteAt_storeCell (h : InBounds rs q 4) (x : F32) {r o : Nat}
    (hne : ¬ (q.region = r ∧ q.start ≤ o ∧ o < q.start + 4)) :
    byteAt (storeCell rs q x) r o = byteAt rs r o := by
  rw [storeCell, byteAt_writeChunk (fits_cellChunk h x), if_neg]
  rw [Chunk.Covers, length_cellChunk]
  exact hne

/-! ## Elements of buffers -/

/-- The element some places after a pointer. -/
def Pointer.element (p : Pointer) (n : Int) : Pointer := p.advance (Int64.ofInt (4 * n))

@[simp] theorem Pointer.region_element (p : Pointer) (n : Int) :
    (p.element n).region = p.region := rfl

@[simp] theorem Pointer.element_zero (p : Pointer) : p.element 0 = p := by
  simp [element, advance]

/-- The pointer has room for some numbers, in a region that is no longer than addresses reach. -/
structure Pointer.Spans (p : Pointer) (n : Nat) (rs : Array Region) : Prop where
  inBounds : InBounds rs p (n * 4)
  extent_lt : extentOf rs p.region < 2 ^ 63

namespace Pointer.Spans

theorem start_element (h : p.Spans n rs) {k : Nat} (hk : k < n) :
    (p.element k).region = p.region ∧ 0 ≤ (p.element k).offset.toInt ∧
      (p.element k).start = p.start + 4 * k := by
  obtain ⟨⟨hlo, hle, _⟩, hlt⟩ := h
  have hstart : (p.start : Int) = p.offset.toInt := Int.toNat_of_nonneg hlo
  have hoff : (p.element k).offset.toInt = p.offset.toInt + 4 * k := by
    have hk' : (Int64.ofInt (4 * k)).toInt = 4 * k := by
      rw [Int64.toInt_ofInt, Int64.size]
      exact Int.bmod_eq_of_le_mul_two (by omega) (by omega)
    rw [element, advance, Int64.toInt_add, hk']
    exact Int.bmod_eq_of_le_mul_two (by omega) (by omega)
  refine ⟨rfl, by omega, ?_⟩
  rw [Pointer.start, hoff]
  omega

theorem inBounds_element (h : p.Spans n rs) {k : Nat} (hk : k < n) :
    InBounds rs (p.element k) 4 := by
  obtain ⟨hr, hlo, hstart⟩ := h.start_element hk
  obtain ⟨⟨_, hle, hlt⟩, _⟩ := h
  refine ⟨hlo, ?_, hr ▸ hlt⟩
  rw [hr, hstart]
  omega

theorem sameExtents (h : p.Spans n rs) (he : SameExtents rs rs') : p.Spans n rs' :=
  ⟨he.inBounds.mp h.inBounds, he.2 p.region ▸ h.extent_lt⟩

theorem mono (h : p.Spans n rs) {k : Nat} (hk : k ≤ n) : p.Spans k rs :=
  ⟨⟨h.inBounds.1, Nat.le_trans (by omega) h.inBounds.2.1, h.inBounds.2.2⟩, h.extent_lt⟩

end Pointer.Spans

theorem cellAt_element (h : p.Spans n rs) {k : Nat} (hk : k < n) :
    cellAt rs (p.element k) = Memory.wordAt (rs[p.region]?.getD #[]) (p.start + k * 4) := by
  obtain ⟨hreg, _, hstart⟩ := h.start_element hk
  rw [cellAt, hreg, hstart, Nat.mul_comm]

/-- A buffer is read element by element. -/
theorem Memory.readF32_eq_ok {m : Memory} {xs : List F32}
    (hlt : extentOf m.regions p.region < 2 ^ 63) :
    m.readF32 p n = .ok xs ↔ p.Spans n m.regions ∧ xs.length = n ∧
      ∀ (k : Nat) x, xs[k]? = some x → cellAt m.regions (p.element k) = x := by
  rw [Memory.readF32, bind_eq_ok_iff]
  constructor
  · rintro ⟨s, hs, hxs⟩
    obtain ⟨hin, rfl⟩ := Memory.start_eq_ok.mp hs
    cases hxs
    have hspan : p.Spans n m.regions := ⟨hin, hlt⟩
    refine ⟨hspan, by simp, fun k x hx => ?_⟩
    rw [List.getElem?_map, Option.map_eq_some_iff] at hx
    obtain ⟨j, hj, rfl⟩ := hx
    obtain ⟨hk, hj⟩ := List.getElem?_eq_some_iff.mp hj
    rw [List.length_range] at hk
    rw [List.getElem_range] at hj
    subst hj
    exact cellAt_element hspan hk
  · rintro ⟨hspan, hlen, hcells⟩
    refine ⟨p.start, Memory.start_eq_ok.mpr ⟨hspan.inBounds, rfl⟩, ?_⟩
    refine congrArg Except.ok (List.ext_getElem (by simp [hlen]) fun k hk hk' => ?_)
    have hx := hcells k _ (List.getElem?_eq_getElem hk')
    rw [cellAt_element hspan (hlen ▸ hk')] at hx
    simpa [Memory.region] using hx

theorem Memory.cells_of_readF32 {m : Memory} {xs : List F32}
    (hlt : extentOf m.regions p.region < 2 ^ 63) (h : m.readF32 p n = .ok xs) :
    p.Spans n m.regions ∧ ∀ k < n, cellAt m.regions (p.element k) = xs.getD k .zero := by
  obtain ⟨hspans, hlen, hcells⟩ := (readF32_eq_ok hlt).mp h
  refine ⟨hspans, fun k hk => hcells k _ ?_⟩
  rw [List.getD_eq_getElem?_getD, List.getElem?_eq_getElem (hlen ▸ hk), Option.getD_some]

section

variable (r : Region)

theorem InBounds.push {k : Nat} (h : InBounds rs q k) : InBounds (rs.push r) q k := by
  obtain ⟨hlo, hle, hlt⟩ := h
  refine ⟨hlo, ?_, Nat.lt_of_lt_of_le hlt (by simp)⟩
  rwa [extentOf, Array.getElem?_push_lt hlt, ← Array.getElem?_eq_getElem hlt]

theorem Pointer.Spans.push (h : p.Spans n rs) : p.Spans n (rs.push r) := by
  refine ⟨h.inBounds.push r, ?_⟩
  have hlt := h.inBounds.2.2
  rw [extentOf, Array.getElem?_push_lt hlt, ← Array.getElem?_eq_getElem hlt]
  exact h.extent_lt

theorem cellAt_push (h : InBounds rs q 4) : cellAt (rs.push r) q = cellAt rs q := by
  have hlt := h.2.2
  rw [cellAt, Array.getElem?_push_lt hlt, ← Array.getElem?_eq_getElem hlt, cellAt]

/-- A new region is spanned from its start. -/
theorem spans_push (hr : n * 4 ≤ r.size) (hlt : r.size < 2 ^ 63) :
    Pointer.Spans ⟨rs.size, 0⟩ n (rs.push r) := by
  have hext : extentOf (rs.push r) rs.size = r.size := by simp [extentOf]
  refine ⟨⟨by simp, ?_, by simp⟩, hext ▸ hlt⟩
  rw [hext]
  simpa [Pointer.start] using hr

end

/-! ## Filling buffers -/

/-- The regions are as they were, but for some buffers that now start with given numbers. -/
structure Written (base rs : Array Region) (ws : List (Pointer × List F32)) : Prop where
  extents : SameExtents base rs
  spans : ∀ w ∈ ws, w.1.Spans w.2.length base
  cell_eq : ∀ w ∈ ws, ∀ (k : Nat) x, w.2[k]? = some x → cellAt rs (w.1.element k) = x
  byteAt_eq : ∀ r o, (∀ w ∈ ws, ¬ (w.1.region = r ∧ w.1.start ≤ o ∧
    o < w.1.start + 4 * w.2.length)) → byteAt rs r o = byteAt base r o

namespace Written

variable {base : Array Region} {ws : List (Pointer × List F32)} {xs ys : List F32}

/-- Nothing is written yet. -/
theorem refl {ps : List Pointer} (h : ∀ p ∈ ps, p.Spans 0 rs) :
    Written rs rs (ps.map fun p => (p, [])) where
  extents := .refl rs
  spans w hw := by
    obtain ⟨p, hp, rfl⟩ := List.mem_map.mp hw
    exact h p hp
  cell_eq w hw k x hx := by
    obtain ⟨p, _, rfl⟩ := List.mem_map.mp hw
    cases hx
  byteAt_eq _ _ _ := rfl

theorem perm {ws' : List (Pointer × List F32)} (h : Written base rs ws) (hp : ws.Perm ws') :
    Written base rs ws' where
  extents := h.extents
  spans w hw := h.spans w (hp.mem_iff.mpr hw)
  cell_eq w hw := h.cell_eq w (hp.mem_iff.mpr hw)
  byteAt_eq r o ho := h.byteAt_eq r o fun w hw => ho w (hp.mem_iff.mp hw)

/-- The number in a buffer of one. -/
theorem cellAt_head (h : Written base rs ((p, [x]) :: ws)) : cellAt rs p = x := by
  simpa using h.cell_eq _ List.mem_cons_self 0 x rfl

/-- What was written tells what the regions are. -/
theorem unique (h : Written base rs ws) (h' : Written base rs' ws) : rs = rs' := by
  refine ext_byteAt (h.extents.1.symm.trans h'.extents.1) fun r o => ?_
  by_cases hcov : ∃ w ∈ ws, w.1.region = r ∧ w.1.start ≤ o ∧ o < w.1.start + 4 * w.2.length
  · obtain ⟨w, hw, rfl, hlo, hhi⟩ := hcov
    obtain ⟨k, hk⟩ : ∃ k, k = (o - w.1.start) / 4 := ⟨_, rfl⟩
    have hlt : k < w.2.length := by omega
    have hspans := (h.spans w hw).sameExtents h.extents
    obtain ⟨hreg, -, hstart⟩ := hspans.start_element hlt
    have hcell : cellAt rs (w.1.element k) = cellAt rs' (w.1.element k) :=
      (h.cell_eq w hw k _ (List.getElem?_eq_getElem hlt)).trans
        (h'.cell_eq w hw k _ (List.getElem?_eq_getElem hlt)).symm
    rw [← hreg]
    exact byteAt_of_cellAt (hspans.inBounds_element hlt)
      (((h'.spans w hw).sameExtents h'.extents).inBounds_element hlt) hcell
      (by rw [hstart]; omega) (by rw [hstart]; omega)
  · have hout : ∀ w ∈ ws, ¬ (w.1.region = r ∧ w.1.start ≤ o ∧ o < w.1.start + 4 * w.2.length) :=
      fun w hw hc => hcov ⟨w, hw, hc⟩
    rw [h.byteAt_eq r o hout, h'.byteAt_eq r o hout]

/-- A number in a region that is not written to. -/
theorem cellAt_base (h : Written base rs ws) (hin : InBounds base q 4)
    (hne : ∀ w ∈ ws, w.1.region ≠ q.region) : cellAt rs q = cellAt base q :=
  cellAt_congr (h.extents.inBounds.mp hin) hin fun o _ _ =>
    h.byteAt_eq q.region o fun w hw hc => hne w hw hc.1

/-- One number more at the end of a buffer, or another one in the place of its last. -/
theorem store (h : Written base rs ((p, ys) :: ws)) (hys : xs <+: ys)
    (hlen : ys.length ≤ xs.length + 1) (hp : p.Spans (xs.length + 1) base)
    (hne : ∀ w ∈ ws, w.1.region ≠ p.region) (y : F32) :
    Written base (storeCell rs (p.element xs.length) y) ((p, xs ++ [y]) :: ws) := by
  have hp' := hp.sameExtents h.extents
  have hin := hp'.inBounds_element (Nat.lt_succ_self _)
  obtain ⟨hreg, _, hstart⟩ := hp'.start_element (Nat.lt_succ_self _)
  -- A cell that shares no byte with the one that is written keeps its number.
  have hother : ∀ {q}, InBounds rs q 4 →
      (q.region ≠ p.region ∨ q.start + 4 ≤ p.start + 4 * xs.length) →
      cellAt (storeCell rs (p.element xs.length) y) q = cellAt rs q := by
    intro q hq hapart
    refine cellAt_congr ((sameExtents_storeCell ..).inBounds.mp hq) hq fun o _ ho => ?_
    refine byteAt_storeCell hin y fun hc => ?_
    rw [hreg, hstart] at hc
    rcases hapart with hr | hs
    · exact hr hc.1.symm
    · omega
  have hspans : ∀ w ∈ (p, xs ++ [y]) :: ws, w.1.Spans w.2.length base := by
    intro w hw
    rcases List.mem_cons.mp hw with rfl | hw
    · simpa using hp
    · exact h.spans w (List.mem_cons_of_mem _ hw)
  refine ⟨h.extents.trans (sameExtents_storeCell ..), hspans, fun w hw k x hx => ?_,
    fun r o ho => ?_⟩
  · rcases List.mem_cons.mp hw with rfl | hw
    · rcases Nat.lt_or_ge k xs.length with hk | hk
      · rw [List.getElem?_append_left hk] at hx
        have hy : ys[k]? = some x := by
          obtain ⟨zs, rfl⟩ := hys
          rw [List.getElem?_append_left hk, hx]
        rw [hother (hp'.inBounds_element (Nat.lt_succ_of_lt hk))
          (.inr (by rw [(hp'.start_element (Nat.lt_succ_of_lt hk)).2.2]; omega))]
        exact h.cell_eq _ List.mem_cons_self k x hy
      · obtain ⟨hlt, hx⟩ := List.getElem?_eq_some_iff.mp hx
        rw [List.length_append, List.length_singleton] at hlt
        obtain rfl : k = xs.length := by omega
        rw [List.getElem_concat_length rfl] at hx
        rw [← hx]
        exact cellAt_storeCell hin y
    · have hw' := List.mem_cons_of_mem (p, ys) hw
      have hk := (List.getElem?_eq_some_iff.mp hx).1
      rw [hother (((h.spans w hw').sameExtents h.extents).inBounds_element hk) (.inl (hne w hw))]
      exact h.cell_eq w hw' k x hx
  · have hhead := ho _ List.mem_cons_self
    simp only [List.length_append, List.length_singleton] at hhead
    rw [byteAt_storeCell hin y (by rw [hreg, hstart]; omega)]
    refine h.byteAt_eq r o fun w hw => ?_
    rcases List.mem_cons.mp hw with rfl | hw
    · dsimp only
      omega
    · exact ho w (List.mem_cons_of_mem _ hw)

end Written

end LoopNest
