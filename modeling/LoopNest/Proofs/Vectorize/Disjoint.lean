import LoopNest.Proofs.Machine.Stores
import LoopNest.Proofs.Vectorize.Lanes

/-!
# The accesses of different lanes

A widened access of the old body goes one element further in every lane (`Lanes.Strided`).  All
lanes stay inside the region, so addresses do not wrap around, and the elements of different lanes
do not overlap.  Two accesses that meet in one region, and one of which writes, go by the same index
on the same root.  They move elements of one size, so they meet in the same lane only
(`Lanes.not_covers`).
-/

namespace LoopNest

/-- What stays inside a region does not wrap around. -/
theorem Pointer.start_advance {rs : Array Region} {q : Pointer} {n k : Nat} (hn : n < 2 ^ 63)
    (h : InBounds rs q k) (h' : InBounds rs (q.advance (.ofNat n)) k) :
    (q.advance (.ofNat n)).start = q.start + n := by
  obtain ⟨hlo, -, -⟩ := h
  obtain ⟨hlo', -, -⟩ := h'
  have hlt := q.offset.toInt_lt
  unfold Pointer.start
  unfold Pointer.advance at hlo' ⊢
  dsimp only at hlo' ⊢
  rw [Int64.toInt_add, Int64.toInt_ofNat_of_lt hn, Int.bmod_def] at hlo' ⊢
  omega

namespace MemAccess

variable {f : Func} {bs : List BlockId} {b : BlockId} {i j : InstId} {p q v : Operand}

/-- Two accesses go by the same index on the same root if one of them writes and they may alias. -/
def SameElement (a c : MemAccess) : Prop :=
  (a.kind.writes || c.kind.writes) = true → a.place.root.mayAlias c.place.root = true →
    a.place.root = c.place.root ∧ a.place.root ≠ .unknown ∧
      ∃ y, a.place.offset = .index y ∧ c.place.offset = .index y

instance : Std.Symm SameElement where
  symm a c h hw halias := by
    rw [Bool.or_comm] at hw
    rw [MemRoot.mayAlias_comm] at halias
    obtain ⟨hroot, hne, y, ha, hc⟩ := h hw halias
    exact ⟨hroot.symm, hroot ▸ hne, y, hc, ha⟩

theorem sameElement_of_mayConflict {a c : MemAccess} (h : a.mayConflict c = false) :
    a.SameElement c := by
  intro hw halias
  rcases root_or_index h hw with hno | hsame
  · rw [halias] at hno
    cases hno
  · exact hsame

/-- The access of an instruction with a pointer. -/
theorem access_of_pointer? (hb : b ∈ bs) (hi : i ∈ f.body b) (hp : (f.op i).pointer? = some p) :
    ∃ k, ⟨i, k, f.place p⟩ ∈ ofBlocks f bs ∧ (∀ v r, f.op i = .store v r → k = .write) := by
  cases hop : f.op i with
  | load r =>
    cases (hop ▸ hp :)
    exact ⟨.read, load_access hb hi hop, nofun⟩
  | store v r =>
    cases (hop ▸ hp :)
    exact ⟨.write, store_access hb hi hop, fun _ _ _ => rfl⟩
  | _ => cases (hop ▸ hp :)

/-- A store and another access of blocks without conflicts go by the same index on the same root,
or do not alias. -/
theorem sameElement_of_pairwise (h : (ofBlocks f bs).Pairwise fun a c => a.mayConflict c = false)
    (hb : b ∈ bs) (hi : i ∈ f.body b) (hstore : f.op i = .store v p) (hj : j ∈ f.body b)
    (hq : (f.op j).pointer? = some q) (hne : i ≠ j)
    (halias : (f.place p).root.mayAlias (f.place q).root = true) :
    (f.place p).root = (f.place q).root ∧ (f.place p).root ≠ .unknown ∧
      ∃ y, (f.place p).offset = .index y ∧ (f.place q).offset = .index y := by
  obtain ⟨k, hk, _⟩ := access_of_pointer? hb hj hq
  exact (h.imp sameElement_of_mayConflict).forall (store_access hb hi hstore) hk
    (fun heq => hne (congrArg inst heq)) rfl halias

end MemAccess

namespace Vectorize

/-- An access that goes one element further in every lane. -/
structure Strided (tt : TypeTable) (c : Context) (T : LaneShapes) (args : List Datum)
    (rs : Array Region) (W : Nat) (V : Nat → Values) (i : InstId) (p : Operand) (s : Scalar)
    (q : Pointer) : Prop where
  mem : i ∈ c.code
  pointer : (c.func.op i).pointer? = some p
  shape : laneShape c T p = .ok (.address 1)
  moves : ∃ u, c.func.accessTy? i = some u ∧ tt.shape u = .scalar s
  size_eq : c.func.elementSize tt p = s.width
  small : s.width ≤ 4
  value : ∀ t < W, c.func.value tt args (V t) p = some (.ptr (q.lane s t))
  inBounds : ∀ t < W, InBounds rs (q.lane s t) s.width

namespace Strided

variable {tt : TypeTable} {c : Context} {T : LaneShapes} {args : List Datum} {rs : Array Region}
  {W t t' : Nat} {V : Nat → Values} {i : InstId} {p : Operand} {s : Scalar} {q : Pointer}

theorem start (h : Strided tt c T args rs W V i p s q) (hW : W < 2 ^ 32) (ht : t < W) :
    (q.lane s t).start = q.start + t * s.width := by
  have hn : t * s.width < 2 ^ 63 := by
    have := Nat.mul_le_mul (Nat.le_of_lt ht) h.small
    omega
  refine Pointer.start_advance hn ?_ (h.inBounds t ht)
  exact q.lane_zero s ▸ h.inBounds 0 (Nat.zero_lt_of_lt ht)

/-- The elements of different lanes do not overlap. -/
theorem start_add_le (h : Strided tt c T args rs W V i p s q) (hW : W < 2 ^ 32) (ht : t < W)
    (ht' : t' < W) (hne : t ≠ t') :
    (q.lane s t).start + s.width ≤ (q.lane s t').start ∨
    (q.lane s t').start + s.width ≤ (q.lane s t).start := by
  rw [h.start hW ht, h.start hW ht']
  rcases Nat.lt_or_gt_of_ne hne with hlt | hlt
  · have := Nat.mul_le_mul_right s.width hlt
    rw [Nat.succ_mul] at this
    omega
  · have := Nat.mul_le_mul_right s.width hlt
    rw [Nat.succ_mul] at this
    omega

theorem value_zero (h : Strided tt c T args rs W V i p s q) (hW : 0 < W) :
    c.func.value tt args (V 0) p = some (.ptr q) := by
  exact q.lane_zero s ▸ h.value 0 hW

theorem unique {p' : Operand} {s' : Scalar} {q' : Pointer} (hW : 0 < W)
    (h : Strided tt c T args rs W V i p s q) (h' : Strided tt c T args rs W V i p' s' q') :
    s = s' ∧ q = q' := by
  obtain ⟨u, hu, hs⟩ := h.moves
  obtain ⟨u', hu', hs'⟩ := h'.moves
  cases hu.symm.trans hu'
  cases h.pointer.symm.trans h'.pointer
  cases (h.value_zero hW).symm.trans (h'.value_zero hW)
  exact ⟨LoopNest.Shape.scalar.inj (hs.symm.trans hs'), rfl⟩

end Strided

/-- Numbers and truth values have at most four bytes. -/
theorem isStored_scalar {sh : LoopNest.Shape} (h : sh.IsStored) :
    ∃ s, sh = .scalar s ∧ s.width ≤ 4 ∧ (s = .f32 ∨ s = .bool) := by
  rcases h with rfl | rfl
  · exact ⟨.f32, rfl, Nat.le_refl _, .inl rfl⟩
  · exact ⟨.bool, rfl, by decide, .inr rfl⟩

/-- A number or truth value of the right type has bytes. -/
theorem bytes_of_ofType {tt : TypeTable} {u : TyId} {s : Scalar} {d : Datum}
    (hs : s = .f32 ∨ s = .bool) (hu : tt.shape u = .scalar s) (hd : d.OfType tt u) :
    ∃ bytes, Memory.bytesOf? d = some bytes ∧ bytes.length = s.width ∧
      ∀ q, storeChunks tt u d q = some [⟨q, bytes⟩] := by
  unfold Datum.OfType at hd
  rw [hu] at hd
  rcases hs with rfl | rfl
  · obtain ⟨x, rfl⟩ := Datum.OfScalar.exists_f32 hd rfl
    exact ⟨_, rfl, length_littleEndian 4 _, fun q => rfl⟩
  · obtain ⟨b, rfl⟩ := Datum.OfScalar.exists_bool hd rfl
    exact ⟨_, rfl, rfl, fun q => rfl⟩

namespace Lanes

variable {tt : TypeTable} {c : Context} {args : List Datum} {steps : List (InstId × Lowering)}
  {T : LaneShapes} {i j : InstId} {v p : Operand} {pre post : List InstId} {base : Nat}
  {made : Origins} {rs : Array Region} {x : Int64} {W t : Nat} {V : Nat → Values} {X : ChunkTable}
  (h : Laned tt c args steps T) (hL : Lanes tt c args base made rs x W V X)
  (hsep : Separate c.func args base)

include h hL hsep

/-- The pointers of an access that goes by an index. -/
theorem pointers (hi : i ∈ c.code) (hp : p ∈ (c.func.op i).operands)
    (hσ : laneShape c T p = .ok (.address 1)) {s : Scalar} (hs : c.func.elementSize tt p = s.width)
    {q : Pointer} (hq : c.func.value tt args (V 0) p = some (.ptr q)) (ht : t < W) :
    c.func.value tt args (V t) p = some (.ptr (q.lane s t)) := by
  rw [hL.address h hsep hi hp hσ ht hq, hs, Pointer.lane, Int64.ofNat_mul]

/-- A store of the body: what it writes in every lane. -/
theorem strided_store (hW : 0 < W) (hi : i ∈ c.code) (hop : c.func.op i = .store v p)
    (hσ : laneShape c T p = .ok (.address 1)) :
    ∃ s q, Strided tt c T args rs W V i p s q ∧ ∀ t < W, ∃ d bytes,
      c.func.value tt args (V t) v = some d ∧ Memory.bytesOf? d = some bytes ∧
      bytes.length = s.width ∧ X t i = [⟨q.lane s t, bytes⟩] := by
  have hmem : p ∈ (c.func.op i).operands := by simp [hop, Op.operands]
  have hacc : c.func.accessTy? i = some (c.func.tyOf v) := by simp [Func.accessTy?, hop]
  obtain ⟨s, hs, hsmall, hkind⟩ := isStored_scalar (h.body.stored i (List.dropLast_subset _ hi) _ hacc)
  have htyped := h.typed hi
  rw [hop] at htyped
  have hsize : c.func.elementSize tt p = s.width := by
    rw [← TypeTable.paddedSize_of_scalar hs]
    exact Func.elementSize_eq (by rw [TypeTable.pointee?, htyped.1])
  obtain ⟨pre, post, hsplit⟩ := List.append_of_mem hi
  have hlane : ∀ t < W, ∃ q d bytes, c.func.value tt args (V t) p = some (.ptr q) ∧
      c.func.value tt args (V t) v = some d ∧ Memory.bytesOf? d = some bytes ∧
      bytes.length = s.width ∧ X t i = [⟨q, bytes⟩] ∧ InBounds rs q s.width := by
    intro t ht
    obtain ⟨_, _, hc⟩ := hL.tabled t ht pre i post hsplit
    rw [hop] at hc
    obtain ⟨_, q, d, hq, hd, hcs, hfits⟩ := hc.of_store
    obtain ⟨bytes, hbytes, hlen, hchunks⟩ := bytes_of_ofType hkind hs
      ((hL.typed t ht).operand h.data h.accepted.wellFormed h.accepted.live
        (List.dropLast_subset _ hi) (by simp [hop, Op.operands]) hd)
    rw [hchunks, Option.some.injEq] at hcs
    refine ⟨q, d, bytes, hq, hd, hbytes, hlen, hcs.symm, ?_⟩
    have hfit := hfits ⟨q, bytes⟩ (hcs ▸ List.mem_singleton.mpr rfl)
    rw [← writeChunks_append] at hfit
    rw [← hlen]
    exact (sameExtents_writeChunks _ rs).fits.mpr hfit
  obtain ⟨q, _, _, hq, _⟩ := hlane 0 hW
  have hvalue := fun t => hL.pointers h hsep (t := t) hi hmem hσ hsize hq
  refine ⟨s, q, ⟨hi, by rw [hop]; rfl, hσ, ⟨_, hacc, hs⟩, hsize, hsmall, fun t => hvalue t,
    fun t ht => ?_⟩, fun t ht => ?_⟩
  · obtain ⟨q', _, _, hq', _, _, _, _, hin⟩ := hlane t ht
    cases (hvalue t ht).symm.trans hq'
    exact hin
  · obtain ⟨q', d, bytes, hq', hd, hbytes, hlen, hX, _⟩ := hlane t ht
    cases (hvalue t ht).symm.trans hq'
    exact ⟨d, bytes, hd, hbytes, hlen, hX⟩

/-- A load of the body that goes by an index: what it reads in every lane. -/
theorem strided_load (hW : 0 < W) (hsplit : c.code = pre ++ i :: post)
    (hop : c.func.op i = .load p) (hσ : laneShape c T p = .ok (.address 1)) :
    ∃ s q, Strided tt c T args rs W V i p s q ∧ tt.shape (c.func.inst i).ty = .scalar s ∧
      ∀ t < W, ∃ d, V t i = some d ∧
        (Memory.ofRegions (writeChunks rs (byLap t c.code X ++ pre.flatMap (X t)))).loadScalar
          (q.lane s t) s = .ok d := by
  have hi : i ∈ c.code := hsplit ▸ List.mem_append_right _ List.mem_cons_self
  have hmem : p ∈ (c.func.op i).operands := by simp [hop, Op.operands]
  have hacc : c.func.accessTy? i = some (c.func.inst i).ty := by simp [Func.accessTy?, hop]
  obtain ⟨s, hs, hsmall, hkind⟩ := isStored_scalar (h.body.stored i (List.dropLast_subset _ hi) _ hacc)
  have htyped := h.typed hi
  rw [hop] at htyped
  have hsize : c.func.elementSize tt p = s.width := by
    rw [← TypeTable.paddedSize_of_scalar hs]
    exact Func.elementSize_eq (by rw [TypeTable.pointee?, htyped])
  have hlane : ∀ t < W, ∃ q d, c.func.value tt args (V t) p = some (.ptr q) ∧ V t i = some d ∧
      (Memory.ofRegions (writeChunks rs (byLap t c.code X ++ pre.flatMap (X t)))).loadScalar q s =
        .ok d := by
    intro t ht
    obtain ⟨d, hd, hc⟩ := hL.tabled t ht pre i post hsplit
    rw [hop] at hc
    obtain ⟨q, hq, hload⟩ := hc.of_load
    rw [← writeChunks_append, Memory.load, hs] at hload
    exact ⟨q, d, hq, hd, hload⟩
  obtain ⟨q, _, hq, _⟩ := hlane 0 hW
  have hvalue := fun t => hL.pointers h hsep (t := t) hi hmem hσ hsize hq
  refine ⟨s, q, ⟨hi, by rw [hop]; rfl, hσ, ⟨_, hacc, hs⟩, hsize, hsmall, fun t => hvalue t,
    fun t ht => ?_⟩, hs, fun t ht => ?_⟩
  · obtain ⟨q', _, hq', _, hload⟩ := hlane t ht
    cases (hvalue t ht).symm.trans hq'
    exact (sameExtents_writeChunks _ rs).inBounds.mpr (Memory.inBounds_of_loadScalar hload)
  · obtain ⟨q', d, hq', hd, hload⟩ := hlane t ht
    cases (hvalue t ht).symm.trans hq'
    exact ⟨d, hd, hload⟩

omit h hsep in
/-- A pointer step to an element of a root starts at the root. -/
theorem base_of_index {g : InstId} {bs y : Operand} {q : Pointer} (hW : 0 < W) (hg : g ∈ c.code)
    (hop : c.func.op g = .gep bs y) (hy : (c.func.place (.inst g)).offset = .index y)
    (hq : c.func.value tt args (V 0) (.inst g) = some (.ptr q)) :
    ∃ q₀ n, (c.func.place (.inst g)).root.Starts args q₀ ∧ q₀.region = q.region ∧
      c.func.value tt args (V 0) y = some (.int n) ∧
      q = q₀.advance (n * .ofNat (c.func.elementSize tt (.inst g))) := by
  have hpure : (c.func.op g).isPure = true := by rw [hop]; rfl
  have hres := hL.result hW hg hpure hq
  rw [hop] at hres
  unfold pureResult at hres
  dsimp only at hres
  split at hres <;> try cases hres
  rename_i q₀ n e hq₀ hn he
  have hsize : c.func.elementSize tt (.inst g) = tt.paddedSize e :=
    Func.elementSize_eq (by rw [Func.tyOf_inst]; exact he)
  rw [Func.place_gep hop] at hy ⊢
  have hzero : (c.func.place bs).offset = .zero := by
    unfold Place.step at hy
    by_contra hne
    rw [if_neg hne] at hy
    cases hy
  rw [hsize]
  exact ⟨q₀, n, ((hL.traced 0 hW).value hq₀).starts hzero, rfl, hn, rfl⟩

/-- A store and another access that meet in one region move the same element. -/
theorem same_of_region (hW : 0 < W) {s s' : Scalar} {p p' : Operand} {q q' : Pointer}
    (hi : Strided tt c T args rs W V i p s q) (hj : Strided tt c T args rs W V j p' s' q')
    (hstore : c.func.op i = .store v p) (hne : i ≠ j) (hr : q.region = q'.region) :
    s = s' ∧ q = q' := by
  have hq := hi.value_zero hW
  have hq' := hj.value_zero hW
  have htr := hL.traced 0 hW
  have hcov := (htr.value hq).covers
  rw [hr] at hcov
  obtain ⟨hroot, hknown, y, hy, hy'⟩ := MemAccess.sameElement_of_pairwise h.accepted.conflicts
    (List.mem_singleton.mpr rfl) (List.dropLast_subset _ hi.mem) hstore
    (List.dropLast_subset _ hj.mem) hj.pointer hne
    (MemRoot.mayAlias_of_covers hsep htr hcov (htr.value hq').covers)
  obtain ⟨u, hu, hs⟩ := hi.moves
  obtain ⟨u', hu', hs'⟩ := hj.moves
  have hscalar := h.body.alike i (List.dropLast_subset _ hi.mem) j (List.dropLast_subset _ hj.mem)
    p p' u u' hi.pointer hj.pointer hu hu' hroot hknown
  rw [hs, hs'] at hscalar
  obtain rfl := LoopNest.Shape.scalar.inj hscalar
  refine ⟨rfl, ?_⟩
  obtain ⟨g, bs, rfl, hop⟩ := Func.gep_of_place hy
  obtain ⟨g', bs', rfl, hop'⟩ := Func.gep_of_place hy'
  have hmem : ∀ {i g : InstId}, i ∈ c.code → (c.func.op i).pointer? = some (.inst g) →
      laneShape c T (.inst g) = .ok (.address 1) → g ∈ c.code := by
    intro i g hi hp hσ
    obtain ⟨k, hk, _, _, heq, _⟩ := h.accepted.address (List.dropLast_subset _ hi)
      (Machine.mem_operands_of_pointer? hp).1 hσ
    rwa [Operand.inst.inj heq]
  obtain ⟨q₀, n, hstart, hr₀, hn, rfl⟩ :=
    hL.base_of_index hW (hmem hi.mem hi.pointer hi.shape) hop hy hq
  obtain ⟨q₀', n', hstart', hr₀', hn', rfl⟩ :=
    hL.base_of_index hW (hmem hj.mem hj.pointer hj.shape) hop' hy' hq'
  cases hn.symm.trans hn'
  rw [hi.size_eq, hj.size_eq]
  congr 1
  rw [← hroot] at hstart'
  cases hrt : (c.func.place (.inst g)).root with
  | param k na =>
    rw [hrt] at hstart hstart'
    cases hstart.symm.trans hstart'
    rfl
  | alloca k =>
    rw [hrt] at hstart hstart'
    change q₀.offset = 0 at hstart
    change q₀'.offset = 0 at hstart'
    obtain ⟨r, o⟩ := q₀
    obtain ⟨r', o'⟩ := q₀'
    dsimp only at hstart hstart'
    rw [hstart, hstart']
    congr 1
  | unknown => exact absurd hrt hknown

/-- What a lane writes is not what an access moves in another lane. -/
theorem not_covers (hW : W < 2 ^ 32) {s : Scalar} {q : Pointer} {o t t' : Nat}
    (hi : Strided tt c T args rs W V i p s q) (ht : t < W) (ht' : t' < W) (hne : t' ≠ t)
    (hlo : (q.lane s t).start ≤ o)
    (hhi : o < (q.lane s t).start + s.width) (hj : j ∈ c.code) {e : Chunk}
    (he : e ∈ X t' j) : ¬ e.Covers q.region o := by
  have hpos : 0 < W := Nat.zero_lt_of_lt ht
  obtain ⟨v, p', hop, _⟩ := hL.covers_of_chunk ht' hj he
  obtain ⟨s', q', hstr, hlanes⟩ := hL.strided_store h hsep hpos hj hop
    (h.accepted.address_of_store (List.dropLast_subset _ hj) hop)
  obtain ⟨_, bytes, _, _, hlen, hX⟩ := hlanes t' ht'
  rw [hX, List.mem_singleton] at he
  subst he
  rintro ⟨hregion, hlo', hhi'⟩
  dsimp only at hregion hlo' hhi'
  obtain ⟨rfl, rfl⟩ : s' = s ∧ q' = q := by
    by_cases hij : j = i
    · subst hij
      exact hstr.unique hpos hi
    · exact hL.same_of_region h hsep hpos hstr hi hop hij hregion
  rw [hlen] at hhi'
  rcases hi.start_add_le hW ht ht' hne.symm with hle | hle <;> omega

/-! ## One instruction after the other -/

omit h hsep in
/-- What is written lies inside its region. -/
theorem fits {t : Nat} (ht : t < W) (hj : j ∈ c.code) {e : Chunk} (he : e ∈ X t j) : e.Fits rs := by
  obtain ⟨pre, post, hsplit⟩ := List.append_of_mem hj
  obtain ⟨_, _, hc⟩ := hL.tabled t ht pre j post hsplit
  by_cases hstore : ∃ v p, c.func.op j = .store v p
  · obtain ⟨v, p, hop⟩ := hstore
    rw [hop] at hc
    obtain ⟨_, _, _, _, _, _, hfits⟩ := hc.of_store
    have hfit := hfits e he
    rw [← writeChunks_append] at hfit
    exact (sameExtents_writeChunks _ rs).fits.mpr hfit
  · rw [hc.eq_nil fun v p hop => hstore ⟨v, p, hop⟩] at he
    cases he

/-- All lanes of one instruction after the other write the same as one lane after the other. -/
theorem regions_byInst (hW : W < 2 ^ 32) :
    writeChunks rs (byInst W c.code X) = writeChunks rs (byLap W c.code X) := by
  refine writeChunks_byInst (fun t ht i hi e he => hL.fits ht hi he) ?_
  rintro t ht t' ht' hne i hi j hj e he e' he' r o ⟨rfl, hlo, hhi⟩
  have hpos : 0 < W := Nat.zero_lt_of_lt ht
  obtain ⟨v, p, hop, _⟩ := hL.covers_of_chunk ht hi he
  obtain ⟨s, q, hstr, hlanes⟩ := hL.strided_store h hsep hpos hi hop
    (h.accepted.address_of_store (List.dropLast_subset _ hi) hop)
  obtain ⟨_, bytes, _, _, hlen, hX⟩ := hlanes t ht
  rw [hX, List.mem_singleton] at he
  subst he
  dsimp only at hlo hhi
  rw [hlen] at hhi
  exact hL.not_covers h hsep hW hstr ht ht' hne.symm hlo hhi hj he'

/-- A load of consecutive elements reads in every lane what the lap reads. -/
theorem loadScalar_byInst (hW : W < 2 ^ 32) {s : Scalar} {q : Pointer} {t : Nat}
    (hi : Strided tt c T args rs W V i p s q) (ht : t < W) (hpre : ∀ j ∈ pre, j ∈ c.code) {d : Datum}
    (hd : (Memory.ofRegions (writeChunks rs (byLap t c.code X ++ pre.flatMap (X t)))).loadScalar
      (q.lane s t) s = .ok d) :
    (Memory.ofRegions (writeChunks rs (byInst W pre X))).loadScalar
      (q.lane s t) s = .ok d := by
  refine Memory.loadScalar_congr
    ((sameExtents_writeChunks _ rs).symm.trans (sameExtents_writeChunks _ rs)) (fun o hlo hhi => ?_) hd
  exact (byteAt_byInst (fun t' ht' hne j hj e he => hL.not_covers h hsep hW hi ht ht' hne hlo hhi hj he)
    ht hpre fun t ht j hj e he => hL.fits ht hj he).symm

/-- A load of uniform shape reads the same. -/
theorem load_byInst (hsplit : c.code = pre ++ i :: post) (hop : c.func.op i = .load p)
    (hptr : laneShape c T p = .ok .uniform) (hW : 0 < W) :
    ∃ q d, c.func.value tt args (V 0) p = some (.ptr q) ∧ V 0 i = some d ∧
      (Memory.ofRegions (writeChunks rs (byInst W pre X))).load tt q (c.func.inst i).ty = .ok d := by
  obtain ⟨q, d, hq, hd, hload⟩ := hL.load_of_uniform h hsep hsplit hop hptr hW
  have hi : i ∈ c.code := hsplit ▸ List.mem_append_right _ List.mem_cons_self
  have hne : ∀ e ∈ byInst W pre X, e.place.region ≠ q.region := by
    intro e he
    obtain ⟨j, hj, t, ht, he⟩ := mem_byInst.mp he
    exact hL.region_ne_of_uniform h hsep hi hop hptr hW hq ht (hsplit ▸ List.mem_append_left _ hj) he
  refine ⟨q, d, hq, hd, ?_⟩
  rw [← hload]
  exact Memory.load_congr_region (sameExtents_writeChunks _ rs).1.symm
    (getElem?_writeChunks_of_ne _ hne)

end Lanes

end Vectorize

end LoopNest
