import LoopNest.Proofs.Loop.Independent
import LoopNest.Proofs.Machine.Interleaved
import LoopNest.Proofs.Machine.TypedRuns
import LoopNest.Proofs.Vectorize.Contiguous
import LoopNest.Proofs.Vectorize.Copied

/-!
# The values of consecutive laps

The lanes of a vector iteration are consecutive laps of the old loop.  `Lanes` is what the old
body computes in them, and what it writes.  A value of uniform shape is the same in every lane
(`Lanes.uniform`), an index of stride `s` is `s * t` more in lane `t` (`Lanes.index`), and an address
of stride one is `t` elements further on (`Lanes.address`).
-/

namespace LoopNest

/-- A block without vectors and with integers of 64 bits.  Its accesses move single-precision
numbers or truth values, the same kind if they have one root. -/
structure Func.Elementwise (tt : TypeTable) (f : Func) (b : BlockId) : Prop where
  scalar : f.ScalarBlock tt b
  wide : ∀ i ∈ f.body b, ∀ s, tt.shape (f.inst i).ty = .scalar s → s.isInteger = true → s.width = 8
  stored : ∀ i ∈ f.body b, ∀ t, f.accessTy? i = some t → (tt.shape t).IsStored
  alike : ∀ i ∈ f.body b, ∀ j ∈ f.body b, ∀ p q t u, (f.op i).pointer? = some p →
    (f.op j).pointer? = some q → f.accessTy? i = some t → f.accessTy? j = some u →
    (f.place p).root = (f.place q).root → (f.place p).root ≠ .unknown → tt.shape t = tt.shape u

/-- The conditions can be read off the block. -/
theorem Func.elementwise_iff {tt : TypeTable} {f : Func} {b : BlockId} : f.Elementwise tt b ↔
    f.ScalarBlock tt b ∧
    (∀ i ∈ f.body b, ∀ s ∈ tt.elementScalar? (f.inst i).ty, s.isInteger = true → s.width = 8) ∧
    (∀ i ∈ f.body b, ∀ t ∈ f.accessTy? i, (tt.shape t).IsStored) ∧
    ∀ i ∈ f.body b, ∀ j ∈ f.body b, ∀ p ∈ (f.op i).pointer?, ∀ q ∈ (f.op j).pointer?,
      ∀ t ∈ f.accessTy? i, ∀ u ∈ f.accessTy? j, (f.place p).root = (f.place q).root →
        (f.place p).root ≠ .unknown → tt.shape t = tt.shape u := by
  constructor
  · intro h
    refine ⟨h.scalar, fun i hi s hs => h.wide i hi s ?_, h.stored,
      fun i hi j hj p hp q hq t ht u hu => h.alike i hi j hj p q t u hp hq ht hu⟩
    have hlanes := (h.scalar i hi).1
    unfold TypeTable.lanes? at hlanes
    unfold TypeTable.elementScalar? at hs
    cases hshape : tt.shape (f.inst i).ty <;> rw [hshape] at hs hlanes <;> cases hs
    · rfl
    · cases hlanes
  · rintro ⟨hscalar, hwide, hstored, halike⟩
    refine ⟨hscalar, fun i hi s hs => hwide i hi s ?_, hstored,
      fun i hi j hj p q t u hp hq ht hu => halike i hi j hj p hp q hq t ht u hu⟩
    simp [TypeTable.elementScalar?, hs]

instance (tt : TypeTable) (f : Func) (b : BlockId) : Decidable (f.Elementwise tt b) :=
  decidable_of_iff _ Func.elementwise_iff.symm

/-- A pointer step is one step from the place of its base. -/
theorem Func.place_gep {f : Func} {g : InstId} {base idx : Operand}
    (hop : f.op g = .gep base idx) : f.place (.inst g) = (f.place base).step idx := by
  rw [Func.place, Func.placeWithin]
  simp only [hop]
  rw [f.placeWithin_eq_place (Nat.le_refl _)]

/-- The parts of a block that holds phis, other code and a terminator. -/
theorem Func.parts_of_body {f : Func} {b : BlockId} {ps cs : List InstId} {t : InstId}
    (hb : f.body b = ps ++ (cs ++ [t])) (hp : ∀ i ∈ ps, (f.op i).isPhi = true)
    (hc : ∀ i ∈ cs, (f.op i).isPhi = false ∧ (f.op i).isTerminator = false)
    (ht : (f.op t).isTerminator = true) :
    f.phis b = ps ∧ f.code b = cs ∧ f.terminator? b = some t := by
  have hnot : ∀ i ∈ cs ++ [t], (f.op i).isPhi = false := by
    intro i hi
    rcases List.mem_append.mp hi with hi | hi
    · exact (hc i hi).1
    · rw [List.mem_singleton.mp hi]
      exact Op.not_isPhi_of_isTerminator ht
  have hphis : f.phis b = ps := by
    have hnil : (cs ++ [t]).takeWhile (fun i => (f.op i).isPhi) = [] :=
      List.takeWhile_eq_nil_iff.mpr fun hpos => by simp [hnot _ (List.getElem_mem hpos)]
    rw [Func.phis, hb, List.takeWhile_append_of_pos hp, hnil, List.append_nil]
  have hafter : f.afterPhis b = cs ++ [t] := by
    suffices h : ps ++ f.afterPhis b = ps ++ (cs ++ [t]) from List.append_cancel_left h
    rw [← hb, ← f.phis_append_afterPhis b, hphis]
  refine ⟨hphis, ?_, Func.terminator?_eq_some.mpr ⟨⟨ps ++ cs, by rw [hb, List.append_assoc]⟩, ht⟩⟩
  rw [Func.code, hafter, List.takeWhile_append_of_pos (by simpa using fun i hi => (hc i hi).2)]
  simp [ht]

/-- How the types of an instruction of such a block belong together. -/
theorem Func.Elementwise.typed {tt : TypeTable} {f : Func} {b : BlockId} {i : InstId}
    (h : f.Elementwise tt b) (hty : f.WellTyped tt) (hb : b ∈ f.layout) (hi : i ∈ f.body b)
    (hterm : (f.op i).isTerminator = false) (hcall : (f.op i).isCall = false) :
    (f.op i).Typed tt f.tyOf (f.inst i).ty := by
  obtain ⟨ty, hres, hlook⟩ := hty b hb i hi
  have hstored : ∀ t, f.accessTy? i = some t → (tt.shape t).IsStored := h.stored i hi
  refine Typing.typed_of_resultTy hres hlook (fun n s hs => ?_) hterm (Op.isCall_eq_false.mp hcall)
    (fun p hop => hstored _ ?_) fun v p hop => hstored _ ?_
  · have := (h.scalar i hi).1
    simp [TypeTable.lanes?, hs] at this
  · simp [Func.accessTy?, hop]
  · simp [Func.accessTy?, hop]

namespace Vectorize

/-- The instructions of the body, without its terminator. -/
abbrev Context.code (c : Context) : List InstId := (c.func.body c.loop.bodyEntry).dropLast

/-- A loop that is going to be vectorized, with everything that its values depend on. -/
structure Laned (tt : TypeTable) (c : Context) (args : List Datum)
    (steps : List (InstId × Lowering)) (T : LaneShapes) : Prop where
  accepted : Accepted c steps T
  decides : Decides tt c T [(c.loop.iv, .index 1)] c.code steps
  wellTyped : c.func.WellTyped tt
  header : c.func.Elementwise tt c.natural.header
  body : c.func.Elementwise tt c.loop.bodyEntry
  data : c.func.DataTyped tt args

/-- What the body of a loop computes in the laps from an induction value on, and what it writes. -/
structure Lanes (tt : TypeTable) (c : Context) (args : List Datum) (base : Nat) (made : Origins)
    (rs : Array Region) (x : Int64) (W : Nat) (V : Nat → Values) (X : ChunkTable) : Prop where
  tabled : ∀ t < W, Tabled tt c.func args c.code (V t)
    (writeChunks rs (byLap t c.code X)) (X t)
  counts : ∀ t < W, V t c.loop.induction = some (.int (x + .ofNat t))
  outside : ∀ t < W, ∀ j, (∀ b ∈ c.natural.blocks, j ∉ c.func.body b) → V t j = V 0 j
  typed : ∀ t < W, (V t).Typed tt c.func
  traced : ∀ t < W, Traced c.func args base made ⟨V t, rs⟩

/-- All operands of the body have lane shapes. -/
theorem Lowers.laneShape_operand {tt : TypeTable} {c : Context} {shapes : LaneShapes} {i : InstId}
    {s : LaneShape} {low : Lowering} (h : Lowers tt c shapes i s low) {v : Operand}
    (hv : v ∈ (c.func.op i).operands) : ∃ σ, laneShape c shapes v = .ok σ := by
  cases h with
  | scalar _ _ _ hops => exact (hops v hv).imp fun _ h => h.1
  | load hop hptr _ =>
    rw [hop] at hv
    rw [List.mem_singleton.mp hv]
    exact ⟨_, hptr⟩
  | store hop hptr _ hval =>
    rw [hop] at hv
    rcases List.mem_cons.mp hv with rfl | hv
    · exact hval.elim (fun h => ⟨_, h.1⟩) fun h => ⟨_, h.1⟩
    · rw [List.mem_singleton.mp hv]
      exact ⟨_, hptr⟩
  | lanewise _ _ hops _ => exact (hops v hv).elim (fun h => ⟨_, h⟩) fun h => ⟨_, h.1⟩

theorem Decides.laneShape_operand {tt : TypeTable} {c : Context} {T shapes : LaneShapes}
    {is : List InstId} {steps : List (InstId × Lowering)} (h : Decides tt c T shapes is steps)
    {i : InstId} (hi : i ∈ is) {v : Operand} (hv : v ∈ (c.func.op i).operands) :
    ∃ σ, laneShape c T v = .ok σ := by
  induction h with
  | nil => cases hi
  | cons hl _ hops _ _ ih =>
    rcases List.mem_cons.mp hi with rfl | hi
    · rw [hops v hv]
      exact hl.laneShape_operand hv
    · exact ih hi

theorem Decides.not_isPhi {tt : TypeTable} {c : Context} {T shapes : LaneShapes}
    {is : List InstId} {steps : List (InstId × Lowering)} (h : Decides tt c T shapes is steps)
    {i : InstId} (hi : i ∈ is) : (c.func.op i).isPhi = false ∧ (c.func.op i).isTerminator = false := by
  induction h with
  | nil => cases hi
  | cons hl _ _ _ _ ih =>
    rcases List.mem_cons.mp hi with rfl | hi
    · exact hl.not_isPhi
    · exact ih hi

namespace Laned

variable {tt : TypeTable} {c : Context} {args : List Datum} {steps : List (InstId × Lowering)}
  {T : LaneShapes} {i j : InstId} {v : Operand} {σ : LaneShape} {pre post : List InstId}
  (h : Laned tt c args steps T)

include h

/-- The body holds computations, loads and stores. -/
theorem plain (hi : i ∈ c.code) : (c.func.op i).isPhi = false ∧
    (c.func.op i).isTerminator = false ∧ (c.func.op i).isCall = false ∧
      (c.func.op i).isSlot = false := by
  obtain ⟨hphi, hcall, hslot⟩ := h.accepted.tight.plain i (List.dropLast_subset _ hi)
  exact ⟨hphi, (h.decides.not_isPhi hi).2, hcall, hslot⟩

/-- The code of the body is all but its terminator. -/
theorem code_eq : c.func.code c.loop.bodyEntry = c.code := by
  obtain ⟨t, ht⟩ := h.accepted.wellFormed.ends _ h.accepted.live
  obtain ⟨⟨front, hfront⟩, hterm⟩ := Func.terminator?_eq_some.mp ht
  have hcode : c.code = front := by rw [Context.code, hfront, List.dropLast_concat]
  have hplain := fun i => h.plain (i := i)
  rw [hcode] at hplain ⊢
  exact (Func.parts_of_body (show _ = [] ++ (front ++ [t]) from hfront) (by simp)
    (fun i hi => ⟨(hplain i hi).1, (hplain i hi).2.1⟩) hterm).2.1

theorem typed (hi : i ∈ c.code) :
    (c.func.op i).Typed tt c.func.tyOf (c.func.inst i).ty :=
  h.body.typed h.wellTyped h.accepted.live (List.dropLast_subset _ hi) (h.plain hi).2.1
    (h.plain hi).2.2.1

/-- What the body uses is the induction value, is computed in it before, or is invariant. -/
theorem operand (hi : i ∈ c.code)
    (hv : v ∈ (c.func.op i).operands) :
    v = c.loop.iv ∨ (∃ j ∈ c.code, v = .inst j) ∨
      c.natural.Invariant c.func v := by
  obtain ⟨σ, hσ⟩ := h.decides.laneShape_operand hi hv
  exact (h.accepted.operand (List.dropLast_subset _ hi) hv hσ).imp And.left
    (Or.imp (fun ⟨j, hj, heq, _⟩ => ⟨j, hj, heq⟩) And.left)

/-- What the body uses of itself comes before. -/
theorem mem_of_operand (hsplit : c.code = pre ++ i :: post) (hj : j ∈ c.code)
    (hv : Operand.inst j ∈ (c.func.op i).operands) : j ∈ pre := by
  obtain ⟨t, ht⟩ := h.accepted.wellFormed.ends _ h.accepted.live
  obtain ⟨⟨front, hfront⟩, _⟩ := Func.terminator?_eq_some.mp ht
  rw [Context.code, hfront, List.dropLast_concat] at hsplit
  have hbody : c.func.body c.loop.bodyEntry = pre ++ i :: (post ++ [t]) := by
    rw [hfront, hsplit, List.append_assoc, List.cons_append]
  exact h.accepted.mem_of_operand hbody (List.dropLast_subset _ hj) hv

/-- The induction value has 64 bits. -/
theorem scalar_iv : ∃ s, tt.shape (c.func.tyOf c.loop.iv) = .scalar s ∧ s.isInteger = true ∧
    s.width = 8 := by
  have hlive := CountedLoop.live_of_mem h.accepted.tight.isLoop h.accepted.tight.isLoop.header_mem
  have hmem := h.accepted.induction_mem
  obtain ⟨s, hint, hs, _⟩ := h.accepted.tight.scalar_iv h.wellTyped
  have hshape : tt.shape (c.func.tyOf c.loop.iv) = .scalar s := by
    have hl := (h.header.scalar _ hmem).1
    unfold TypeTable.elementScalar? at hs
    unfold TypeTable.lanes? at hl
    rw [CountedLoop.iv, Func.tyOf_inst] at hs ⊢
    split at hs <;> simp_all
  refine ⟨s, hshape, hint, h.header.wide _ hmem s ?_ hint⟩
  rw [← Func.tyOf_inst]
  exact hshape

end Laned

namespace Lanes

variable {tt : TypeTable} {c : Context} {args : List Datum} {steps : List (InstId × Lowering)}
  {T : LaneShapes} {i j : InstId} {v : Operand} {σ : LaneShape} {pre post : List InstId} {base : Nat}
  {made : Origins} {rs : Array Region} {x : Int64} {W t : Nat} {V : Nat → Values} {X : ChunkTable}
  {d : Datum}

/-! ## Values -/

/-- The result of a computation of the body. -/
theorem result (hL : Lanes tt c args base made rs x W V X) (ht : t < W) (hi : i ∈ c.code)
    (hpure : (c.func.op i).isPure = true) (hd : V t i = some d) :
    pureResult tt (c.func.value tt args (V t)) c.func.tyOf (c.func.inst i).ty (c.func.op i) =
      some d := by
  obtain ⟨pre, post, hsplit⟩ := List.append_of_mem hi
  obtain ⟨d', hd', hc⟩ := hL.tabled t ht pre i post hsplit
  cases hd.symm.trans hd'
  exact hc.pureResult_eq hpure

/-- Every instruction of the body has a result. -/
theorem isSome (hL : Lanes tt c args base made rs x W V X) (ht : t < W) (hi : i ∈ c.code) :
    ∃ d, V t i = some d := by
  obtain ⟨pre, post, hsplit⟩ := List.append_of_mem hi
  exact (hL.tabled t ht pre i post hsplit).imp fun _ h => h.1

/-- What is written lies behind the root of a store. -/
theorem covers_of_chunk (hL : Lanes tt c args base made rs x W V X) (ht : t < W) (hj : j ∈ c.code)
    {e : Chunk} (he : e ∈ X t j) :
    ∃ v p, c.func.op j = .store v p ∧ (c.func.place p).root.Covers args made e.place.region := by
  obtain ⟨pre, post, hsplit⟩ := List.append_of_mem hj
  obtain ⟨d, _, hc⟩ := hL.tabled t ht pre j post hsplit
  by_cases hstore : ∃ v p, c.func.op j = .store v p
  · obtain ⟨v, p, hop⟩ := hstore
    rw [hop] at hc
    obtain ⟨_, q, _, hq, _, hcs, _⟩ := hc.of_store
    refine ⟨v, p, hop, ?_⟩
    rw [region_of_storeChunks hcs e he]
    exact ((hL.traced t ht).value hq).covers
  · rw [hc.eq_nil fun v p hop => hstore ⟨v, p, hop⟩] at he
    cases he

section

variable (h : Laned tt c args steps T) (hL : Lanes tt c args base made rs x W V X)

include h hL

theorem value_of_invariant (ht : t < W) (hv : c.natural.Invariant c.func v) :
    c.func.value tt args (V t) v = c.func.value tt args (V 0) v := by
  cases v with
  | inst j =>
    obtain ⟨b, hown, hout, _⟩ := hv
    refine hL.outside t ht j fun d hd hmem => ?_
    have hlive := CountedLoop.live_of_mem h.accepted.tight.isLoop hd
    rw [h.accepted.wellFormed.owner_eq d hlive j hmem] at hown
    cases hown
    exact hout hd
  | _ => rfl

/-- The search for a stride stays in the body. -/
theorem worth (ht : t < W) {r : Option Int64}
    (hv : c.natural.Searched c.func c.dom c.loop.iv v r) (hr : r.isSome)
    (hin : v = c.loop.iv ∨ (∃ j ∈ c.code, v = .inst j) ∨ c.natural.Invariant c.func v)
    (hd : c.func.value tt args (V t) v = some d) :
    NaturalLoop.Worth tt c.func args c.natural c.dom c.loop.iv (V 0) (.int (x + .ofNat t)) v d := by
  induction hv generalizing d with
  | self =>
    cases hd.symm.trans (hL.counts t ht)
    exact .self
  | invariant hne hinv =>
    refine .invariant hne hinv ?_
    rw [h.accepted.dom_eq] at hinv
    rw [← hL.value_of_invariant h ht (NaturalLoop.isInvariant_iff.mp hinv), hd]
  | other _ _ _ _ => cases hr
  | left _ _ _ => cases hr
  | right _ _ _ _ _ => cases hr
  | @both i o a b c₁ c₂ hf _ _ _ iha ihb =>
    have hi : i ∈ c.code := by
      rcases hin with heq | ⟨j, hj, heq⟩ | hinv
      · exact absurd heq hf.ne
      · rwa [Operand.inst.inj heq]
      · have := hf.varies
        rw [h.accepted.dom_eq, NaturalLoop.isInvariant_iff.mpr hinv] at this
        cases this
    obtain ⟨hty, htys⟩ := h.wellTyped.binary h.accepted.live (List.dropLast_subset _ hi) hf.op_eq
    have hops : ∀ v ∈ (c.func.op i).operands, _ := fun v => h.operand hi (v := v)
    rw [hf.op_eq] at hops
    exact NaturalLoop.worth_of_pureResult hf hty htys (hL.result ht hi (by rw [hf.op_eq]; rfl) hd)
      (fun da => iha rfl (hops a List.mem_cons_self))
      fun db => ihb rfl (hops b (List.mem_cons_of_mem _ List.mem_cons_self))

/-! ## Regions -/

/-- Nothing is written where a load of uniform shape reads. -/
theorem region_ne_of_uniform (hsep : Separate c.func args base) (hi : i ∈ c.code) {ptr : Operand}
    (hop : c.func.op i = .load ptr) (hptr : laneShape c T ptr = .ok .uniform) {q : Pointer}
    (ht : t < W) (hq : c.func.value tt args (V t) ptr = some (.ptr q)) {t' : Nat} (ht' : t' < W)
    (hj : j ∈ c.code) {e : Chunk} (he : e ∈ X t' j) : e.place.region ≠ q.region := by
  intro heq
  obtain ⟨v, p, hstore, hcov⟩ := hL.covers_of_chunk ht' hj he
  have hclear := h.accepted.clear (List.dropLast_subset _ hi) hop hptr j (List.dropLast_subset _ hj)
    v p hstore
  rw [heq] at hcov
  rw [MemRoot.mayAlias_of_covers hsep (hL.traced t ht) ((hL.traced t ht).value hq).covers hcov] at hclear
  cases hclear

/-- A load of uniform shape reads what stood there before. -/
theorem load_of_uniform (hsep : Separate c.func args base) (hsplit : c.code = pre ++ i :: post)
    {ptr : Operand} (hop : c.func.op i = .load ptr) (hptr : laneShape c T ptr = .ok .uniform)
    (ht : t < W) : ∃ q d, c.func.value tt args (V t) ptr = some (.ptr q) ∧ V t i = some d ∧
      (Memory.ofRegions rs).load tt q (c.func.inst i).ty = .ok d := by
  have hi : i ∈ c.code := hsplit ▸ List.mem_append_right _ List.mem_cons_self
  obtain ⟨d, hd, hc⟩ := hL.tabled t ht pre i post hsplit
  rw [hop] at hc
  obtain ⟨q, hq, hload⟩ := hc.of_load
  refine ⟨q, d, hq, hd, ?_⟩
  rw [← writeChunks_append] at hload
  have hne : ∀ e ∈ byLap t c.code X ++ pre.flatMap (X t), e.place.region ≠ q.region := by
    intro e he
    rcases List.mem_append.mp he with he | he
    · obtain ⟨t', ht', j, hj, he⟩ := mem_byLap.mp he
      exact hL.region_ne_of_uniform h hsep hi hop hptr ht hq (Nat.lt_trans ht' ht) hj he
    · obtain ⟨j, hj, he⟩ := List.mem_flatMap.mp he
      exact hL.region_ne_of_uniform h hsep hi hop hptr ht hq ht
        (hsplit ▸ List.mem_append_left _ hj) he
  rw [← hload]
  exact Memory.load_congr_region (sameExtents_writeChunks _ rs).1
    (getElem?_writeChunks_of_ne _ hne).symm

/-! ## Strides -/

omit hL in
/-- Integers of the loop have 64 bits. -/
theorem normalize_eq (hj : j = c.loop.induction ∨ j ∈ c.code) {n y : Int64}
    (hn : (Datum.int n).OfType tt (c.func.inst j).ty) :
    ∃ s, tt.elementScalar? (c.func.inst j).ty = some s ∧ s.normalize y = y := by
  unfold Datum.OfType at hn
  obtain ⟨s, hs, hint⟩ : ∃ s, tt.shape (c.func.inst j).ty = .scalar s ∧ s.isInteger = true := by
    cases hs : tt.shape (c.func.inst j).ty with
    | scalar s => exact ⟨s, rfl, by simpa [hs, Datum.OfShape, Datum.OfScalar] using hn⟩
    | _ => simp [hs, Datum.OfShape] at hn
  refine ⟨s, TypeTable.elementScalar_of_scalar hs, Scalar.normalize_of_width hint ?_ y⟩
  rcases hj with rfl | hj
  · exact h.header.wide _ h.accepted.induction_mem s hs hint
  · exact h.body.wide j (List.dropLast_subset _ hj) s hs hint

/-- A value with a stride advances by it from lane to lane, if it is an integer. -/
theorem stride (ht : t < W) (hj : j = c.loop.induction ∨ j ∈ c.code) {k : Int64}
    (hk : c.natural.stride? c.func c.dom (.inst j) c.loop.iv = some k) {d d₀ : Datum}
    (hd₀ : V 0 j = some d₀) (hd : V t j = some d) :
    (∃ y, d₀ = .int y ∧ d = .int (y + k * .ofNat t)) ∨ (∀ y, d₀ ≠ .int y) ∧ d = d₀ := by
  have hW : 0 < W := Nat.zero_lt_of_lt ht
  have hv := NaturalLoop.searched_of_stride? hk
  have hin : Operand.inst j = c.loop.iv ∨ (∃ i ∈ c.code, Operand.inst j = .inst i) ∨
      c.natural.Invariant c.func (.inst j) :=
    hj.imp (congrArg Operand.inst) fun hj => .inl ⟨j, hj, rfl⟩
  have hw := hL.worth h ht hv rfl hin hd
  have hw₀ := hL.worth h hW hv rfl hin hd₀
  by_cases hint : ∃ y, d₀ = .int y
  · obtain ⟨y, rfl⟩ := hint
    by_cases hint' : ∃ y', d = .int y'
    · obtain ⟨y', rfl⟩ := hint'
      obtain ⟨s, hs, hnorm⟩ := normalize_eq (y := y') h hj (hL.typed t ht j _ hd)
      obtain ⟨_, hs', hnorm'⟩ := normalize_eq (y := y + k * .ofNat t) h hj (hL.typed t ht j _ hd)
      cases hs.symm.trans hs'
      refine .inl ⟨y, rfl, congrArg Datum.int ?_⟩
      rw [← hnorm, ← hnorm']
      refine hw₀.shifted hv hw (by rw [Func.tyOf_inst]; exact hs) ?_
      rintro m m' ⟨⟩ ⟨⟩ s' _
      simp
    · exact absurd ⟨y, (hw.eq_of_not_int (fun y' hy' => hint' ⟨y', hy'⟩) ⟨_, rfl⟩ hw₀).symm⟩ hint'
  · have hno : ∀ y, d₀ ≠ .int y := fun y hy => hint ⟨y, hy⟩
    exact .inr ⟨hno, hw₀.eq_of_not_int hno ⟨_, rfl⟩ hw⟩

/-! ## Uniform values -/

/-- A uniform operand has the same value in every lane, if what comes before does. -/
theorem value_of_uniform {pre post : List InstId} {i : InstId} (hsplit : c.code = pre ++ i :: post)
    (ih : ∀ j ∈ pre, HasShape c T j .uniform → ∀ t < W, V t j = V 0 j) {v : Operand}
    (hv : v ∈ (c.func.op i).operands) (hσ : laneShape c T v = .ok .uniform) (ht : t < W) :
    c.func.value tt args (V t) v = c.func.value tt args (V 0) v := by
  have hi : i ∈ c.code := hsplit ▸ List.mem_append_right _ List.mem_cons_self
  rcases h.accepted.operand (List.dropLast_subset _ hi) hv hσ with ⟨_, heq⟩ | ⟨j, hj, rfl, hshape⟩ |
    ⟨hinv, _⟩
  · cases heq
  · exact ih j (h.mem_of_operand hsplit hj hv) hshape t ht
  · exact hL.value_of_invariant h ht hinv

/-- What has the same lane shape in every lane has the same value. -/
theorem uniform (hsep : Separate c.func args base) : ∀ pre post, c.code = pre ++ post →
    ∀ j ∈ pre, HasShape c T j .uniform → ∀ t < W, V t j = V 0 j := by
  intro pre
  induction pre using List.reverseRecOn with
  | nil => exact fun _ _ j hj => absurd hj List.not_mem_nil
  | append_singleton pre i ih =>
    intro post hsplit j hj hshape t ht
    rw [List.append_assoc] at hsplit
    rcases List.mem_append.mp hj with hj | hj
    · exact ih _ hsplit j hj hshape t ht
    obtain rfl := List.mem_singleton.mp hj
    have hi : j ∈ c.code := hsplit ▸ List.mem_append_right _ List.mem_cons_self
    have hW : 0 < W := Nat.zero_lt_of_lt ht
    have hops : ∀ v ∈ (c.func.op j).operands, laneShape c T v = .ok .uniform →
        c.func.value tt args (V t) v = c.func.value tt args (V 0) v :=
      fun v hv hσ => hL.value_of_uniform h hsplit (ih _ hsplit) hv hσ ht
    obtain ⟨d, hd⟩ := hL.isSome ht hi
    obtain ⟨d₀, hd₀⟩ := hL.isSome hW hi
    cases hshape with
    | pure hop hall =>
      rw [hd, hd₀, ← hL.result ht hi hop hd, ← hL.result hW hi hop hd₀]
      exact pureResult_congr fun v hv => hops v hv (hall v hv)
    | @load ptr hop hptr =>
      obtain ⟨q, _, hq, hres, hload⟩ := hL.load_of_uniform h hsep hsplit hop hptr ht
      obtain ⟨q₀, _, hq₀, hres₀, hload₀⟩ := hL.load_of_uniform h hsep hsplit hop hptr hW
      rw [hops ptr (hop ▸ List.mem_singleton.mpr rfl) hptr, hq₀] at hq
      cases hq
      rw [hres, hres₀, Except.ok.inj (hload.symm.trans hload₀)]
    | store hop _ =>
      obtain ⟨_, hres, hc⟩ := hL.tabled t ht pre j _ hsplit
      obtain ⟨_, hres₀, hc₀⟩ := hL.tabled 0 hW pre j _ hsplit
      rw [hop] at hc hc₀
      rw [hres, hres₀, hc.of_store.1, hc₀.of_store.1]
    | offset hop _ hs =>
      rw [hd, hd₀]
      rcases hL.stride h ht (.inr hi) hs hd₀ hd with ⟨y, rfl, rfl⟩ | ⟨_, rfl⟩
      · simp
      · rfl

theorem value_uniform (hsep : Separate c.func args base) (hi : i ∈ c.code)
    (hv : v ∈ (c.func.op i).operands) (hσ : laneShape c T v = .ok .uniform) (ht : t < W) :
    c.func.value tt args (V t) v = c.func.value tt args (V 0) v := by
  obtain ⟨pre, post, hsplit⟩ := List.append_of_mem hi
  exact hL.value_of_uniform h hsplit (hL.uniform h hsep pre _ hsplit) hv hσ ht

/-! ## Addresses -/

/-- A pointer step by an index of stride one goes one element further in every lane. -/
theorem address (hsep : Separate c.func args base) (hi : i ∈ c.code)
    (hv : v ∈ (c.func.op i).operands) (hσ : laneShape c T v = .ok (.address 1)) (ht : t < W)
    {q : Pointer} (hq : c.func.value tt args (V 0) v = some (.ptr q)) :
    c.func.value tt args (V t) v =
      some (.ptr (q.advance (.ofNat t * .ofNat (c.func.elementSize tt v)))) := by
  obtain ⟨g, hg, bs, idx, rfl, hop, hbase, hidx⟩ :=
    h.accepted.address (List.dropLast_subset _ hi) hv hσ
  have hW : 0 < W := Nat.zero_lt_of_lt ht
  have hmem : bs ∈ (c.func.op g).operands ∧ idx ∈ (c.func.op g).operands := by
    simp [hop, Op.operands]
  obtain ⟨d, hd⟩ := hL.isSome ht hg
  have hpure : (c.func.op g).isPure = true := by rw [hop]; rfl
  have hres₀ := hL.result hW hg hpure hq
  have hres := hL.result ht hg hpure hd
  rw [hop] at hres hres₀
  unfold pureResult at hres hres₀
  dsimp only at hres hres₀
  split at hres₀ <;> try cases hres₀
  rename_i q₀ y e hq₀ hy he
  rw [hL.value_uniform h hsep hg hmem.1 hbase ht, hq₀, he] at hres
  -- The index is computed in the loop.
  have hstride := h.accepted.stride_of_index (List.dropLast_subset _ hg) hmem.2 hidx
  obtain ⟨j, rfl, hj⟩ : ∃ j, idx = .inst j ∧ (j = c.loop.induction ∨ j ∈ c.code) := by
    rcases h.accepted.operand (List.dropLast_subset _ hg) hmem.2 hidx with
      ⟨rfl, _⟩ | ⟨j, hj, rfl, _⟩ | ⟨_, heq⟩
    · exact ⟨_, rfl, .inl rfl⟩
    · exact ⟨j, rfl, .inr hj⟩
    · cases heq
  have hsize : c.func.elementSize tt (.inst g) = tt.paddedSize e :=
    Func.elementSize_eq (by rw [Func.tyOf_inst]; exact he)
  rw [hsize]
  change V t g = _
  rw [hd]
  obtain ⟨d', hd'⟩ := value_of_pureResult (hL.result ht hg hpure hd) _ hmem.2
  rcases hL.stride h ht hj hstride hy hd' with ⟨_, heq, rfl⟩ | ⟨hno, _⟩
  · cases heq
    rw [hd'] at hres
    dsimp only at hres
    rw [← hres, Pointer.advance_advance, Int64.one_mul, Int64.add_mul]
  · exact absurd rfl (hno y)

end

end Lanes

end Vectorize

end LoopNest
