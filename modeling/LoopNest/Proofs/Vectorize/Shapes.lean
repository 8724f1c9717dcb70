import LoopNest.Proofs.Dependence
import LoopNest.Proofs.Loop.Laps
import LoopNest.Proofs.Vectorize.Planned
import LoopNest.Proofs.Vectorize.Swept

/-!
# Lane shapes

The decision gives every instruction of the body a lane shape, one after the other, from the shapes
of its operands.  Operands come first and no instruction comes twice, so there is one table for the
whole body (`shaping_of_lowerBody`), and `HasShape` says what a shape in it was found from.

A loop that is going to be vectorized is tight (`Accepted.tight`).  Its stores advance with the
induction value and conflict with nothing, so none of them meets a load that is the same in every
lane (`Accepted.clear`).
-/

namespace LoopNest

namespace Vectorize

/-! ## What shapes are found from -/

/-- The lane shape of an instruction, by the lane shapes of its operands. -/
inductive HasShape (c : Context) (T : LaneShapes) (i : InstId) : LaneShape → Prop
  /-- An operation on operands that are the same in every lane. -/
  | pure (hop : (c.func.op i).isPure = true)
      (hops : ∀ v ∈ (c.func.op i).operands, laneShape c T v = .ok .uniform) : HasShape c T i .uniform
  /-- A load of one element for all lanes. -/
  | load {ptr : Operand} (hop : c.func.op i = .load ptr)
      (hptr : laneShape c T ptr = .ok .uniform) : HasShape c T i .uniform
  /-- A store to consecutive elements. -/
  | store {v ptr : Operand} (hop : c.func.op i = .store v ptr)
      (hptr : laneShape c T ptr = .ok (.address 1)) : HasShape c T i .uniform
  /-- An integer operation that does not depend on the induction value. -/
  | offset {o : BinaryOp} {a b : Operand} (hop : c.func.op i = .binary o a b)
      (ho : o.isFloat = false)
      (hs : c.natural.stride? c.func c.dom (.inst i) c.loop.iv = some 0) : HasShape c T i .uniform
  /-- An integer operation with a stride. -/
  | index {o : BinaryOp} {a b : Operand} {s : Int64} (hop : c.func.op i = .binary o a b)
      (ho : o.isFloat = false)
      (hs : c.natural.stride? c.func c.dom (.inst i) c.loop.iv = some s) : HasShape c T i (.index s)
  /-- A pointer step by an index. -/
  | address {base idx : Operand} {s : Int64} (hop : c.func.op i = .gep base idx)
      (hbase : laneShape c T base = .ok .uniform) (hidx : laneShape c T idx = .ok (.index s)) :
      HasShape c T i (.address s)
  /-- A vector. -/
  | varying (hop : (c.func.op i).isPure = true ∨ ∃ ptr, c.func.op i = .load ptr) :
      HasShape c T i .varying

variable {tt tt' : TypeTable} {c : Context} {shapes T : LaneShapes} {i : InstId} {s : LaneShape}
  {low : Lowering}

theorem HasShape.mono (h : HasShape c shapes i s)
    (hT : ∀ v ∈ (c.func.op i).operands, laneShape c T v = laneShape c shapes v) :
    HasShape c T i s := by
  cases h with
  | pure hop hops => exact .pure hop fun v hv => (hT v hv).trans (hops v hv)
  | load hop hptr => exact .load hop ((hT _ (hop ▸ List.mem_singleton.mpr rfl)).trans hptr)
  | store hop hptr => exact .store hop ((hT _ (by rw [hop]; simp [Op.operands])).trans hptr)
  | offset hop ho hs => exact .offset hop ho hs
  | index hop ho hs => exact .index hop ho hs
  | address hop hbase hidx =>
    exact .address hop ((hT _ (by rw [hop]; simp [Op.operands])).trans hbase)
      ((hT _ (by rw [hop]; simp [Op.operands])).trans hidx)
  | varying hop => exact .varying hop

/-- An instruction of the body computes, loads or stores. -/
theorem HasShape.plain (h : HasShape c T i s) : (c.func.op i).isPhi = false ∧
    (c.func.op i).isCall = false ∧ (c.func.op i).isSlot = false := by
  have pure : ∀ {op : Op}, op.isPure = true →
      op.isPhi = false ∧ op.isCall = false ∧ op.isSlot = false := by
    intro op hop
    cases op <;> first | exact ⟨rfl, rfl, rfl⟩ | cases hop
  cases h with
  | pure hop _ => exact pure hop
  | load hop _ => rw [hop]; exact ⟨rfl, rfl, rfl⟩
  | store hop _ => rw [hop]; exact ⟨rfl, rfl, rfl⟩
  | offset hop _ _ => rw [hop]; exact ⟨rfl, rfl, rfl⟩
  | index hop _ _ => rw [hop]; exact ⟨rfl, rfl, rfl⟩
  | address hop _ _ => rw [hop]; exact ⟨rfl, rfl, rfl⟩
  | varying hop =>
    rcases hop with hop | ⟨ptr, hop⟩
    · exact pure hop
    · rw [hop]; exact ⟨rfl, rfl, rfl⟩

section

variable {ops : List LaneShape}

theorem Shaped.uniform (h : Shaped c shapes i ops) (hops : ∀ s ∈ ops, s = .uniform) :
    ∀ v ∈ (c.func.op i).operands, laneShape c shapes v = .ok .uniform := by
  intro v hv
  obtain ⟨s, hmem⟩ := exists_mem_zip h hv
  obtain rfl := hops s (List.of_mem_zip hmem).2
  exact h.of_mem_zip hmem

theorem hasShape_of_lowerGep {base idx : Operand} (hs : Shaped c shapes i ops)
    (hop : c.func.op i = .gep base idx) (h : lowerGep c i ops tt = (.ok (s, low), tt')) :
    HasShape c shapes i s := by
  unfold lowerGep at h
  split at h
  · obtain ⟨heq, rfl⟩ := pure_eq_ok.mp h
    cases heq
    exact .pure (by rw [hop]; rfl) (hs.uniform (by simp))
  · obtain ⟨heq, rfl⟩ := pure_eq_ok.mp h
    cases heq
    unfold Shaped at hs
    rw [hop] at hs
    cases hs with
    | cons hbase hs =>
      cases hs with
      | cons hidx _ => exact .address hop hbase hidx
  · exact (reject_eq_ok.mp h).elim

theorem hasShape_of_lowerLoad {ptr : Operand} (hs : Shaped c shapes i ops)
    (hop : c.func.op i = .load ptr) (h : lowerLoad c i ops tt = (.ok (s, low), tt')) :
    HasShape c shapes i s := by
  unfold lowerLoad at h
  split at h
  · obtain ⟨heq, rfl⟩ := pure_eq_ok.mp h
    cases heq
    unfold Shaped at hs
    rw [hop] at hs
    cases hs with
    | cons hptr _ => exact .load hop hptr
  · split at h
    · obtain ⟨t, tt₁, _, h⟩ := bind_eq_ok.mp h
      obtain ⟨heq, rfl⟩ := pure_eq_ok.mp h
      cases heq
      exact .varying (.inr ⟨ptr, hop⟩)
    · exact (reject_eq_ok.mp h).elim
  · exact (reject_eq_ok.mp h).elim

theorem hasShape_of_lowerStore {v ptr : Operand} (hs : Shaped c shapes i ops)
    (hop : c.func.op i = .store v ptr) (h : lowerStore c i v ops tt = (.ok (s, low), tt')) :
    HasShape c shapes i s := by
  unfold lowerStore at h
  split at h
  · split at h
    · exact (reject_eq_ok.mp h).elim
    rename_i hone
    obtain rfl := Decidable.not_not.mp hone
    obtain ⟨t, tt₁, _, h⟩ := bind_eq_ok.mp h
    unfold Shaped at hs
    rw [hop] at hs
    cases hs with
    | cons _ hs =>
      cases hs with
      | cons hptr _ =>
        split at h
        · obtain ⟨heq, rfl⟩ := pure_eq_ok.mp h
          cases heq
          exact .store hop hptr
        · obtain ⟨heq, rfl⟩ := pure_eq_ok.mp h
          cases heq
          exact .store hop hptr
        · exact (reject_eq_ok.mp h).elim
  · exact (reject_eq_ok.mp h).elim
  · exact (reject_eq_ok.mp h).elim

theorem hasShape_of_lowerIndex {o : BinaryOp} {a b : Operand} (hop : c.func.op i = .binary o a b)
    (ho : o.isFloat = false) (h : lowerIndex c i ops tt = (.ok (s, low), tt')) :
    HasShape c shapes i s := by
  unfold lowerIndex at h
  split at h
  · exact (reject_eq_ok.mp h).elim
  · cases hstride : c.natural.stride? c.func c.dom (.inst i) c.loop.iv with
    | none => simp only [hstride, reject_eq_ok] at h
    | some k =>
      simp only [hstride] at h
      split at h
      · rename_i hzero
        obtain ⟨heq, rfl⟩ := pure_eq_ok.mp h
        cases heq
        exact .offset hop ho (hzero ▸ hstride)
      · obtain ⟨heq, rfl⟩ := pure_eq_ok.mp h
        cases heq
        exact .index hop ho hstride

theorem hasShape_of_lowerLanewise (hs : Shaped c shapes i ops)
    (hop : (c.func.op i).isPure = true)
    (h : lowerLanewise c i (c.func.op i).operands ops tt = (.ok (s, low), tt')) :
    HasShape c shapes i s := by
  unfold lowerLanewise at h
  split at h
  · exact (reject_eq_ok.mp h).elim
  rename_i hstrided
  split at h
  · obtain ⟨t, tt₁, _, h⟩ := bind_eq_ok.mp h
    obtain ⟨splats, tt₂, _, h⟩ := bind_eq_ok.mp h
    obtain ⟨heq, rfl⟩ := pure_eq_ok.mp h
    cases heq
    exact .varying (.inl hop)
  · rename_i hvarying
    obtain ⟨heq, rfl⟩ := pure_eq_ok.mp h
    cases heq
    refine .pure hop (hs.uniform fun s hmem => ?_)
    cases s with
    | uniform => rfl
    | varying => exact absurd (List.contains_iff_mem.mpr hmem) hvarying
    | index k => exact absurd (List.any_eq_true.mpr ⟨_, hmem, rfl⟩) hstrided
    | address k => exact absurd (List.any_eq_true.mpr ⟨_, hmem, rfl⟩) hstrided

end

/-- What the shape of an instruction was found from. -/
theorem hasShape_of_lowerInst (h : lowerInst c shapes i tt = (.ok (s, low), tt')) :
    HasShape c shapes i s := by
  unfold lowerInst at h
  obtain ⟨ops, tt₁, hok, h⟩ := bind_eq_ok.mp h
  obtain ⟨hmap, rfl⟩ := ofExcept_eq_ok.mp hok
  have hs : Shaped c shapes i ops := forall₂_of_mapM_eq_ok hmap
  cases hop : (c.func.inst i).op with
  | gep b x =>
    simp only [hop] at h
    exact hasShape_of_lowerGep hs hop h
  | bitcast v =>
    simp only [hop] at h
    split at h
    · rename_i hops
      obtain ⟨heq, rfl⟩ := pure_eq_ok.mp h
      cases heq
      exact .pure (by rw [ Func.op, hop]; rfl) (hs.uniform (by simp [hops]))
    · exact (reject_eq_ok.mp h).elim
  | load p =>
    simp only [hop] at h
    exact hasShape_of_lowerLoad hs hop h
  | store v p =>
    simp only [hop] at h
    exact hasShape_of_lowerStore hs hop h
  | binary o l r =>
    have hpure : (c.func.op i).isPure = true := by rw [ Func.op, hop]; rfl
    simp only [hop] at h
    obtain ⟨_, _, htypes, h⟩ := bind_eq_ok.mp h
    obtain ⟨rfl, rfl⟩ := types_eq_ok.mp htypes
    split at h
    · rename_i hint
      simp only [Bool.and_eq_true, Bool.not_eq_true'] at hint
      exact hasShape_of_lowerIndex hop hint.1 h
    · rw [← hop] at h
      exact hasShape_of_lowerLanewise hs hpure h
  | icmp o l r =>
    simp only [hop] at h
    unfold lowerCompare at h
    split at h
    · rename_i hall
      obtain ⟨heq, rfl⟩ := pure_eq_ok.mp h
      cases heq
      exact .pure (by rw [ Func.op, hop]; rfl)
        (hs.uniform fun s hs => by simpa using List.all_eq_true.mp hall s hs)
    · exact (reject_eq_ok.mp h).elim
  | fcmp o l r =>
    simp only [hop] at h
    rw [← hop] at h
    exact hasShape_of_lowerLanewise hs (by rw [ Func.op, hop]; rfl) h
  | select x l r =>
    simp only [hop] at h
    rw [← hop] at h
    exact hasShape_of_lowerLanewise hs (by rw [ Func.op, hop]; rfl) h
  | _ => simp only [hop, reject_eq_ok] at h

/-! ## The table of the body -/

/-- The body holds computations, loads and stores. -/
theorem plain_of_lowerBody : ∀ {is : List InstId} {shapes : LaneShapes} {tt tt' : TypeTable}
    {steps : List (InstId × Lowering)}, lowerBody c shapes is tt = (.ok steps, tt') → ∀ i ∈ is,
    (c.func.op i).isPhi = false ∧ (c.func.op i).isCall = false ∧ (c.func.op i).isSlot = false
  | [], _, _, _, _, _, _, hi => absurd hi List.not_mem_nil
  | j :: is, shapes, tt, tt', steps, h, i, hi => by
    unfold lowerBody at h
    obtain ⟨⟨s, low⟩, tt₁, hj, h⟩ := bind_eq_ok.mp h
    obtain ⟨rest, tt₂, hrest, _⟩ := bind_eq_ok.mp h
    rcases List.mem_cons.mp hi with rfl | hi
    · exact (hasShape_of_lowerInst hj).plain
    · exact plain_of_lowerBody hrest i hi

/-- The lane shapes of some instructions, in a table that goes on from another one, with the
decisions about them. -/
structure Shaping (c : Context) (shapes : LaneShapes) (is : List InstId)
    (steps : List (InstId × Lowering)) (T : LaneShapes) : Prop where
  lookup_eq : ∀ v, (∀ i ∈ is, v ≠ .inst i) → T.lookup v = shapes.lookup v
  hasShape : ∀ i ∈ is, ∃ s, T.lookup (.inst i) = some s ∧ HasShape c T i s
  /-- Widened accesses go to consecutive elements. -/
  widened : ∀ i t splats ptr, (i, .widen t splats) ∈ steps → (c.func.op i).pointer? = some ptr →
    i ∈ is ∧ laneShape c T ptr = .ok (.address 1)

theorem laneShape_congr {v : Operand} (h : T.lookup v = shapes.lookup v) :
    laneShape c T v = laneShape c shapes v := by
  unfold laneShape
  rw [h]

theorem Lowers.address {t : TyId} {splats : List (Operand × TyId)} {ptr : Operand}
    (h : Lowers tt c shapes i s (.widen t splats)) (hptr : (c.func.op i).pointer? = some ptr) :
    laneShape c shapes ptr = .ok (.address 1) := by
  cases h with
  | load hop haddr _ =>
    rw [hop] at hptr
    cases hptr
    exact haddr
  | store hop haddr _ _ =>
    rw [hop] at hptr
    cases hptr
    exact haddr
  | lanewise hop _ _ _ =>
    cases hx : c.func.op i with
    | load p => cases (hx ▸ hop :)
    | store v p => cases (hx ▸ hop :)
    | _ => cases (hx ▸ hptr :)

/-- The decisions about some instructions, one after the other, with their lane shapes in a table
that goes on from another one. -/
inductive Decides (tt : TypeTable) (c : Context) (T : LaneShapes) :
    LaneShapes → List InstId → List (InstId × Lowering) → Prop
  | nil {shapes : LaneShapes} : Decides tt c T shapes [] []
  | cons {shapes : LaneShapes} {i : InstId} {is : List InstId} {s : LaneShape} {low : Lowering}
      {steps : List (InstId × Lowering)} (lowers : Lowers tt c shapes i s low)
      (hasShape : HasShape c T i s)
      (operands : ∀ v ∈ (c.func.op i).operands, laneShape c T v = laneShape c shapes v)
      (store : ∀ v ptr, c.func.op i = .store v ptr → low ≠ .scalar)
      (rest : Decides tt c T ((.inst i, s) :: shapes) is steps) :
      Decides tt c T shapes (i :: is) ((i, low) :: steps)

theorem Decides.mono {is : List InstId} {steps : List (InstId × Lowering)}
    (h : Decides tt c T shapes is steps) (ht : tt.Extends tt') : Decides tt' c T shapes is steps := by
  induction h with
  | nil => exact .nil
  | cons hl hs hops hst _ ih => exact .cons (hl.mono ht) hs hops hst ih

theorem Decides.lowersAll {is : List InstId} {steps : List (InstId × Lowering)}
    (h : Decides tt c T shapes is steps) : LowersAll tt c shapes is steps := by
  induction h with
  | nil => exact .nil
  | cons hl _ _ _ _ ih => exact .cons hl ih

/-- Stores are widened. -/
theorem widen_of_lowerInst_store (h : lowerInst c shapes i tt = (.ok (s, low), tt'))
    {v ptr : Operand} (hop : c.func.op i = .store v ptr) : low ≠ .scalar := by
  rintro rfl
  have hshape := hasShape_of_lowerInst h
  unfold lowerInst at h
  obtain ⟨ops, tt₁, hok, h⟩ := bind_eq_ok.mp h
  change (c.func.inst i).op = _ at hop
  simp only [hop] at h
  unfold lowerStore at h
  split at h
  · split at h
    · exact (reject_eq_ok.mp h).elim
    · obtain ⟨t, tt₂, _, h⟩ := bind_eq_ok.mp h
      split at h
      · cases (pure_eq_ok.mp h).1
      · cases (pure_eq_ok.mp h).1
      · exact (reject_eq_ok.mp h).elim
  · exact (reject_eq_ok.mp h).elim
  · exact (reject_eq_ok.mp h).elim

/-- Instructions whose operands come before them get their shapes from one table. -/
theorem shaping_of_lowerBody : ∀ {is : List InstId} {shapes : LaneShapes} {tt tt' : TypeTable}
    {steps : List (InstId × Lowering)}, lowerBody c shapes is tt = (.ok steps, tt') → is.Nodup →
    (∀ pre i post, is = pre ++ i :: post → (c.func.op i).isPhi = false →
      ∀ j ∈ i :: post, Operand.inst j ∉ (c.func.op i).operands) →
    ∃ T, Shaping c shapes is steps T ∧ Decides tt' c T shapes is steps
  | [], shapes, _, _, _, h, _, _ => by
    obtain ⟨rfl, rfl⟩ := pure_eq_ok.mp h
    exact ⟨shapes, ⟨fun _ _ => rfl, nofun, nofun⟩, .nil⟩
  | i :: is, shapes, tt, tt', steps, h, hnodup, hops => by
    unfold lowerBody at h
    obtain ⟨⟨s, low⟩, tt₁, hi, h⟩ := bind_eq_ok.mp h
    obtain ⟨rest, tt₂, hrest, h⟩ := bind_eq_ok.mp h
    obtain ⟨rfl, rfl⟩ := pure_eq_ok.mp h
    obtain ⟨hnot, hnodup⟩ := List.nodup_cons.mp hnodup
    obtain ⟨T, hT, hdec⟩ := shaping_of_lowerBody hrest hnodup fun pre j post heq =>
      hops (i :: pre) j post (congrArg (i :: ·) heq)
    have hlookup : ∀ v, (∀ j ∈ i :: is, v ≠ .inst j) → T.lookup v = shapes.lookup v := by
      intro v hv
      rw [hT.lookup_eq v fun j hj => hv j (List.mem_cons_of_mem _ hj), List.lookup_cons,
        beq_eq_false_iff_ne.mpr (hv i List.mem_cons_self)]
    have hself : T.lookup (.inst i) = some s := by
      rw [hT.lookup_eq (.inst i), List.lookup_cons_self]
      rintro j hj ⟨⟩
      exact hnot hj
    have hshape : ∀ v ∈ (c.func.op i).operands, laneShape c T v = laneShape c shapes v :=
      fun v hv => laneShape_congr (hlookup v fun j hj heq =>
        hops [] i is rfl (hasShape_of_lowerInst hi).plain.1 j hj (heq ▸ hv))
    have hs := (hasShape_of_lowerInst hi).mono hshape
    refine ⟨T, ⟨hlookup, fun j hj => ?_, fun j t splats ptr hmem hptr => ?_⟩,
      .cons ((lowers_of_lowerInst hi).2.mono (lowersAll_of_lowerBody hrest).1) hs hshape
        (fun _ _ => widen_of_lowerInst_store hi) hdec⟩
    · rcases List.mem_cons.mp hj with rfl | hj
      · exact ⟨s, hself, hs⟩
      · exact hT.hasShape j hj
    · rcases List.mem_cons.mp hmem with heq | hmem
      · cases heq
        refine ⟨List.mem_cons_self, (hshape ptr (Machine.mem_operands_of_pointer? hptr).1).trans ?_⟩
        exact (lowers_of_lowerInst hi).2.address hptr
      · obtain ⟨hj, haddr⟩ := hT.widened j t splats ptr hmem hptr
        exact ⟨List.mem_cons_of_mem _ hj, haddr⟩

/-- No two accesses conflict. -/
theorem mayConflict_of_firstConflict? : ∀ {as : List MemAccess}, firstConflict? as = none →
    as.Pairwise fun a b => a.mayConflict b = false
  | [], _ => .nil
  | a :: as, h => by
    unfold firstConflict? at h
    split at h
    · cases h
    · rename_i hfind
      refine .cons (fun b hb => ?_) (mayConflict_of_firstConflict? h)
      simpa using List.find?_eq_none.mp hfind b hb

/-! ## Loops that are accepted -/

/-- A loop that is going to be vectorized, with the lane shapes of its body. -/
structure Accepted (c : Context) (steps : List (InstId × Lowering)) (T : LaneShapes) : Prop where
  wellFormed : c.func.WellFormed
  listed_once : c.func.ListedOnce
  uses_listed : c.func.UsesListed
  dom_eq : c.dom = .ofGraph (.ofFunc c.func)
  tight : c.loop.Tight c.func c.natural
  /-- Nothing is used outside. -/
  uses : ∀ b ∈ c.natural.blocks, ∀ i ∈ c.func.body b, ∀ d ∈ c.func.layout, d ∉ c.natural.blocks →
    ∀ u ∈ c.func.body d, Operand.inst i ∉ (c.func.op u).operands
  shaping : Shaping c [(c.loop.iv, .index 1)] (c.func.body c.loop.bodyEntry).dropLast steps T
  conflicts : (MemAccess.ofBlocks c.func [c.loop.bodyEntry]).Pairwise fun a b =>
    a.mayConflict b = false

namespace Accepted

variable {steps : List (InstId × Lowering)} {v ptr : Operand} {σ : LaneShape}

theorem live (h : Accepted c steps T) : c.loop.bodyEntry ∈ c.func.layout :=
  CountedLoop.live_of_mem h.tight.isLoop h.tight.counted.bodyEntry_mem

theorem reachable (h : Accepted c steps T) :
    (FlowGraph.ofFunc c.func).Reachable c.loop.bodyEntry :=
  h.tight.isLoop.reachable_mem h.tight.counted.bodyEntry_mem

theorem induction_mem (h : Accepted c steps T) :
    c.loop.induction ∈ c.func.body c.natural.header := by
  obtain ⟨t, ht⟩ := h.tight.header_body
  rw [ht]
  exact List.mem_cons_self

/-- Only the last instruction of the body is left out. -/
theorem mem_dropLast (h : Accepted c steps T) (hi : i ∈ c.func.body c.loop.bodyEntry)
    (hterm : (c.func.op i).isTerminator = false) :
    i ∈ (c.func.body c.loop.bodyEntry).dropLast := by
  refine (h.wellFormed.framed.mem_dropLast_or h.live hi).resolve_right fun ht => ?_
  rw [(Func.mem_body_of_terminator ht).2] at hterm
  cases hterm

theorem lookup_iv (h : Accepted c steps T) : T.lookup c.loop.iv = some (.index 1) := by
  rw [h.shaping.lookup_eq c.loop.iv, List.lookup_cons_self]
  rintro j hj heq
  obtain rfl : c.loop.induction = j := Operand.inst.inj heq
  have hown := h.wellFormed.owner_eq _ h.live _ (List.dropLast_subset _ hj)
  have hheader := CountedLoop.live_of_mem h.tight.isLoop h.tight.isLoop.header_mem
  rw [h.wellFormed.owner_eq _ hheader _ h.induction_mem] at hown
  exact h.tight.bodyEntry_ne_header (Option.some.inj hown).symm

/-- A value used in the body is the induction value, is computed in the body, or is invariant. -/
theorem operand (h : Accepted c steps T) (hi : i ∈ c.func.body c.loop.bodyEntry)
    (hv : v ∈ (c.func.op i).operands) (hσ : laneShape c T v = .ok σ) :
    v = c.loop.iv ∧ σ = .index 1 ∨
    (∃ j ∈ (c.func.body c.loop.bodyEntry).dropLast, v = .inst j ∧ HasShape c T j σ) ∨
    c.natural.Invariant c.func v ∧ σ = .uniform := by
  by_cases hiv : v = c.loop.iv
  · refine .inl ⟨hiv, ?_⟩
    unfold laneShape at hσ
    rw [hiv, h.lookup_iv] at hσ
    exact (Except.ok.inj hσ).symm
  by_cases hbody : ∃ j ∈ (c.func.body c.loop.bodyEntry).dropLast, v = .inst j
  · obtain ⟨j, hj, rfl⟩ := hbody
    obtain ⟨s, hs, hshape⟩ := h.shaping.hasShape j hj
    unfold laneShape at hσ
    rw [hs] at hσ
    cases hσ
    exact .inr (.inl ⟨j, hj, rfl, hshape⟩)
  have hnone : T.lookup v = none := by
    rw [h.shaping.lookup_eq v fun j hj heq => hbody ⟨j, hj, heq⟩, List.lookup_cons,
      beq_eq_false_iff_ne.mpr hiv]
    rfl
  unfold laneShape at hσ
  rw [hnone] at hσ
  refine .inr (.inr ?_)
  cases v with
  | param k =>
    cases hσ
    exact ⟨trivial, rfl⟩
  | const k =>
    cases hσ
    exact ⟨trivial, rfl⟩
  | inst j =>
    dsimp only at hσ
    split at hσ
    · cases hσ
    rename_i hheader
    cases hσ
    obtain ⟨d, hd, hdom, hsame⟩ := h.wellFormed.use_dominated _ h.live h.reachable i hi
      (h.tight.plain i hi).1 j hv
    have hdb : d ≠ c.loop.bodyEntry := by
      intro heq
      obtain ⟨pre, post, hsplit⟩ := List.append_of_mem hi
      refine hbody ⟨j, ?_, rfl⟩
      rw [hsplit, List.dropLast_append_of_ne_nil (List.cons_ne_nil _ _)]
      exact List.mem_append_left _ (hsame heq pre post hsplit)
    rw [hd, h.tight.counted.header_eq] at hheader
    refine ⟨h.tight.isLoop.invariant_of_dominates hd (hdom hdb) hdb ?_ ?_, rfl⟩
    · exact fun heq => hheader (congrArg some heq)
    · exact (FlowGraph.edge_ofFunc _ _ _).mpr ⟨CountedLoop.live_of_mem h.tight.isLoop
        h.tight.isLoop.header_mem, h.live, (CountedLoop.header_successors h.tight.counted).mpr (.inl rfl)⟩

/-- A pointer that advances is stepped to by an index. -/
theorem address (h : Accepted c steps T) (hi : i ∈ c.func.body c.loop.bodyEntry)
    (hv : v ∈ (c.func.op i).operands) {k : Int64} (hσ : laneShape c T v = .ok (.address k)) :
    ∃ g ∈ (c.func.body c.loop.bodyEntry).dropLast, ∃ base idx, v = .inst g ∧
      c.func.op g = .gep base idx ∧ laneShape c T base = .ok .uniform ∧
      laneShape c T idx = .ok (.index k) := by
  rcases h.operand hi hv hσ with ⟨_, heq⟩ | ⟨g, hg, rfl, hshape⟩ | ⟨_, heq⟩
  · cases heq
  · cases hshape with
    | address hop hbase hidx => exact ⟨g, hg, _, _, rfl, hop, hbase, hidx⟩
  · cases heq

/-- What is computed in the loop. -/
theorem not_used_outside (h : Accepted c steps T) (hi : i ∈ c.func.body c.loop.bodyEntry)
    (hv : v ∈ (c.func.op i).operands) {k : Int64} (hσ : laneShape c T v = .ok (.index k))
    {d : BlockId} (hd : d ∈ c.func.layout) (hout : d ∉ c.natural.blocks) {u : InstId}
    (hu : u ∈ c.func.body d) : v ∉ (c.func.op u).operands := by
  rcases h.operand hi hv hσ with ⟨rfl, _⟩ | ⟨g, hg, rfl, _⟩ | ⟨_, heq⟩
  · exact h.uses _ h.tight.isLoop.header_mem _ h.induction_mem d hd hout u hu
  · exact h.uses _ h.tight.counted.bodyEntry_mem g (List.dropLast_subset _ hg) d hd hout u hu
  · cases heq

/-- A store goes by an index of stride one. -/
theorem address_of_store (h : Accepted c steps T) (hi : i ∈ c.func.body c.loop.bodyEntry)
    (hstore : c.func.op i = .store v ptr) : laneShape c T ptr = .ok (.address 1) := by
  obtain ⟨s, _, hshape⟩ := h.shaping.hasShape i (h.mem_dropLast hi (by rw [hstore]; rfl))
  cases hshape with
  | store hop hq =>
    rw [hstore] at hop
    cases hop
    exact hq
  | pure hop _ => cases (hstore ▸ hop :)
  | load hop _ => cases hstore.symm.trans hop
  | offset hop _ _ => cases hstore.symm.trans hop
  | index hop _ _ => cases hstore.symm.trans hop
  | address hop _ _ => cases hstore.symm.trans hop
  | varying hop =>
    rcases hop with hop | ⟨_, hop⟩
    · cases (hstore ▸ hop :)
    · cases hstore.symm.trans hop

/-- A load that is the same in every lane stays clear of the stores: they all go by an index of the
loop, and what is conflict-free and may alias has the same index. -/
theorem clear (h : Accepted c steps T) (hi : i ∈ c.func.body c.loop.bodyEntry)
    (hop : c.func.op i = .load ptr) (hptr : laneShape c T ptr = .ok .uniform) :
    c.func.Clear c.loop.bodyEntry ptr := by
  intro x hx v q hstore
  by_contra halias
  rw [Bool.not_eq_false] at halias
  have hq := h.address_of_store hx hstore
  obtain ⟨g, hg, base, idx, rfl, hgep, _, hidx⟩ := h.address hx (by rw [hstore]; simp [Op.operands]) hq
  have hgmem := List.dropLast_subset _ hg
  have hidxmem : idx ∈ (c.func.op g).operands := by
    rw [hgep]
    simp [Op.operands]
  -- The load goes by the same index.
  obtain ⟨y, hy, hy'⟩ := MemAccess.index_of_pairwise h.conflicts (List.mem_singleton.mpr rfl) hi hop
    hx hstore halias
  obtain ⟨g', base', rfl, hgep'⟩ := Func.gep_of_place hy
  obtain ⟨g'', base'', hinst, hgep''⟩ := Func.gep_of_place hy'
  cases hinst
  obtain ⟨rfl, rfl⟩ := Op.gep.inj (hgep.symm.trans hgep'')
  have hptrmem : Operand.inst g' ∈ (c.func.op i).operands := by
    rw [hop]
    exact List.mem_singleton.mpr rfl
  have hyused : idx ∈ (c.func.op g').operands := by
    rw [hgep']
    simp [Op.operands]
  rcases h.operand hi hptrmem hptr with ⟨_, heq⟩ | ⟨j, hj, heq, hshape'⟩ | ⟨hinv, _⟩
  · cases heq
  · cases heq
    cases hshape' with
    | pure _ hops => cases (hops idx hyused).symm.trans hidx
    | load hop _ => cases hgep'.symm.trans hop
    | store hop _ => cases hgep'.symm.trans hop
    | offset hop _ _ => cases hgep'.symm.trans hop
  · obtain ⟨d, hd, hout, hdom⟩ := hinv
    have hlisted := Func.usesListed_iff.mp h.uses_listed _ h.live i hi g' hptrmem d hd
    have hdlive : d ∈ c.func.layout :=
      FlowGraph.blocks_ofFunc c.func ▸ (hdom.reachable h.tight.isLoop.reachable).live
    exact h.not_used_outside hgmem hidxmem hidx hdlive hout hlisted hyused

end Accepted

/-- A loop that a plan was made for has three blocks.  Of the function, only the ends of its blocks
matter. -/
theorem tight_of_plan_of_ends {f : Func} {l : NaturalLoop} {p : VectorPlan} {config : VectorConfig}
    (hentry : ∀ e, f.entry? = some e → f.predecessors e = [])
    (hends : ∀ b ∈ f.layout, ∃ t, f.terminator? b = some t) (hl : l ∈ innermostLoops (.ofFunc f))
    (h : plan config f (.ofFunc f) (.ofGraph (.ofFunc f)) l tt = (.ok p, tt')) :
    p.loop.Tight f l := by
  have hil := isLoop_of_innermost hl
  obtain ⟨_, hrec, hcheck, _, ⟨tt₁, hbody, _⟩, _⟩ := plan_eq_ok h
  have hc := CountedLoop.isCounted_of_recognize hrec
  obtain ⟨hstep, hlength, hheader, hlatch, _⟩ := checkStructure_eq_ok hcheck
  obtain ⟨t, ht⟩ := hends _ (CountedLoop.live_of_mem hil hc.bodyEntry_mem)
  obtain ⟨⟨front, hfront⟩, hterm⟩ := Func.terminator?_eq_some.mp ht
  rw [hfront, List.dropLast_concat] at hbody
  refine CountedLoop.tight_of_innermost hentry hil hc
    (fun b hb hne q => not_dominates_of_innermost hl hb hne) hstep hlength hheader hlatch
    fun i hi => ?_
  rw [hfront] at hi
  rcases List.mem_append.mp hi with hi | hi
  · exact plain_of_lowerBody hbody i hi
  · rw [List.mem_singleton.mp hi]
    exact ⟨Op.not_isPhi_of_isTerminator hterm, Op.not_isCall_of_isTerminator hterm,
      Op.not_isSlot_of_isTerminator hterm⟩

theorem tight_of_plan {f : Func} {l : NaturalLoop} {p : VectorPlan} {config : VectorConfig}
    (hf : f.Framed) (hl : l ∈ innermostLoops (.ofFunc f))
    (h : plan config f (.ofFunc f) (.ofGraph (.ofFunc f)) l tt = (.ok p, tt')) :
    p.loop.Tight f l := tight_of_plan_of_ends hf.entry_predecessors hf.ends hl h

/-- What a loop is like that a plan was made for, and what was decided about its body. -/
theorem decided_of_plan {f : Func} {l : NaturalLoop} {p : VectorPlan} {config : VectorConfig}
    (hf : f.WellFormed) (ho : f.ListedOnce) (hu : f.UsesListed)
    (hl : l ∈ innermostLoops (.ofFunc f))
    (h : plan config f (.ofFunc f) (.ofGraph (.ofFunc f)) l tt = (.ok p, tt')) :
    ∃ T, Accepted ⟨f, .ofGraph (.ofFunc f), l, p.loop, config⟩ p.steps T ∧
      Decides tt' ⟨f, .ofGraph (.ofFunc f), l, p.loop, config⟩ T [(p.loop.iv, .index 1)]
        (f.body p.loop.bodyEntry).dropLast p.steps := by
  have hil := isLoop_of_innermost hl
  have htight := tight_of_plan hf.framed hl h
  obtain ⟨_, hrec, hcheck, hmemory, ⟨tt₁, hbody, hext⟩, _⟩ := plan_eq_ok h
  have hc := htight.counted
  obtain ⟨_, hlength, _, _, _, huses⟩ := checkStructure_eq_ok hcheck
  dsimp only at hlength huses
  have hlive := CountedLoop.live_of_mem hil hc.bodyEntry_mem
  have hreach := hil.reachable_mem hc.bodyEntry_mem
  obtain ⟨t, ht⟩ := hf.ends _ hlive
  obtain ⟨⟨front, hfront⟩, _⟩ := Func.terminator?_eq_some.mp ht
  have hnodup := ho _ hlive
  rw [hfront] at hnodup
  rw [hfront, List.dropLast_concat] at hbody
  obtain ⟨T, hT, hdec⟩ := shaping_of_lowerBody hbody (List.nodup_append.mp hnodup).1
    fun pre i post heq hphi j hj => by
      have hbody : f.body p.loop.bodyEntry = pre ++ i :: (post ++ [t]) := by
        rw [hfront, heq, List.append_assoc, List.cons_append]
      exact hf.not_mem_operands ho hreach hbody hphi (List.mem_append_left [t] hj)
  refine ⟨T, ⟨hf, ho, hu, rfl, htight, fun b hb i hi d hd hout u hu =>
    hf.not_usedOutside (huses b hb i hi) hd hout hu, ?_, ?_⟩, ?_⟩
  · rw [hfront, List.dropLast_concat]
    exact hT
  · have hmem : p.loop.bodyEntry ∈ p.loop.body := by
      rw [hc.body_eq, List.mem_filter, decide_eq_true_iff]
      exact ⟨hc.bodyEntry_mem, htight.bodyEntry_ne_header, htight.bodyEntry_ne_latch⟩
    obtain ⟨x, hx⟩ := List.length_eq_one_iff.mp hlength
    rw [hx, List.mem_singleton] at hmem
    unfold checkMemory at hmemory
    split at hmemory
    · cases hmemory
    · next hnone =>
      rw [hx, ← hmem] at hnone
      exact mayConflict_of_firstConflict? hnone
  · rw [hfront, List.dropLast_concat]
    exact hdec.mono hext

/-- What a loop is like that a plan was made for. -/
theorem accepted_of_plan {f : Func} {l : NaturalLoop} {p : VectorPlan} {config : VectorConfig}
    (hf : f.WellFormed) (ho : f.ListedOnce) (hu : f.UsesListed)
    (hl : l ∈ innermostLoops (.ofFunc f))
    (h : plan config f (.ofFunc f) (.ofGraph (.ofFunc f)) l tt = (.ok p, tt')) :
    ∃ T, Accepted ⟨f, .ofGraph (.ofFunc f), l, p.loop, config⟩ p.steps T := by
  obtain ⟨T, h, _⟩ := decided_of_plan hf ho hu hl h
  exact ⟨T, h⟩

end Vectorize

end LoopNest
