import LoopNest.Proofs.Padding.Replaced

/-!
# Blocks with padded stack slots

A block of the padded function has the phis and the terminator of the old one, and its other
instructions are the old ones with each slot replaced (`Padding.Widens.phis_eq`,
`Padding.Widens.afterPhis_eq`).  So both functions have the same flow graph
(`Padding.Widens.ofFunc_eq`).
-/

namespace LoopNest

namespace Padding

/-- The function `g` is `f` with those stack slots padded that can be, and `tt'` is the type table
that was grown for it. -/
structure Widens (tt : TypeTable) (f : Func) (tt' : TypeTable) (g : Func) (slots : List Slot) :
    Prop where
  wellFormed : f.WellFormed
  padded : Padded f g slots
  types_extend : tt.Extends tt'
  closed : tt.Closed
  closed' : tt'.Closed
  /-- Each slot is listed in its block, and is padded. -/
  pads : ∀ s ∈ slots, s.block ∈ f.layout ∧ s.alloca ∈ f.body s.block ∧
    ∃ t a, f.op s.alloca = .alloca t a ∧ tt.sizeInBits t % 64 ≠ 0 ∧ t < tt.size ∧
      s.Pads tt' f (paddedBytes tt t)
  /-- What is not padded consists of whole words, or is too large. -/
  left : ∀ i ∈ f.liveInsts, replacement? f.insts.size slots i = none → ∀ t a,
    f.op i = .alloca t a → tt.sizeInBits t % 64 = 0 ∨ 2 ^ 32 ≤ paddedBytes tt t

theorem mem_candidates {tt : TypeTable} {f : Func} {i : InstId} {t : TyId} :
    (i, t) ∈ candidates tt f ↔
      i ∈ f.liveInsts ∧ ∃ a, f.op i = .alloca t a ∧ tt.sizeInBits t % 64 ≠ 0 := by
  unfold candidates
  rw [List.mem_filterMap]
  constructor
  · rintro ⟨j, hj, h⟩
    obtain ⟨u, hu, heq⟩ := Option.map_eq_some_iff.mp h
    cases heq
    unfold unevenTy? at hu
    split at hu
    · rename_i u a hop
      split at hu
      · cases hu
        exact ⟨hj, a, hop, by assumption⟩
      · cases hu
    · cases hu
  · rintro ⟨hi, a, hop, hsize⟩
    exact ⟨i, hi, by simp [unevenTy?, hop, hsize]⟩

theorem candidates_sublist (tt : TypeTable) (f : Func) :
    List.Sublist ((candidates tt f).map Prod.fst) f.liveInsts := by
  unfold candidates
  induction f.liveInsts with
  | nil => simp
  | cons i is ih =>
    rw [List.filterMap_cons]
    cases unevenTy? tt f i with
    | none => exact ih.cons i
    | some t => exact ih.cons_cons i

/-- The type in a stack slot of a well-typed function is in the table. -/
theorem slot_lt {tt : TypeTable} {f : Func} (hc : tt.Closed) (ht : f.WellTyped tt) {i : InstId}
    (hi : i ∈ f.liveInsts) {t : TyId} {a : Nat} (hop : f.op i = .alloca t a) : t < tt.size := by
  obtain ⟨b, hb, hi⟩ := List.mem_flatMap.mp hi
  obtain ⟨ty, hty, hlook⟩ := ht b hb i hi
  rw [hop] at hty
  cases hty
  refine hc.pointee_lt (t := (f.inst i).ty) ?_
  rw [TypeTable.shape, Pool.get?_of_lookup hlook]
  rfl

/-- Whether padding gets stuck does not depend on what is interned later. -/
theorem padStuck_extends {tt tt' : TypeTable} {f : Func} (he : tt.Extends tt') (hc : tt.Closed)
    (ht : f.WellTyped tt) (hfit : f.padStuck tt = false) : f.padStuck tt' = false := by
  rw [padStuck_eq_false_iff] at hfit ⊢
  intro i hi t a hop
  rw [slotStuck_extends he hc (slot_lt hc ht hi hop)]
  exact hfit i hi t a hop

/-- What the pass does to a function that lists its instructions once. -/
theorem widens_padSlots {tt : TypeTable} {f : Func} (hf : f.WellFormed) (ht : f.WellTyped tt)
    (hc : tt.Closed) (hnd : f.liveInsts.Nodup) :
    ∃ slots, Widens tt f (f.padSlots tt).types (f.padSlots tt).func slots := by
  have hp := planned_planSlots f (candidates tt f) tt hc fun c hmem => by
    obtain ⟨hi, a, hop, _⟩ := mem_candidates.mp hmem
    exact slot_lt hc ht hi hop
  have hpads : ∀ s ∈ (planSlots f (candidates tt f) tt).1,
      s.block ∈ f.layout ∧ s.alloca ∈ f.body s.block ∧ ∃ t a, f.op s.alloca = .alloca t a ∧
        tt.sizeInBits t % 64 ≠ 0 ∧ t < tt.size ∧ s.Pads (planSlots f (candidates tt f) tt).2.1 f (paddedBytes tt t) := by
    intro s hs
    obtain ⟨t, hmem, hpad⟩ := hp.pads s hs
    obtain ⟨hi, a, hop, hsize⟩ := mem_candidates.mp hmem
    obtain ⟨b, hb, hib⟩ := List.mem_flatMap.mp hi
    obtain rfl : b = s.block := by
      have := hf.owner_eq b hb _ hib
      rw [hpad.owner_eq] at this
      exact (Option.some.inj this).symm
    exact ⟨hb, hib, t, a, hop, hsize, slot_lt hc ht hi hop, hpad⟩
  refine ⟨(planSlots f (candidates tt f) tt).1, hf, ?_, hp.types_extend, hc, hp.closed, hpads,
    fun i hi hnone t a hop => ?_⟩
  · refine padded_foldl hf hnd _ (Padded.refl f) (fun s hs => ?_) ?_
    · exact ⟨(hpads s hs).1, (hpads s hs).2.1⟩
    · exact (hp.sublist.trans (candidates_sublist tt f)).nodup hnd
  · by_cases hsize : tt.sizeInBits t % 64 = 0
    · exact .inl hsize
    · rcases hp.skipped i t (mem_candidates.mpr ⟨hi, a, hop, hsize⟩) with ⟨s, hs, heq⟩ | hown | h
      · exact absurd heq (replacement?_eq_none.mp hnone s hs)
      · obtain ⟨b, hb, hi⟩ := List.mem_flatMap.mp hi
        rw [hf.owner_eq b hb i hi] at hown
        cases hown
      · exact .inr h

namespace Widens

variable {tt tt' : TypeTable} {f g : Func} {slots : List Slot} {b : BlockId} {i j : InstId}

/-- Only slots are replaced. -/
theorem replacement?_of_not_isSlot (h : Widens tt f tt' g slots) (hi : (f.op i).isSlot = false) :
    replacement? f.insts.size slots i = none := by
  rw [replacement?_eq_none]
  rintro s hs rfl
  obtain ⟨_, _, t, a, hop, _⟩ := h.pads s hs
  rw [hop] at hi
  cases hi

theorem layout_eq (h : Widens tt f tt' g slots) : g.layout = f.layout := h.padded.outline.layout_eq

/-- An instruction of a block is an old one, a new slot, or the cast of one. -/
theorem mem_body (h : Widens tt f tt' g slots) (hb : b ∈ f.layout) (hj : j ∈ g.body b) :
    (j ∈ f.body b ∧ replacement? f.insts.size slots j = none ∧
      g.op j = (f.op j).mapOperands (renameOperand f.insts.size slots)) ∨
    ∃ k s, slots[k]? = some s ∧ s.block = b ∧
      ((j = f.insts.size + 2 * k ∧ g.inst j = s.wide) ∨
        j = f.insts.size + 2 * k + 1 ∧ g.inst j = s.cast (f.insts.size + 2 * k)) := by
  rw [h.padded.body_eq b hb] at hj
  obtain ⟨i, hi, hj⟩ := List.mem_flatMap.mp hj
  rcases mem_expand hj with ⟨rfl, hnone⟩ | ⟨k, s, hk, rfl, _, hj⟩
  · exact .inl ⟨hi, hnone, h.padded.op_eq b hb _ hi hnone⟩
  · obtain ⟨hb', ha, _⟩ := h.pads s (List.mem_of_getElem? hk)
    have hown := h.wellFormed.owner_eq _ hb' _ ha
    rw [h.wellFormed.owner_eq b hb _ hi] at hown
    refine .inr ⟨k, s, hk, (Option.some.inj hown).symm, ?_⟩
    rcases hj with rfl | rfl
    · exact .inl ⟨rfl, h.padded.wide_eq k s hk⟩
    · exact .inr ⟨rfl, h.padded.cast_eq k s hk⟩

/-! ## Parts of a block -/

/-- The phis stay in front. -/
theorem span_eq (h : Widens tt f tt' g slots) (hb : b ∈ f.layout) : ∀ is : List InstId,
    (∀ i ∈ is, i ∈ f.body b) →
    (is.flatMap (expand f.insts.size slots)).takeWhile (fun i => (g.op i).isPhi) =
      is.takeWhile (fun i => (f.op i).isPhi) ∧
    (is.flatMap (expand f.insts.size slots)).dropWhile (fun i => (g.op i).isPhi) =
      (is.dropWhile (fun i => (f.op i).isPhi)).flatMap (expand f.insts.size slots)
  | [], _ => ⟨rfl, rfl⟩
  | i :: is, his => by
    obtain ⟨iht, ihd⟩ := h.span_eq hb is fun j hj => his j (List.mem_cons_of_mem _ hj)
    have hi := his i List.mem_cons_self
    cases hr : replacement? f.insts.size slots i with
    | none =>
      have hphi : (g.op i).isPhi = (f.op i).isPhi := by
        rw [h.padded.op_eq b hb i hi hr, Func.isPhi_mapOperands]
      rw [List.flatMap_cons, expand_of_none hr, List.singleton_append, List.takeWhile_cons,
        List.dropWhile_cons, List.takeWhile_cons, List.dropWhile_cons, hphi]
      cases (f.op i).isPhi with
      | true => exact ⟨congrArg _ iht, ihd⟩
      | false =>
        refine ⟨rfl, ?_⟩
        rw [if_neg (by simp), if_neg (by simp), List.flatMap_cons, expand_of_none hr]
        rfl
    | some x =>
      obtain ⟨a, c⟩ := x
      obtain ⟨k, s, hk, rfl, rfl, rfl⟩ := replacement?_eq_some hr
      obtain ⟨_, _, t, al, hop, _⟩ := h.pads s (List.mem_of_getElem? hk)
      have hold : (f.op s.alloca).isPhi = false := by rw [hop]; rfl
      have hnew : (g.op (f.insts.size + 2 * k)).isPhi = false := by
        rw [Func.op, h.padded.wide_eq k s hk]
        rfl
      have hexp : expand f.insts.size slots s.alloca =
          [f.insts.size + 2 * k, f.insts.size + 2 * k + 1] := by
        simp [expand, hr]
      simp [hold, hexp, hnew]

theorem phis_eq (h : Widens tt f tt' g slots) (hb : b ∈ f.layout) : g.phis b = f.phis b := by
  unfold Func.phis
  rw [h.padded.body_eq b hb]
  exact (h.span_eq hb _ fun _ hi => hi).1

theorem afterPhis_eq (h : Widens tt f tt' g slots) (hb : b ∈ f.layout) :
    g.afterPhis b = (f.afterPhis b).flatMap (expand f.insts.size slots) := by
  unfold Func.afterPhis
  rw [h.padded.body_eq b hb]
  exact (h.span_eq hb _ fun _ hi => hi).2

theorem terminator?_eq (h : Widens tt f tt' g slots) (hb : b ∈ f.layout) :
    g.terminator? b = f.terminator? b := by
  obtain ⟨t, ht⟩ := h.wellFormed.ends b hb
  rw [ht]
  obtain ⟨⟨front, hbody⟩, hterm⟩ := Func.terminator?_eq_some.mp ht
  have hnone := h.replacement?_of_not_isSlot (Op.not_isSlot_of_isTerminator hterm)
  refine Func.terminator?_eq_some.mpr ⟨⟨front.flatMap (expand f.insts.size slots), ?_⟩, ?_⟩
  · rw [h.padded.body_eq b hb, hbody, List.flatMap_append, List.flatMap_singleton,
      expand_of_none hnone]
  · rw [h.padded.op_eq b hb t (hbody ▸ by simp) hnone, Func.isTerminator_mapOperands]
    exact hterm

theorem successors_eq (h : Widens tt f tt' g slots) (hb : b ∈ f.layout) :
    g.successors b = f.successors b := by
  obtain ⟨t, ht⟩ := h.wellFormed.ends b hb
  obtain ⟨hmem, hterm⟩ := Func.mem_body_of_terminator ht
  have hnone := h.replacement?_of_not_isSlot (Op.not_isSlot_of_isTerminator hterm)
  unfold Func.successors
  rw [h.terminator?_eq hb, ht]
  simp only [h.padded.op_eq b hb t hmem hnone, Op.targets_mapOperands]

/-- Both functions have the same flow graph. -/
theorem ofFunc_eq (h : Widens tt f tt' g slots) : FlowGraph.ofFunc g = FlowGraph.ofFunc f := by
  unfold FlowGraph.ofFunc
  rw [h.layout_eq]
  congr 1
  exact List.map_congr_left fun b hb => by rw [h.successors_eq hb]

theorem predecessors_eq (h : Widens tt f tt' g slots) (b : BlockId) :
    g.predecessors b = f.predecessors b := by
  rw [← FlowGraph.predecessors_ofFunc, h.ofFunc_eq, FlowGraph.predecessors_ofFunc]

end Widens

end Padding

end LoopNest
