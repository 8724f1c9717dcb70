import LoopNest.Proofs.Accepted
import LoopNest.Proofs.Func.Available
import LoopNest.Proofs.Fusion.Rerouted
import LoopNest.Proofs.Typing

/-!
# A moved function is accepted

The move changes which blocks dominate which, but only between the inner loop and the rest of the
function.  The checks of a nest rule out that a use depends on that: nothing outside uses what the
inner loop computes, and what the inner loop uses from outside is there before the outer loop
starts.  So every definition still dominates its uses (`Nest.dominates_apply`), and the phi of the
inner header has an entry for the outer header in place of the inner preheader.

An instruction that records a block without standing in it is seen by neither check, so the result
needs that the instructions in use stand in the blocks they record (`Func.UsesListed`).
-/

namespace LoopNest

namespace Fusion

open FlowGraph

variable {tt : TypeTable} {f : Func} {outer inner : NaturalLoop} {p : Plan}

theorem wellTyped_apply (hty : f.WellTyped tt) (hlive : ∀ b ∈ (apply f p).layout, b ∈ f.layout) :
    (apply f p).WellTyped tt := by
  intro b hb i hi
  have hrel := relinked_apply f p
  rw [hrel.body_eq] at hi
  obtain ⟨ty, hres, hlook⟩ := hty b (hlive b hb) i hi
  refine ⟨ty, ?_, hrel.ty_eq i ▸ hlook⟩
  rw [Typing.resultTy_congr hrel.operandTy_eq hrel.ret_eq, hrel.ty_eq, ← hres]
  exact apply_keeps (P := fun o => Typing.resultTy tt f o (some (f.inst i).ty))
    (fun a b o => Typing.resultTy_retarget a b o _)
    (fun a b o => Typing.resultTy_renameIncoming a b o _) f p i

/-- Where a block is entered from after the move. -/
def moved (inner outer : NaturalLoop) (p : Plan) (b q : BlockId) : BlockId :=
  if b = inner.header ∧ q = p.inner.preheader then outer.header else q

namespace Shape

variable (h : Shape f outer inner p)

include h

/-- The outer header does not lead to the inner one. -/
theorem outerHeader_not_pred : outer.header ∉ f.predecessors inner.header := fun hmem =>
  h.preheader_ne (h.inner_counted.eq_preheader _ hmem h.header_out).symm

theorem moved_injective {b q q' : BlockId} (hq : q ∈ f.predecessors b)
    (hq' : q' ∈ f.predecessors b) (heq : moved inner outer p b q = moved inner outer p b q') :
    q = q' := by
  unfold moved at heq
  split at heq <;> split at heq
  · rename_i h₁ h₂
    exact h₁.2.trans h₂.2.symm
  · rename_i h₁ _
    exact absurd (h₁.1 ▸ heq ▸ hq') h.outerHeader_not_pred
  · rename_i _ h₂
    exact absurd (h₂.1 ▸ heq ▸ hq) h.outerHeader_not_pred
  · exact heq

/-- The exits aside, a block is entered from where it was, up to the move. -/
theorem mem_predecessors_apply {b q' : BlockId} (hi : b ≠ p.inner.exit) (ho : b ≠ p.outer.exit) :
    q' ∈ (apply f p).predecessors b ↔ ∃ q ∈ f.predecessors b, moved inner outer p b q = q' := by
  simp only [Func.mem_predecessors, h.mem_layout_apply]
  constructor
  · rintro ⟨hq', hs⟩
    rcases h.edge_apply_cases hq' hs with ⟨rfl, rfl⟩ | ⟨_, heq⟩ | ⟨_, heq⟩ | ⟨hs, hne, _⟩
    · exact ⟨p.inner.preheader, (f.mem_predecessors _ _).mp h.inner_counted.preheader_mem,
        if_pos ⟨rfl, rfl⟩⟩
    · exact absurd heq ho
    · exact absurd heq hi
    · exact ⟨q', ⟨hq', hs⟩, if_neg fun hm => hne hm.2⟩
  · rintro ⟨q, ⟨hq, hs⟩, rfl⟩
    unfold moved
    split
    · rename_i hm
      rw [hm.1]
      exact ⟨h.outerHeader_live, (h.edge_apply_iff.mp h.detours.edge_c').2.2⟩
    · rename_i hm
      rcases h.edge_cases hq hs with ⟨hqp, hbi⟩ | ⟨_, heq⟩ | ⟨_, heq⟩ | hs
      · exact absurd ⟨hbi, hqp⟩ hm
      · exact absurd heq hi
      · exact absurd heq ho
      · exact ⟨hq, hs⟩

/-- The entries of a phi after the move. -/
theorem phi_apply {b : BlockId} (hb : b ∈ f.layout) {i : InstId} (hi : i ∈ f.body b)
    {incoming' : List (Operand × BlockId)} (hop : (apply f p).op i = .phi incoming') :
    b ≠ p.inner.exit ∧ b ≠ p.outer.exit ∧ ∃ incoming, f.op i = .phi incoming ∧
      incoming' = incoming.map fun e => (e.1, moved inner outer p b e.2) := by
  have hphi : (f.op i).isPhi = true := by
    rw [← (relinked_apply f p).isPhi_eq, hop]
    rfl
  have hmem := h.framed.mem_phis hb hi hphi
  refine ⟨?_, ?_, ?_⟩
  · rintro rfl
    exact absurd (h.inner_exit ▸ hmem) List.not_mem_nil
  · rintro rfl
    exact absurd (h.outer_exit ▸ hmem) List.not_mem_nil
  obtain ⟨incoming, hinc⟩ := Op.exists_of_isPhi hphi
  refine ⟨incoming, hinc, ?_⟩
  by_cases hbi : b = inner.header
  · subst hbi
    rw [h.inner_counted.phis_eq, List.mem_singleton] at hmem
    subst hmem
    rw [h.op_induction, hinc] at hop
    cases hop
    simp [moved]
  · rw [h.op_phi hb hmem hbi, hinc] at hop
    cases hop
    simp [moved, hbi]

/-- Whatever the operands are, the blocks stay in order. -/
theorem framed_apply : (apply f p).Framed := by
  have hf := h.framed
  have hrel := relinked_apply f p
  constructor
  case owner_eq =>
    intro b hb i hi
    rw [hrel.body_eq] at hi
    exact (hrel.owner_eq i).trans (hf.owner_eq b ((h.mem_layout_apply b).mp hb) i hi)
  case ends =>
    intro b hb
    rw [hrel.terminator?_eq]
    exact hf.ends b ((h.mem_layout_apply b).mp hb)
  case terminator_eq =>
    intro b hb i hi ht
    rw [hrel.body_eq] at hi
    rw [hrel.terminator?_eq]
    exact hf.terminator_eq b ((h.mem_layout_apply b).mp hb) i hi (hrel.isTerminator_eq i ▸ ht)
  case phi_first =>
    intro b hb i hi
    rw [hrel.afterPhis_eq] at hi
    exact (hrel.isPhi_eq i).trans (hf.phi_first b ((h.mem_layout_apply b).mp hb) i hi)
  case successor_live =>
    intro b hb c hc
    rw [h.mem_layout_apply] at hb ⊢
    rcases h.edge_apply_cases hb hc with ⟨_, rfl⟩ | ⟨_, rfl⟩ | ⟨_, rfl⟩ | ⟨hs, _⟩
    · exact h.innerHeader_live
    · exact h.outerExit_live
    · exact h.innerExit_live
    · exact hf.successor_live b hb c hs
  case entry_predecessors =>
    intro e he
    rw [h.entry_apply] at he
    have hent : FlowGraph.entry? (ofFunc f) = some e := by
      rw [FlowGraph.entry?, blocks_ofFunc]
      exact he
    refine List.eq_nil_iff_forall_not_mem.mpr fun q hq => ?_
    obtain ⟨hq, hs⟩ := (Func.mem_predecessors _ _ _).mp hq
    rw [h.mem_layout_apply] at hq
    rcases h.edge_apply_cases hq hs with ⟨_, rfl⟩ | ⟨_, rfl⟩ | ⟨_, rfl⟩ | ⟨hs, _⟩
    · exact h.entry_not_inner hent h.inner_loop.header_mem
    · exact h.detours.d_ne_entry hent
    · exact h.detours.b_ne_entry hent
    · exact h.ne_entry he hq hs rfl
  case phi_sources =>
    intro b hb i hi incoming' hop
    rw [h.mem_layout_apply] at hb
    rw [hrel.body_eq] at hi
    obtain ⟨hbi, hbo, incoming, hinc, rfl⟩ := h.phi_apply hb hi hop
    obtain ⟨hnodup, hpreds⟩ := hf.phi_sources b hb i hi incoming hinc
    have hmap : (incoming.map fun e => (e.1, moved inner outer p b e.2)).map Prod.snd =
        (incoming.map Prod.snd).map (moved inner outer p b) := by
      simp [Function.comp_def]
    rw [hmap]
    refine ⟨hnodup.map_on fun q hq q' hq' => h.moved_injective ((hpreds q).mp hq)
      ((hpreds q').mp hq'), fun q => ?_⟩
    rw [h.mem_predecessors_apply hbi hbo, List.mem_map]
    exact exists_congr fun q' => and_congr_left fun _ => hpreds q'
end Shape

namespace Nest

variable (h : Nest tt f outer inner p)

include h

theorem dominates_apply {d q : BlockId} (hd : (ofFunc f).Dominates d q)
    (hdq : d ∈ inner.blocks → q ∈ inner.blocks)
    (hqd : q ∈ inner.blocks → d ∉ inner.blocks → (ofFunc f).Dominates d outer.header) :
    (ofFunc (apply f p)).Dominates d q := by
  by_cases hdi : d ∈ inner.blocks
  · exact h.detours_apply.dominates_inside h.detours hdi (hdq hdi) hd
  · by_cases hqi : q ∈ inner.blocks
    · have hout := h.detours_apply.dominates_outside hdi h.header_out (hqd hqi hdi)
      exact h.detours_apply.dominates_region hout hqi
    · exact h.detours_apply.dominates_outside hdi hqi hd

variable (hl : f.UsesListed)

/-- The inner loop uses its own values and values from before the outer loop. -/
theorem dominates_outerHeader {b d : BlockId} {i j : InstId} (hb : b ∈ inner.blocks)
    (hi : i ∈ f.body b) (hj : Operand.inst j ∈ (f.op i).operands) (hd : f.owner j = some d)
    (hdi : d ∉ inner.blocks) : (ofFunc f).Dominates d outer.header := by
  rcases h.operands b hb i hi _ hj with hdef | ⟨d', hd', _, hdom⟩
  · simp only [definedIn, Func.definingBlock?, hd, NaturalLoop.contains,
      List.contains_iff_mem] at hdef
    exact absurd hdef hdi
  · rw [hd] at hd'
    cases hd'
    exact hdom

include hl

/-- The rest of the function uses no value of the inner loop. -/
theorem not_inner_of_use {b d : BlockId} {i j : InstId} (hb : b ∈ f.layout)
    (hbi : b ∉ inner.blocks) (hi : i ∈ f.body b) (hj : Operand.inst j ∈ (f.op i).operands)
    (hd : f.owner j = some d) : d ∉ inner.blocks := fun hdi =>
  h.uses d hdi j (Func.usesListed_iff.mp hl b hb i hi j hj d hd) b hb hbi i hi hj

theorem phi_dominated_apply {b d q : BlockId} {i j : InstId}
    {incoming : List (Operand × BlockId)} (hb : b ∈ f.layout) (hi : i ∈ f.body b)
    (hop : f.op i = .phi incoming) (he : (Operand.inst j, q) ∈ incoming)
    (hd : f.owner j = some d) (hbx : b ≠ p.inner.exit) :
    (ofFunc (apply f p)).Dominates d (moved inner outer p b q) := by
  have hdom := h.wellFormed.phi_dominated b hb i hi incoming hop j q he d hd
  have hj : Operand.inst j ∈ (f.op i).operands := by
    rw [hop]
    exact List.mem_map_of_mem he
  have hpred : q ∈ f.predecessors b :=
    ((h.wellFormed.phi_sources b hb i hi incoming hop).2 q).mp (List.mem_map_of_mem he)
  obtain ⟨hq, hs⟩ := (f.mem_predecessors _ _).mp hpred
  unfold moved
  split
  · rename_i hm
    obtain ⟨rfl, rfl⟩ := hm
    have hdi : d ∉ inner.blocks := fun hdi => h.detours.not_dominates_a hdi hdom
    exact h.detours_apply.dominates_outside hdi h.header_out
      (h.dominates_outerHeader h.inner_loop.header_mem hi hj hd hdi)
  · rename_i hm
    by_cases hr : (ofFunc f).Reachable q
    · refine h.dominates_apply hdom (fun hdi => ?_) fun hqi => ?_
      · have hbi : b ∈ inner.blocks := by
          by_contra hbi
          exact h.not_inner_of_use hl hb hbi hi hj hd hdi
        by_contra hqi
        obtain ⟨hqp, hbh⟩ := h.eq_preheader hr hqi hbi hs
        exact hm ⟨hbh, hqp⟩
      · rcases CountedLoop.mem_of_successor h.inner_counted hqi hs with hbi | ⟨_, heq⟩
        · exact h.dominates_outerHeader hbi hi hj hd
        · exact absurd heq hbx
    · -- A block that is not reached is dominated by all.
      by_contra hn
      obtain ⟨e, he, hvia⟩ := not_dominates_iff.mp hn
      exact hr (h.reachable_of_apply ⟨e, he, hvia.mono fun _ _ => trivial⟩)

theorem wellFormed_apply : (apply f p).WellFormed := by
  have hf := h.wellFormed
  have hrel := relinked_apply f p
  constructor
  case owner_eq => exact h.framed_apply.owner_eq
  case ends => exact h.framed_apply.ends
  case terminator_eq => exact h.framed_apply.terminator_eq
  case phi_first => exact h.framed_apply.phi_first
  case successor_live => exact h.framed_apply.successor_live
  case entry_predecessors => exact h.framed_apply.entry_predecessors
  case phi_sources => exact h.framed_apply.phi_sources
  case operand_exists =>
    intro b hb i hi v hv
    rw [hrel.body_eq] at hi
    rw [operands_apply] at hv
    have := hf.operand_exists b ((h.mem_layout_apply b).mp hb) i hi v hv
    cases v with
    | inst j =>
      simp only [Verify.operandExists, Func.isLiveInst, hrel.size_eq, hrel.owner_eq] at this ⊢
      simpa [Func.isLiveBlock, h.mem_layout_apply] using this
    | param k => simpa only [Verify.operandExists, hrel.params_eq] using this
    | const c => simpa only [Verify.operandExists, hrel.constants_eq] using this
  case phi_dominated =>
    intro b hb i hi incoming' hop j q' he d hd
    rw [h.mem_layout_apply] at hb
    rw [hrel.body_eq] at hi
    rw [hrel.owner_eq] at hd
    obtain ⟨hbi, hbo, incoming, hinc, rfl⟩ := h.phi_apply hb hi hop
    obtain ⟨⟨v, q⟩, hmem, heq⟩ := List.mem_map.mp he
    cases heq
    exact h.phi_dominated_apply hl hb hi hinc hmem hd hbi
  case use_dominated =>
    intro b hb hr i hi hphi j hj
    rw [h.mem_layout_apply] at hb
    rw [hrel.body_eq] at hi
    rw [hrel.isPhi_eq] at hphi
    rw [operands_apply] at hj
    obtain ⟨d, hd, hdom, hpos⟩ :=
      hf.use_dominated b hb (h.reachable_of_apply hr) i hi hphi j hj
    refine ⟨d, (hrel.owner_eq j).trans hd, fun hne => ?_, fun heq => ?_⟩
    · refine h.dominates_apply (hdom hne) (fun hdi => ?_) fun hbi =>
        h.dominates_outerHeader hbi hi hj hd
      by_contra hbi
      exact h.not_inner_of_use hl hb hbi hi hj hd hdi
    · rw [hrel.body_eq]
      exact hpos heq

theorem usesListed_apply : (apply f p).UsesListed := by
  have hrel := relinked_apply f p
  refine Func.usesListed_iff.mpr fun b hb i hi j hj d hd => ?_
  rw [hrel.body_eq] at hi ⊢
  rw [operands_apply] at hj
  exact Func.usesListed_iff.mp hl b ((h.mem_layout_apply b).mp hb) i hi j hj d
    ((hrel.owner_eq j).symm.trans hd)

theorem verify_apply (hty : f.WellTyped tt) : (apply f p).verify tt = .ok () := by
  have hlive : outer.header ∈ (apply f p).layout :=
    (h.mem_layout_apply _).mpr h.outerHeader_live
  exact (Func.verify_eq_ok_iff (Func.isDeclaration_of_live hlive)).mpr
    ⟨h.wellFormed_apply hl, wellTyped_apply hty fun b => (h.mem_layout_apply b).mp⟩

end Nest

end Fusion

end LoopNest
