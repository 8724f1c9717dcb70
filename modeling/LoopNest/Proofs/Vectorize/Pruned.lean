import LoopNest.Proofs.Func.Grounded
import LoopNest.Proofs.Func.Reached
import LoopNest.Proofs.Vectorize.Innermost
import LoopNest.Proofs.Vectorize.Shapes
import LoopNest.Proofs.Vectorize.Tidied
import LoopNest.Proofs.Vectorize.Untouched

/-!
# Loops of a function without unreachable blocks

A block that is never reached may branch into a loop that is vectorized, and then the verifier refuses
the outcome.  `Pruned` says what is known of the function without such blocks.  It has the same
innermost loops (`Pruned.mem_innermostLoops`), and every decision of the pass about them is the same,
with the same plan (`Pruned.plan_eq_of_plan`).
-/

namespace LoopNest

open Func FlowGraph
open LoopForest hiding ofFunc

/-- A loop uses what is present. -/
theorem Func.Sound.within_present {tt : TypeTable} {f : Func} {l : NaturalLoop} (hs : f.Sound tt)
    (hl : IsLoop (ofFunc f) l) : l.Within f.Present f := by
  intro b hb i hi
  have hlive := CountedLoop.live_of_mem hl hb
  exact ⟨hs.wellFormed.present_inst hlive hi, fun v hv =>
    hs.wellFormed.present_operand hs.usesListed hlive hi hv⟩

namespace Vectorize

/-- What is left of a rooted function without some blocks that nothing leads to. -/
structure Pruned (D : List BlockId) (base : Func) (e : BlockId) (f g : Func) : Prop
    extends Without D f g where
  rooted : Rooted base e (fun _ => False) f
  entry_out : e ∉ D
  framed : g.Framed

namespace Pruned

variable {D : List BlockId} {base f g : Func} {e b d : BlockId} {i : InstId} {l : NaturalLoop}
  {p : VectorPlan} {config : VectorConfig} {tt tt' : TypeTable} (h : Pruned D base e f g)

include h

theorem entry?_eq : g.entry? = f.entry? := h.toWithout.entry?_eq h.rooted.entry_eq h.entry_out

theorem trims : Trims (ofFunc f) (ofFunc g) := h.toWithout.trims h.framed h.entry?_eq

theorem entry_predecessors (e' : BlockId) (he : f.entry? = some e') : f.predecessors e' = [] := by
  cases h.rooted.entry_eq.symm.trans he
  exact h.rooted.predecessors_entry

theorem live_of_reachable (hb : (ofFunc f).Reachable b) : b ∈ g.layout := by
  have := h.trims.live b hb
  rwa [blocks_ofFunc] at this

/-- The same loops are innermost. -/
theorem mem_innermostLoops (hl : l ∈ innermostLoops (ofFunc f)) : l ∈ innermostLoops (ofFunc g) := by
  obtain ⟨i, hi, hinner, hli⟩ := Vectorize.mem_innermostLoops.mp hl
  have hinner' := h.trims.innermost_iff.mpr hinner
  obtain ⟨j, hj, heq, hblocks⟩ := exists_of_isLoop (coherent_ofFunc g) hinner'.isLoop
  refine Vectorize.mem_innermostLoops.mpr ⟨j, hj, hinner', ?_⟩
  have hm := isLoop_loop (coherent_ofFunc g) hj
  obtain ⟨_, hlb⟩ := blocks_loop hi
  obtain ⟨_, hll⟩ := latches_loop hi
  obtain ⟨_, hmb⟩ := blocks_loop hj
  obtain ⟨_, hml⟩ := latches_loop hj
  rw [hli, blocks_ofFunc] at hlb
  rw [hli] at hll
  rw [blocks_ofFunc] at hmb
  generalize (forest (ofFunc g)).loop j = m at heq hblocks hm hmb hml
  -- Both lists come in the order of the layout.
  have hsame {bs bs' : List BlockId} {q q' : BlockId → Bool} (hq : bs = f.layout.filter q)
      (hq' : bs' = g.layout.filter q') (hmem : ∀ b, b ∈ bs' ↔ b ∈ bs) : bs' = bs := by
    rw [h.layout_eq, List.filter_filter] at hq'
    rw [eq_filter_of_mem_iff hq' fun b _ => hmem b, ← eq_filter_of_mem_iff hq fun b _ => Iff.rfl]
  have hlatches : m.latches = l.latches := hsame hll hml fun b => by
    rw [hm.mem_latches, heq]
    exact (h.trims.backEdge_iff).trans (hinner.isLoop.mem_latches b).symm
  have hblocks : m.blocks = l.blocks := hsame hlb hmb hblocks
  cases m
  cases l
  simp_all

theorem grown : g.Grown f where
  ret_eq := h.outline.ret_eq.symm
  operandTy_eq v t ht := (h.operandTy_eq v).symm.trans ht
  params_eq := h.params_eq.symm
  constant_eq c x hx := h.constants_eq ▸ hx
  size_le := Nat.le_of_eq h.size_eq
  blocks_size_le := Nat.le_of_eq (congrArg Array.size h.blocks_eq)
  op_stays i _ := by
    rcases h.alike i with heq | ⟨hf, hg⟩
    · exact .inl heq.symm
    · simp [hf, hg]
  owner_of i _ b hb := (h.owner_eq i).trans hb

section

variable (hl : l ∈ innermostLoops (ofFunc f))
  (hplan : plan config f (.ofFunc f) (.ofGraph (.ofFunc f)) l tt = (.ok p, tt'))

include hl hplan

theorem tight : p.loop.Tight f l :=
  tight_of_plan_of_ends h.entry_predecessors
    (fun b hb => (h.rooted.ends b hb not_false).imp fun _ ht => ht.1) hl hplan

omit hplan in
theorem live_of_mem (hb : b ∈ l.blocks) : b ∈ g.layout :=
  h.live_of_reachable ((isLoop_of_innermost hl).reachable_mem hb)

/-- The preheader is the only other block that leads to the loop, and it is reached. -/
theorem not_mem_of_predecessor (hb : b ∈ f.predecessors l.header) : b ∉ D := by
  have htight := h.tight hl hplan
  refine (h.mem_layout.mp ?_).2
  by_cases hin : b ∈ l.blocks
  · exact h.live_of_mem hl hin
  · rw [htight.counted.eq_preheader b hb hin]
    exact h.live_of_reachable
      (CountedLoop.preheader_reachable h.entry_predecessors htight.isLoop htight.counted)

theorem not_isPhi_of_latch (hi : i ∈ f.body p.loop.latch) : (f.op i).isPhi = false := by
  have htight := h.tight hl hplan
  have hlive := CountedLoop.live_of_mem htight.isLoop
    (CountedLoop.latch_mem htight.isLoop htight.counted)
  obtain ⟨t, hbody⟩ := htight.latch_body
  obtain ⟨t', ht', -⟩ := h.rooted.ends _ hlive not_false
  obtain ⟨⟨front, hfront⟩, hterm⟩ := terminator?_eq_some.mp ht'
  obtain ⟨a, b, hop, -⟩ := htight.op_next
  have heq : t' = t := by
    have := congrArg List.getLast? (hfront.symm.trans hbody)
    simpa using this
  rw [hbody, List.mem_cons, List.mem_singleton] at hi
  rcases hi with rfl | rfl
  · rw [hop]
    rfl
  · exact Op.not_isPhi_of_isTerminator (heq ▸ hterm)

theorem op_eq_of_mem (hb : b ∈ l.blocks) (hi : i ∈ f.body b) : f.op i = g.op i := by
  have htight := h.tight hl hplan
  have hlive := h.live_of_mem hl hb
  by_cases hphi : (f.op i).isPhi = true
  · have hheader : b = l.header := by
      rcases htight.mem_blocks b hb with rfl | rfl | rfl
      · rfl
      · cases hphi.symm.trans (htight.plain i hi).1
      · cases hphi.symm.trans (h.not_isPhi_of_latch hl hplan hi)
    subst hheader
    rw [h.op_eq _ hlive i hi]
    refine (Without.dropAll_of_sources fun incoming hop e he hD => ?_).symm
    have hs := h.sources _ hlive i hi incoming hop e he hD
    exact h.not_mem_of_predecessor hl hplan ((f.mem_predecessors _ _).mpr ⟨h.live _ hD, hs⟩) hD
  · exact ((h.alike i).eq_of_not_isPhi (by simpa using hphi)).symm

theorem untouched (known : Operand → Prop) : Untouched known g f l where
  toGrown := h.grown
  body_eq b _ := (h.body_eq b).symm
  op_eq b hb i hi := h.op_eq_of_mem hl hplan hb (h.body_eq b ▸ hi)
  owner_iff b _ i := by rw [h.owner_eq]
  predecessors_eq := by
    rw [h.predecessors_eq, List.filter_eq_self.mpr]
    intro b hb
    simpa using h.not_mem_of_predecessor hl hplan hb
  entered b _ := (h.successors_eq b).symm
  dedicated e' _ hd b hb := by
    rw [h.predecessors_eq] at hb
    exact hd b (List.mem_filter.mp hb).1
  exit_phis e' _ := (h.phis_eq e').symm
  used b hb i hi hu := by
    simp only [usedOutside, users, liveInsts, List.any_eq_true, List.mem_filter, List.mem_flatMap,
      List.contains_iff_mem] at hu ⊢
    obtain ⟨u, ⟨⟨c, hc, hu⟩, hmem⟩, hout⟩ := hu
    have hu' : u ∈ f.body c := h.body_eq c ▸ hu
    refine ⟨u, ⟨⟨c, (h.mem_layout.mp hc).1, hu'⟩, ?_⟩, ?_⟩
    · rw [h.op_eq c hc u hu'] at hmem
      exact mem_operands_of_dropAll hmem
    · rwa [← h.owner_eq]
  unmarked hm := by rwa [h.block_eq]
  invariant_eq v _ := by
    rw [Bool.eq_iff_iff, NaturalLoop.isInvariant_iff, NaturalLoop.isInvariant_iff]
    cases v with
    | inst j =>
      refine exists_congr fun d => ?_
      rw [h.owner_eq, h.trims.dominates_iff]
    | param k => exact Iff.rfl
    | const c => exact Iff.rfl

/-- The same plan is made. -/
theorem plan_eq_of_plan (hs : g.Sound tt) :
    plan config g (.ofFunc g) (.ofGraph (.ofFunc g)) l tt = (.ok p, tt') := by
  have h' := h.untouched hl hplan g.Present
  have hf := hs.wellFormed.closed_present hs.usesListed
  have hl' := isLoop_of_innermost (h.mem_innermostLoops hl)
  have hw := hs.within_present hl'
  have htys : ∀ v, g.Present v → g.tyOf v < tt.size := fun v hv => hs.tys_lt _ hv.1.tyOf_mem
  unfold plan at hplan ⊢
  rw [h.block_eq]
  split at hplan
  · exact (reject_eq_ok.mp hplan).elim
  rw [if_neg ‹_›]
  cases hrec : CountedLoop.recognize f (.ofFunc f) (.ofGraph (.ofFunc f)) l with
  | error e => simp only [hrec, reject_eq_ok] at hplan
  | ok loop =>
    have hrec' := h'.recognize_eq hf hl' hw hrec
    have hc := CountedLoop.isCounted_of_recognize hrec'
    rw [hrec] at hplan
    rw [hrec']
    dsimp only at hplan ⊢
    obtain ⟨_, _, hstep, hplan⟩ := bind_eq_ok.mp hplan
    obtain ⟨hcheck, rfl⟩ := ofExcept_eq_ok.mp hstep
    obtain ⟨_, _, hstep, hplan⟩ := bind_eq_ok.mp hplan
    obtain ⟨rfl, rfl⟩ := types_eq_ok.mp hstep
    obtain ⟨⟨stop, epilogue⟩, _, hstep, hplan⟩ := bind_eq_ok.mp hplan
    obtain ⟨hend, rfl⟩ := ofExcept_eq_ok.mp hstep
    obtain ⟨_, _, hstep, hplan⟩ := bind_eq_ok.mp hplan
    obtain ⟨hmemory, rfl⟩ := ofExcept_eq_ok.mp hstep
    rw [h'.vectorEnd_eq hf hl' hw hc htys (.refl _) (.refl _)] at hend
    refine bind_eq_ok.mpr ⟨_, _, ofExcept_eq_ok.mpr ⟨h'.checkStructure_eq_ok hl' hc hcheck, rfl⟩, ?_⟩
    refine bind_eq_ok.mpr ⟨_, _, rfl, bind_eq_ok.mpr ⟨_, _, ofExcept_eq_ok.mpr ⟨hend, rfl⟩, ?_⟩⟩
    refine bind_eq_ok.mpr ⟨_, _, ofExcept_eq_ok.mpr ⟨h'.checkMemory_eq_ok hf hw hc hmemory, rfl⟩, ?_⟩
    rw [h.body_eq, h.tyOf_eq, h.block_eq]
    have huse (i : InstId) (hi : i ∈ (f.body loop.bodyEntry).dropLast) : SameUse tt
        ⟨g, .ofGraph (.ofFunc g), l, loop, config⟩ ⟨f, .ofGraph (.ofFunc f), l, loop, config⟩ i :=
      h'.sameUse hf hl' hw hc htys hc.bodyEntry_mem
        (h.body_eq loop.bodyEntry ▸ List.mem_of_mem_dropLast hi)
    exact (repeats_lowerBody (by rfl) huse).bind (fun _ => .refl _) _ _ _ hplan

end

end Pruned

end Vectorize

end LoopNest
