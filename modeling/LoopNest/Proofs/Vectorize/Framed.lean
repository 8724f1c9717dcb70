import LoopNest.Proofs.Vectorize.Flow

/-!
# A function with a vector loop is in order

`Member` lists what a function with a vector loop is made of: the instructions of kept blocks, of
which the terminator of the preheader and the induction phi are changed (`Splicing.op_cases`), and
those of the new blocks.  Each condition of a function in order is one case split over it.  Nothing
here depends on types, or on what the instructions use.
-/

namespace LoopNest

open Func FlowGraph

namespace Vectorize

variable {l : NaturalLoop} {p : VectorPlan} {n : VectorLoop} {f g : Func} {b x y : BlockId}
  {i : InstId}

/-- The instructions of a function with a vector loop. -/
inductive Member (l : NaturalLoop) (p : VectorPlan) (n : VectorLoop) (f g : Func) :
    BlockId → InstId → Prop where
  | kept {b : BlockId} {i : InstId} : Kept l n f b → i ∈ f.body b → Member l p n f g b i
  | iv : Member l p n f g n.blocks.header n.iv
  | cond : Member l p n f g n.blocks.header n.cond
  | branch : Member l p n f g n.blocks.header n.branch
  | code {i : InstId} : i ∈ n.code → Member l p n f g n.blocks.body i
  | jump : Member l p n f g n.blocks.body n.jump
  | next : Member l p n f g n.blocks.latch n.next
  | back : Member l p n f g n.blocks.latch n.back
  | leave {m : BlockId} {i : InstId} : n.blocks.middle = some m → g.body m = [i] →
      Holds g i (.br l.header) p.voidTy m → Member l p n f g m i

/-- The old header takes the end of the vector loop from the middle block. -/
theorem mem_resumed {m : BlockId} {incoming : List (Operand × BlockId)} {e : Operand × BlockId}
    (he : e ∈ incoming.map fun e => if e.2 = p.loop.preheader then (n.stop, m) else e) :
    e = (n.stop, m) ∨ e ∈ incoming ∧ e.2 ≠ p.loop.preheader := by
  obtain ⟨e', he', rfl⟩ := List.mem_map.mp he
  split
  · exact .inl rfl
  · rename_i hne
    exact .inr ⟨he', hne⟩

namespace Splicing

variable (h : Splicing l p n f g)

include h

theorem member (hb : b ∈ g.layout) (hi : i ∈ g.body b) : Member l p n f g b i := by
  by_cases hnew : b ∈ n.blocks.all
  · rcases VectorLoop.mem_all.mp hnew with rfl | rfl | rfl | hm
    · simp only [h.newLoop.header_body, List.mem_cons, List.not_mem_nil, or_false] at hi
      rcases hi with rfl | rfl | rfl
      · exact .iv
      · exact .cond
      · exact .branch
    · simp only [h.newLoop.body_body, List.mem_append, List.mem_singleton] at hi
      rcases hi with hi | rfl
      · exact .code hi
      · exact .jump
    · simp only [h.newLoop.latch_body, List.mem_cons, List.not_mem_nil, or_false] at hi
      rcases hi with rfl | rfl
      · exact .next
      · exact .back
    · obtain ⟨_, leave, hbody, hleave⟩ := h.middle b hm
      rw [hbody, List.mem_singleton] at hi
      subst hi
      exact .leave hm hbody hleave
  · have hk := h.kept_of_mem_layout hb hnew
    exact .kept hk (h.body_eq b hk ▸ hi)

/-! ## Phis -/

/-- A phi of a function with a vector loop stands outside of both loops, or is one of the two
induction phis. -/
theorem phi_cases (hm : Member l p n f g b i) {incoming : List (Operand × BlockId)}
    (hop : g.op i = .phi incoming) :
    (Kept l n f b ∧ i ∈ f.body b ∧ b ≠ l.header ∧ b ≠ p.loop.exit ∧ f.op i = .phi incoming) ∨
    (∃ m incoming', n.blocks.middle = some m ∧ b = l.header ∧ i ∈ f.body b ∧
      f.op i = .phi incoming' ∧
      incoming = incoming'.map fun e => if e.2 = p.loop.preheader then (n.stop, m) else e) ∨
    b = n.blocks.header ∧
      incoming = [(p.loop.start, p.loop.preheader), (.inst n.next, n.blocks.latch)] := by
  have hnone : ∀ {o : Op}, o.isPhi = false → g.op i = o → False := fun ho heq => by
    rw [← heq, hop] at ho
    cases ho
  cases hm with
  | kept hb hi =>
    have hphi : (f.op i).isPhi = true := by
      rw [← h.isPhi_eq hb hi, hop]
      rfl
    have hmem := h.framed.mem_phis hb.1 hi hphi
    rcases h.op_cases hb hi with ⟨hne, heq⟩ | ⟨_, ht, _⟩ | ⟨m, incoming', hm, rfl, rfl, hop', heq⟩
    · refine .inl ⟨hb, hi, fun hh => hne ?_, fun he => ?_, heq ▸ hop⟩
      · rwa [hh, h.counted.phis_eq, List.mem_singleton] at hmem
      · rw [he, h.shape.exit_phis] at hmem
        exact absurd hmem List.not_mem_nil
    · have := Op.not_isPhi_of_isTerminator (mem_body_of_terminator ht).2
      rw [hphi] at this
      cases this
    · rw [hop] at heq
      cases heq
      exact .inr (.inl ⟨m, incoming', hm, rfl, hi, hop', rfl⟩)
  | iv =>
    rw [h.newLoop.iv.op_eq] at hop
    cases hop
    exact .inr (.inr ⟨rfl, rfl⟩)
  | cond => exact (hnone rfl h.newLoop.cond.op_eq).elim
  | branch => exact (hnone rfl h.newLoop.branch.op_eq).elim
  | code hi =>
    exact (hnone (h.newLoop.plain i hi).1 rfl).elim
  | jump => exact (hnone rfl h.newLoop.jump.op_eq).elim
  | next => exact (hnone rfl h.newLoop.next.op_eq).elim
  | back => exact (hnone rfl h.newLoop.back.op_eq).elim
  | leave _ _ hleave => exact (hnone rfl hleave.op_eq).elim

theorem phi_sources (hm : Member l p n f g b i) {incoming : List (Operand × BlockId)}
    (hop : g.op i = .phi incoming) : (incoming.map Prod.snd).Nodup ∧
      ∀ q, q ∈ incoming.map Prod.snd ↔ q ∈ g.predecessors b := by
  rcases h.phi_cases hm hop with ⟨hb, hi, hh, he, hop'⟩ | ⟨m, incoming', hm', rfl, hi, hop', rfl⟩ |
    ⟨rfl, rfl⟩
  · obtain ⟨hnodup, hpreds⟩ := h.framed.phi_sources b hb.1 i hi incoming hop'
    exact ⟨hnodup, fun q => (hpreds q).trans (h.mem_predecessors_kept hb hh he).symm⟩
  · obtain ⟨hnodup, hpreds⟩ :=
      h.framed.phi_sources _ h.shape.header_live i hi incoming' hop'
    have hmap : (incoming'.map fun e =>
        if e.2 = p.loop.preheader then (n.stop, m) else e).map Prod.snd =
        (incoming'.map Prod.snd).map fun q => if q = p.loop.preheader then m else q := by
      rw [List.map_map, List.map_map]
      refine List.map_congr_left fun e _ => ?_
      simp only [Function.comp_apply]
      split <;> rfl
    rw [hmap]
    refine ⟨hnodup.map_on fun q hq q' hq' heq => ?_, fun q => ?_⟩
    · -- The middle block was no source.
      have hold : ∀ q ∈ incoming'.map Prod.snd, q ≠ m := fun q hq heq =>
        h.not_mem_of_live ((f.mem_predecessors _ _).mp ((hpreds q).mp hq)).1
          (heq ▸ VectorLoop.middle_mem hm')
      split at heq <;> split at heq
      · rename_i h₁ h₂
        exact h₁.trans h₂.symm
      · exact absurd heq.symm (hold q' hq')
      · exact absurd heq (hold q hq)
      · exact heq
    · rw [h.mem_predecessors_resumed hm', List.mem_map]
      exact exists_congr fun q' => and_congr_left fun _ => hpreds q'
  · refine ⟨?_, fun q => ?_⟩
    · simp only [List.map_cons, List.map_nil, List.nodup_cons, List.mem_singleton, List.not_mem_nil,
        not_false_eq_true, List.nodup_nil, and_true]
      exact fun heq => h.not_mem_of_kept h.kept_preheader (heq ▸ n.latch_mem)
    · rw [h.mem_predecessors_header]
      simp

/-! ## The whole function -/

theorem terminator?_of_live (hb : b ∈ g.layout) : ∃ t, g.terminator? b = some t := by
  by_cases hnew : b ∈ n.blocks.all
  · rcases VectorLoop.mem_all.mp hnew with rfl | rfl | rfl | hm
    · exact ⟨_, h.terminator?_header⟩
    · exact ⟨_, h.terminator?_body⟩
    · exact ⟨_, h.terminator?_latch⟩
    · exact (h.terminator?_middle hm).imp fun _ ht => ht.1
  · have hk := h.kept_of_mem_layout hb hnew
    rw [h.terminator?_eq hk]
    exact h.framed.ends b hk.1

theorem owner_member (hm : Member l p n f g b i) : g.owner i = some b := by
  cases hm with
  | kept hb hi => exact h.owner_eq b hb i hi
  | iv => exact h.newLoop.iv.owner_eq
  | cond => exact h.newLoop.cond.owner_eq
  | branch => exact h.newLoop.branch.owner_eq
  | code hi => exact h.newLoop.owner_eq i hi
  | jump => exact h.newLoop.jump.owner_eq
  | next => exact h.newLoop.next.owner_eq
  | back => exact h.newLoop.back.owner_eq
  | leave _ _ hleave => exact hleave.owner_eq

theorem terminator_member (hm : Member l p n f g b i) (ht : (g.op i).isTerminator = true) :
    g.terminator? b = some i := by
  have hnone : ∀ {o : Op}, o.isTerminator = false → g.op i = o → False := fun ho heq => by
    rw [← heq, ht] at ho
    cases ho
  cases hm with
  | kept hb hi =>
    rw [h.terminator?_eq hb]
    exact h.framed.terminator_eq b hb.1 i hi (h.isTerminator_eq hb hi ▸ ht)
  | iv => exact (hnone rfl h.newLoop.iv.op_eq).elim
  | cond => exact (hnone rfl h.newLoop.cond.op_eq).elim
  | branch => exact h.terminator?_header
  | code hi =>
    exact (hnone (h.newLoop.plain i hi).2 rfl).elim
  | jump => exact h.terminator?_body
  | next => exact (hnone rfl h.newLoop.next.op_eq).elim
  | back => exact h.terminator?_latch
  | leave hm hbody _ =>
    obtain ⟨t, ht', hbody', _⟩ := h.terminator?_middle hm
    obtain rfl := List.singleton_inj.mp (hbody.symm.trans hbody')
    exact ht'

theorem afterPhis_kept (hb : Kept l n f b) : g.afterPhis b = f.afterPhis b := by
  have hbody := h.body_eq b hb
  have hphis := phis_congr hbody fun i hi => h.isPhi_eq hb hi
  rw [← g.phis_append_afterPhis, ← f.phis_append_afterPhis, hphis] at hbody
  exact List.append_cancel_left hbody

theorem afterPhis_header : g.afterPhis n.blocks.header = [n.cond, n.branch] := by
  have hiv : (g.op n.iv).isPhi = true := by
    rw [h.newLoop.iv.op_eq]
    rfl
  have hcond : (g.op n.cond).isPhi = false := by
    rw [h.newLoop.cond.op_eq]
    rfl
  simp [afterPhis, h.newLoop.header_body, hiv, hcond]

/-- Phis come first. -/
theorem phi_first (hb : b ∈ g.layout) (hi : i ∈ g.afterPhis b) : (g.op i).isPhi = false := by
  by_contra hphi
  rw [Bool.not_eq_false] at hphi
  obtain ⟨incoming, hop⟩ := Op.exists_of_isPhi hphi
  have hkept : Kept l n f b → i ∉ f.body b := fun hk hif => by
    rw [h.isPhi_eq hk hif, h.framed.phi_first b hk.1 i (h.afterPhis_kept hk ▸ hi)] at hphi
    cases hphi
  rcases h.phi_cases (h.member hb (mem_body_of_afterPhis hi)) hop with
    ⟨hk, hif, _⟩ | ⟨m, _, hm, rfl, hif, _⟩ | ⟨rfl, _⟩
  · exact hkept hk hif
  · exact hkept (h.kept_header hm) hif
  · rw [h.afterPhis_header] at hi
    simp only [List.mem_cons, List.not_mem_nil, or_false] at hi
    rcases hi with rfl | rfl
    · cases h.newLoop.cond.op_eq.symm.trans hop
    · cases h.newLoop.branch.op_eq.symm.trans hop

theorem framed_spliced : g.Framed := by
  constructor
  case owner_eq => exact fun b hb i hi => h.owner_member (h.member hb hi)
  case ends => exact fun b hb => h.terminator?_of_live hb
  case terminator_eq => exact fun b hb i hi => h.terminator_member (h.member hb hi)
  case phi_first => exact fun b hb i hi => h.phi_first hb hi
  case successor_live =>
    intro b hb y hs
    by_cases hnew : b ∈ n.blocks.all
    · exact h.successor_live_new hnew hs
    have hk := h.kept_of_mem_layout hb hnew
    by_cases hbp : b = p.loop.preheader
    · exact h.live_of_new (h.mem_successors_preheader.mp (hbp ▸ hs) ▸ n.header_mem)
    · have hs := (h.mem_successors_kept hk hbp).mp hs
      exact h.live_of_kept (kept_iff.mpr ⟨h.framed.successor_live b hk.1 y hs, fun hy =>
        hbp (h.eq_preheader_of_erased hs hk.1 (kept_iff.mp hk).2 hy)⟩)
  case entry_predecessors =>
    intro e he
    rw [h.entry_eq] at he
    refine List.eq_nil_iff_forall_not_mem.mpr fun q hq => ?_
    obtain ⟨hq, hs⟩ := (g.mem_predecessors _ _).mp hq
    have hlive : e ∈ f.layout := List.mem_of_head? he
    have hnew := h.not_mem_of_live hlive
    by_cases hqn : q ∈ n.blocks.all
    · have heq := h.eq_follower hqn hnew hs
      unfold follower at heq
      split at heq
      · exact h.entry_ne h.shape.edge_preheader.2 (heq ▸ he)
      · exact h.entry_ne h.edge_exit (heq ▸ he)
    · have hk := h.kept_of_mem_layout hq hqn
      have hke : Kept l n f e := ⟨hlive, fun _ => h.entry_not_mem he⟩
      have hedge := (edge_ofFunc g q e).mpr ⟨hq, h.live_of_kept hke, hs⟩
      exact h.entry_ne ((h.edge_kept hk hke).mp hedge).1 he
  case phi_sources => exact fun b hb i hi incoming hop => h.phi_sources (h.member hb hi) hop

theorem singleEntry_spliced : g.SingleEntry := by
  intro k hk b hb hne a ha
  obtain ⟨hlive, hs⟩ := (g.mem_predecessors _ _).mp ha
  have hblive : b ∈ g.layout := FlowGraph.blocks_ofFunc g ▸ (hk.reachable_mem hb).live
  have hedge := (edge_ofFunc g a b).mpr ⟨hlive, hblive, hs⟩
  by_cases hr : (ofFunc g).Reachable a
  · exact hk.mem_of_edge hb hne hedge hr
  -- What is never reached was never reached before.
  exfalso
  have hnew : a ∉ n.blocks.all := fun hmem => hr (h.reachable_new hmem)
  have hka := h.kept_of_mem_layout hlive hnew
  have hap : a ≠ p.loop.preheader := fun heq =>
    hr (heq ▸ h.reachable_kept h.kept_preheader h.preheader_reachable)
  have hbnew : b ∉ n.blocks.all := fun hmem => hap (h.eq_preheader_of_edge hedge hnew hmem).1
  have hkb := h.kept_of_mem_layout hblive hbnew
  have hold := ((h.edge_kept hka hkb).mp hedge).1
  have hheader : k.header ∉ n.blocks.all := fun hmem => hbnew ((h.eq_header hk hmem).2 b hb)
  obtain ⟨k', hk', heq, hb'⟩ := h.exists_loop hk hheader hb hbnew
  have ha' := h.singleEntry k' hk' b hb' (heq ▸ hne) a
    ((f.mem_predecessors _ _).mpr ((edge_ofFunc f a b).mp hold |>.imp_right And.right))
  exact hr (h.reachable_kept hka (hk'.reachable_mem ha'))

end Splicing

end Vectorize

end LoopNest
