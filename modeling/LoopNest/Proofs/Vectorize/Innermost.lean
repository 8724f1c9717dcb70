import LoopNest.Proofs.Vectorize.Apart

/-!
# The innermost loops of a function with a vector loop

Vectorizing makes the vector loop, and it makes no other new innermost loop: the innermost loops are
the vector loop, the old loop if that is kept, and loops that were innermost before, block for block
(`Splicing.innermost_cases`).  Could a loop have been around the vectorized one and be innermost
now?  It would contain the preheader, so it would go on into the vector loop.

The pass goes through the innermost loops in the order of the forest, in which no loop is dominated
by a later one (`pairwise_innermostLoops`).
-/

namespace LoopNest

open Func FlowGraph
open LoopForest hiding ofFunc

namespace Vectorize

variable {l k : NaturalLoop} {p : VectorPlan} {n : VectorLoop} {f g : Func} {b : BlockId}

theorem mem_innermostLoops : l ∈ innermostLoops (ofFunc f) ↔
    ∃ i ∈ (forest (ofFunc f)).ids, Innermost (ofFunc f) l ∧ (forest (ofFunc f)).loop i = l := by
  refine List.mem_map.trans (exists_congr fun i => ?_)
  rw [show LoopForest.ofGraph (ofFunc f) (.ofGraph (ofFunc f)) = forest (ofFunc f) from rfl,
    mem_innermost_iff (coherent_ofFunc f), and_assoc]
  refine and_congr_right fun _ => ⟨fun ⟨hi, heq⟩ => ⟨heq ▸ hi, heq⟩, fun ⟨hi, heq⟩ => ⟨?_, heq⟩⟩
  exact heq ▸ hi

theorem innermost_of_mem (hl : l ∈ innermostLoops (ofFunc f)) : Innermost (ofFunc f) l := by
  obtain ⟨_, _, h, _⟩ := mem_innermostLoops.mp hl
  exact h

/-- No loop is dominated by a later one. -/
theorem pairwise_innermostLoops (f : Func) :
    (innermostLoops (ofFunc f)).Pairwise fun a b => ¬ (ofFunc f).Dominates b.header a.header := by
  refine List.pairwise_map.mpr ?_
  have hlt : (forest (ofFunc f)).innermost.Pairwise (· < ·) :=
    List.pairwise_lt_range.sublist List.filter_sublist
  refine hlt.imp_of_mem fun _ hj hij => ?_
  exact not_dominates_of_lt (coherent_ofFunc f) (List.mem_filter.mp hj).1 hij

/-- Loops of the forest with one header are one loop. -/
theorem eq_of_header_eq (hl : l ∈ innermostLoops (ofFunc f)) (hk : k ∈ innermostLoops (ofFunc f))
    (heq : l.header = k.header) : l = k := by
  obtain ⟨i, hi, _, rfl⟩ := mem_innermostLoops.mp hl
  obtain ⟨j, hj, _, rfl⟩ := mem_innermostLoops.mp hk
  rw [header_injective hi hj heq]

namespace Splicing

variable (h : Splicing l p n f g)

include h

/-- The vector loop. -/
theorem exists_vectorLoop : ∃ v, IsLoop (ofFunc g) v ∧ v.header = n.blocks.header := by
  have he := h.edge_new n.latch_mem (h.mem_successors_latch.mpr rfl)
  obtain ⟨i, hi, hh⟩ := LoopForest.exists_loop (coherent_ofFunc g) he (h.reachable_new n.latch_mem)
    (h.header_dominates n.latch_mem)
  exact ⟨_, isLoop_loop (coherent_ofFunc g) hi, hh⟩

section

variable (hk : Innermost (ofFunc g) k) (hheader : k.header ∉ n.blocks.all)

include hk hheader

/-- Another innermost loop has no new blocks. -/
theorem not_mem_innermost (hb : b ∈ k.blocks) : b ∉ n.blocks.all := by
  intro hnew
  -- With a new block it would have the header of the vector loop.
  have hmem : n.blocks.header ∈ k.blocks := by
    have hback {x y : BlockId} (hy : y ∈ k.blocks) (hynew : y ∈ n.blocks.all)
        (hx : x ∈ n.blocks.all) (hs : y ∈ g.successors x) : x ∈ k.blocks :=
      hk.isLoop.mem_of_edge hy (fun heq => hheader (heq ▸ hynew)) (h.edge_new hx hs)
        (h.reachable_new hx)
    have hbody (hy : n.blocks.body ∈ k.blocks) : n.blocks.header ∈ k.blocks :=
      hback hy n.body_mem n.header_mem (h.mem_successors_header.mpr (.inl rfl))
    rcases VectorLoop.mem_all.mp hnew with rfl | rfl | rfl | hm
    · exact hb
    · exact hbody hb
    · exact hbody (hback hb n.latch_mem n.body_mem (h.mem_successors_body.mpr rfl))
    · exact hback hb hnew n.header_mem (h.mem_successors_header.mpr (.inr (by rw [hm]; rfl)))
  obtain ⟨v, hv, hvh⟩ := h.exists_vectorLoop
  have heq := hk.eq_header v hv (hvh ▸ hmem)
  exact hheader (heq ▸ hvh ▸ n.header_mem)

/-- It leads past the vectorized loop. -/
theorem preheader_not_mem : p.loop.preheader ∉ k.blocks := by
  intro hmem
  obtain ⟨c, hc, he⟩ := hk.isLoop.exists_successor hmem
  have hs := h.mem_successors_preheader.mp ((edge_ofFunc g _ c).mp he).2.2
  exact h.not_mem_innermost hk hheader hc (hs ▸ n.header_mem)

variable {m : NaturalLoop} (hm : IsLoop (ofFunc f) m) (heq : m.header = k.header)

include hm heq

theorem mem_of_mem_new (hb : b ∈ k.blocks) : b ∈ m.blocks := by
  obtain ⟨m', hm', heq', hb'⟩ :=
    h.exists_loop hk.isLoop hheader hb (h.not_mem_innermost hk hheader hb)
  exact hm'.mem_of_header_eq hm (heq'.trans heq.symm) hb'

omit hheader in
theorem mem_of_mem_old (hb : b ∈ m.blocks) (hh : ¬ Erased l n k.header) (hout : ¬ Erased l n b) :
    b ∈ k.blocks := by
  obtain ⟨k', hk', heq', hb'⟩ :=
    h.exchanged.exists_loop h.restored (coherent_ofFunc g) hm (heq ▸ hh) hb hout
  exact hk'.mem_of_header_eq hk.isLoop (heq'.trans heq) hb'

variable (hl : Innermost (ofFunc f) l) (hne : k.header ≠ l.header)

include hl hne

/-- The old loop with its header is not around the vectorized loop. -/
theorem not_mem_old (hb : b ∈ m.blocks) : b ∉ l.blocks := by
  intro hbl
  have hml := heq ▸ hne
  have hreach := hl.isLoop.reachable_mem hbl
  rcases (hl.isLoop.dominates hbl).total (hm.dominates hb) hreach with hd | hd
  · obtain ⟨_, hsub⟩ := hl.isLoop.subset_of_dominates hm hml.symm hd hbl hb
    exact hml (hl.eq_header m hm (hsub _ hm.header_mem))
  · obtain ⟨hout, hsub⟩ := hm.subset_of_dominates hl.isLoop hml hd hb hbl
    have hph := hm.mem_of_edge (hsub _ hl.isLoop.header_mem) hml.symm h.shape.edge_preheader.2
      h.preheader_reachable
    refine h.preheader_not_mem hk hheader (h.mem_of_mem_old hk hm heq hph ?_ ?_)
    · exact fun he => hout (heq ▸ he.2)
    · exact (kept_iff.mp h.kept_preheader).2

theorem kept_of_mem_old (hb : b ∈ m.blocks) : Kept l n f b :=
  ⟨CountedLoop.live_of_mem hm hb, fun _ => h.not_mem_old hk hheader hm heq hl hne hb⟩

/-- The blocks stay. -/
theorem mem_iff_old : b ∈ k.blocks ↔ b ∈ m.blocks := by
  have hout {x : BlockId} (hx : x ∈ m.blocks) : ¬ Erased l n x :=
    (kept_iff.mp (h.kept_of_mem_old hk hheader hm heq hl hne hx)).2
  exact ⟨h.mem_of_mem_new hk hheader hm heq, fun hb =>
    h.mem_of_mem_old hk hm heq hb (heq ▸ hout hm.header_mem) (hout hb)⟩

theorem mem_latches_iff_old : b ∈ k.latches ↔ b ∈ m.latches := by
  rw [hk.isLoop.mem_latches_iff, hm.mem_latches_iff, h.mem_iff_old hk hheader hm heq hl hne, heq]
  refine and_congr_right fun hb => ?_
  have hkept {x : BlockId} (hx : x ∈ m.blocks) := h.kept_of_mem_old hk hheader hm heq hl hne hx
  rw [h.edge_kept (hkept hb) (heq ▸ hkept hm.header_mem)]
  refine and_iff_left fun hph => h.preheader_not_mem hk hheader ?_
  exact (h.mem_iff_old hk hheader hm heq hl hne).mpr (hph ▸ hb)

theorem innermost_old : Innermost (ofFunc f) m := by
  refine ⟨hm, fun o ho hom => ?_⟩
  have hout := (kept_iff.mp (h.kept_of_mem_old hk hheader hm heq hl hne hom)).2
  obtain ⟨o', ho', hoeq, _⟩ :=
    h.exchanged.exists_loop h.restored (coherent_ofFunc g) ho hout ho.header_mem hout
  rw [heq, ← hoeq]
  exact hk.eq_header o' ho' ((h.mem_iff_old hk hheader hm heq hl hne).mpr (hoeq ▸ hom))

end

/-- An innermost loop is the vector loop, the old loop, or a loop that was innermost before. -/
theorem innermost_cases (hl : Innermost (ofFunc f) l) (hk : k ∈ innermostLoops (ofFunc g)) :
    k.header = n.blocks.header ∨ k.header = l.header ∨
      k ∈ innermostLoops (ofFunc f) ∧ k.header ∉ n.blocks.all ∧ k.header ≠ l.header := by
  obtain ⟨i, hi, hinner, hki⟩ := mem_innermostLoops.mp hk
  by_cases hheader : k.header ∈ n.blocks.all
  · exact .inl (h.eq_header hinner.isLoop hheader).1
  by_cases hne : k.header = l.header
  · exact .inr (.inl hne)
  refine .inr (.inr ⟨?_, hheader, hne⟩)
  obtain ⟨m', hm', heq', _⟩ := h.exists_loop hinner.isLoop hheader hinner.isLoop.header_mem hheader
  obtain ⟨j, hj, heq, _⟩ := exists_of_isLoop (coherent_ofFunc f) hm'
  have heq := heq.trans heq'
  generalize hmj : (forest (ofFunc f)).loop j = m at heq
  have hm : IsLoop (ofFunc f) m := hmj ▸ isLoop_loop (coherent_ofFunc f) hj
  have hkept {b : BlockId} (hb : b ∈ m.blocks) : Kept l n f b :=
    h.kept_of_mem_old hinner hheader hm heq hl hne hb
  -- Both lists of blocks come in the order of the layout.
  have hblocks : k.blocks = m.blocks := by
    obtain ⟨_, hkb⟩ := blocks_loop hi
    obtain ⟨_, hmb⟩ := blocks_loop hj
    rw [hki, blocks_ofFunc] at hkb
    rw [hmj, blocks_ofFunc] at hmb
    rw [hkb, hmb]
    refine h.filter_congr (fun b => ?_) fun b hb => hkept (hmb ▸ hb)
    rw [← hkb, ← hmb]
    exact h.mem_iff_old hinner hheader hm heq hl hne
  have hlatches : k.latches = m.latches := by
    obtain ⟨_, hkl⟩ := latches_loop hi
    obtain ⟨_, hml⟩ := latches_loop hj
    rw [hki] at hkl
    rw [hmj] at hml
    rw [hkl, hml]
    refine h.filter_congr (fun b => ?_) fun b hb => hkept (hm.latch_mem (hml ▸ hb))
    rw [← hkl, ← hml]
    exact h.mem_latches_iff_old hinner hheader hm heq hl hne
  have hsame : m = k := by
    cases m
    cases k
    simp_all
  refine mem_innermostLoops.mpr ⟨j, hj, ?_, hmj.trans hsame⟩
  exact hsame ▸ h.innermost_old hinner hheader hm heq hl hne

end Splicing

end Vectorize

end LoopNest
