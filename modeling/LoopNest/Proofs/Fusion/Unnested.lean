import LoopNest.Proofs.Fusion.Accepted
import LoopNest.Proofs.Graph.Nesting
import Mathlib

/-!
# Loops after a move

The move takes the inner loop out of the outer one and leaves all other loops as they are.  Loops
are told apart by their headers: the back edges stay, so the headers do.  The blocks of a loop are
followed from one graph to the other by the detour that the move is; a loop around the outer one
contains the inner loop on its old way and on its new one.
-/

namespace LoopNest

namespace Fusion

open FlowGraph
open LoopForest hiding ofFunc

variable {tt : TypeTable} {f : Func} {p : Plan}

/-- The loops of `t'` are those of `t`, except that the loop `i` was taken out of the loop `o`. -/
structure Unnested (t t' : LoopForest) (o i : LoopId) : Prop where
  /-- The headers are the same. -/
  headers : ∀ b, (∃ l ∈ t'.ids, (t'.loop l).header = b) ↔ ∃ l ∈ t.ids, (t.loop l).header = b
  /-- The outer loop loses the blocks of the inner one, and every other loop keeps its blocks. -/
  blocks : ∀ l ∈ t.ids, ∀ l' ∈ t'.ids, (t'.loop l').header = (t.loop l).header →
    ∀ b, b ∈ (t'.loop l').blocks ↔ b ∈ (t.loop l).blocks ∧ (l = o → b ∉ (t.loop i).blocks)
  /-- The loop around the inner one is the loop that was around the outer one. -/
  parent : ∀ i' ∈ t'.ids, (t'.loop i').header = (t.loop i).header →
    (t'.parent? i').map (fun l => (t'.loop l).header) =
      (t.parent? o).map fun l => (t.loop l).header

/-- The blocks of `f'` are those of `f` with the same instructions, in another order. -/
structure Reordered (f f' : Func) : Prop where
  /-- A layout without duplicates is permuted. -/
  layout : f.layout.Nodup → f'.layout.Perm f.layout
  entry : f'.entry? = f.entry?
  blocks : f'.blocks = f.blocks
  size : f'.insts.size = f.insts.size
  owner : ∀ i, f'.owner i = f.owner i

theorem reordered_apply {outer inner : NaturalLoop} (h : Nest tt f outer inner p) :
    Reordered f (apply f p) where
  layout hn := by
    have hn' : (apply f p).layout.Nodup := by
      rw [apply_eq]
      exact nodup_layout_moveAll _ _ _ (by rw [layout_relink]; exact hn)
    exact (List.perm_ext_iff_of_nodup hn' hn).mpr h.mem_layout_apply
  entry := h.entry_apply
  blocks := (relinked_apply f p).blocks_eq
  size := (relinked_apply f p).size_eq
  owner := (relinked_apply f p).owner_eq

namespace Shape

section

variable {outer inner : NaturalLoop} (h : Shape f outer inner p)

include h

/-- From everywhere in the inner loop its header is reached within the loop. -/
theorem via_innerHeader {x : BlockId} (hx : x ∈ inner.blocks) :
    (ofFunc f).Via (· ∈ inner.blocks) x inner.header := by
  by_cases hne : x = inner.header
  · rw [hne]
    exact .refl h.inner_loop.reachable.live h.inner_loop.header_mem
  · obtain ⟨q, hq, hvia⟩ := h.inner_loop.via_to_latch hx hne
    exact (hvia.mono fun z hz => hz.2).snoc ((h.inner_loop.mem_latches q).mp hq).1
      h.inner_loop.header_mem

theorem via_innerHeader_apply {x : BlockId} (hx : x ∈ inner.blocks) :
    (ofFunc (apply f p)).Via (· ∈ inner.blocks) x inner.header :=
  have hvia : (ofFunc f).Via (fun z => True ∧ z ∈ inner.blocks) x inner.header :=
    (h.via_innerHeader hx).mono fun _ hz => ⟨trivial, hz⟩
  (h.detours.via_inside hvia).mono fun _ hz => hz.2

variable {l l' : NaturalLoop} (hl : IsLoop (ofFunc f) l) (hl' : IsLoop (ofFunc (apply f p)) l')
  (hh : l'.header = l.header)

include hl

/-- A loop around the outer one goes on after the outer exit. -/
theorem outerExit_mem (hne : l.header ∉ outer.blocks) (hsub : outer.header ∈ l.blocks) :
    p.outer.exit ∈ l.blocks ∧ p.outer.exit ≠ l.header := by
  have hlatch {q : BlockId} (hq : q ∈ l.latches) : q ∉ outer.blocks := fun hin => by
    have hback := (hl.mem_latches q).mp hq
    rcases CountedLoop.mem_of_successor h.outer_counted hin
      ((edge_ofFunc f _ _).mp hback.1).2.2 with hmem | ⟨rfl, heq⟩
    · exact hne hmem
    · exact h.detours.not_backEdge_c (heq ▸ hback)
  have hho : outer.header ≠ l.header := fun heq => hne (heq ▸ h.outer_loop.header_mem)
  obtain ⟨q, hq, hvia⟩ := hl.via_to_latch hsub hho
  by_contra hn
  -- Without the outer exit the way to the latch would stay in the outer loop.
  refine hlatch hq (hvia.rec_on (motive := (· ∈ outer.blocks)) h.outer_loop.header_mem
    fun u v he _ hv hu => ?_)
  rcases CountedLoop.mem_of_successor h.outer_counted hu ((edge_ofFunc f _ _).mp he).2.2 with
    hmem | ⟨_, rfl⟩
  · exact hmem
  · exact absurd ⟨hv.2, hv.1⟩ hn

include hl' hh

/-- Outside of the inner loop, and for loops inside it, nothing changes. -/
theorem mem_loop_apply {x : BlockId} (hx : x ∉ inner.blocks ∨ l.header ∈ inner.blocks) :
    x ∈ l'.blocks ↔ x ∈ l.blocks := by
  by_cases hy : l.header ∈ inner.blocks
  · exact ⟨h.detours_apply.mem_loop_inside h.detours hl' hl hh.symm (hh ▸ hy),
      h.detours.mem_loop_inside h.detours_apply hl hl' hh hy⟩
  · have hx := hx.resolve_right hy
    exact ⟨h.detours_apply.mem_loop_outside h.detours hl' hl hh.symm (hh ▸ hy) hx,
      h.detours.mem_loop_outside h.detours_apply hl hl' hh hy hx⟩

/-- A loop outside contains the moved loop if it contains the block after the outer exit edge. -/
theorem mem_moved_iff {x : BlockId} (hy : l.header ∉ inner.blocks) (hx : x ∈ inner.blocks) :
    x ∈ l'.blocks ↔ p.outer.exit ∈ l.blocks ∧ p.outer.exit ≠ l.header := by
  rw [h.detours_apply.mem_loop_region_iff hl' (hh ▸ hy) hx
    (h.detours.reachable (h.inner_loop.reachable_mem hx)) (h.via_innerHeader_apply hx), hh,
    h.mem_loop_apply hl hl' hh (.inl h.outerExit_not_mem)]

end

section

variable {o i : LoopId} (hi : i ∈ (forest (ofFunc f)).ids)
  (hpar : (forest (ofFunc f)).parent? i = some o)
  (h : Shape f ((forest (ofFunc f)).loop o) ((forest (ofFunc f)).loop i) p)

include hi hpar

/-- A loop around the inner one is the inner or the outer one, or a loop around the outer one. -/
theorem outer_subset {l : LoopId} (hl : l ∈ (forest (ofFunc f)).ids) (hne : l ≠ i)
    (hmem : ((forest (ofFunc f)).loop i).header ∈ ((forest (ofFunc f)).loop l).blocks) :
    ∀ b ∈ ((forest (ofFunc f)).loop o).blocks, b ∈ ((forest (ofFunc f)).loop l).blocks :=
  ((parent?_eq_some_iff (coherent_ofFunc f) hi).mp hpar).2 l hl hne hmem

theorem outer_mem_ids : o ∈ (forest (ofFunc f)).ids :=
  ((parent?_eq_some_iff (coherent_ofFunc f) hi).mp hpar).1.1

include h

theorem mem_loop_iff {l l' : LoopId} (hl : l ∈ (forest (ofFunc f)).ids)
    (hl' : l' ∈ (forest (ofFunc (apply f p))).ids)
    (hh : ((forest (ofFunc (apply f p))).loop l').header = ((forest (ofFunc f)).loop l).header)
    (b : BlockId) : b ∈ ((forest (ofFunc (apply f p))).loop l').blocks ↔
      b ∈ ((forest (ofFunc f)).loop l).blocks ∧
        (l = o → b ∉ ((forest (ofFunc f)).loop i).blocks) := by
  have hg := coherent_ofFunc f
  have hil := isLoop_loop hg hl
  have hil' := isLoop_loop (coherent_ofFunc (apply f p)) hl'
  have ho := outer_mem_ids hi hpar
  by_cases hb : b ∈ ((forest (ofFunc f)).loop i).blocks
  · by_cases hy : ((forest (ofFunc f)).loop l).header ∈ ((forest (ofFunc f)).loop i).blocks
    · have hlo : l ≠ o := fun heq => h.header_out (heq ▸ hy)
      rw [h.mem_loop_apply hil hil' hh (.inr hy)]
      exact ⟨fun hm => ⟨hm, fun heq => absurd heq hlo⟩, fun hm => hm.1⟩
    · rw [h.mem_moved_iff hil hil' hh hy hb]
      have hli : l ≠ i := fun heq => hy (heq ▸ h.inner_loop.header_mem)
      constructor
      · rintro ⟨hexit, hne⟩
        have hlo : l ≠ o := fun heq => h.outer_counted.exit_out (heq ▸ hexit)
        have hmem := hil.mem_of_edge hexit hne h.detours.edge_c h.outer_loop.reachable
        have hsub := (surrounds_of_header_mem hg ho hl (Ne.symm hlo) hmem).2
        exact ⟨hsub b (h.subset b hb), fun heq => absurd heq hlo⟩
      · rintro ⟨hm, hlo⟩
        have hlo : l ≠ o := fun heq => hlo heq hb
        -- A loop that shares a block with the inner one but starts outside is around it.
        have hhead : ((forest (ofFunc f)).loop i).header ∈ ((forest (ofFunc f)).loop l).blocks :=
          (h.detours.mem_loop_region_iff hil hy h.inner_loop.header_mem h.inner_loop.reachable
            (h.via_innerHeader h.inner_loop.header_mem)).mpr
          ((h.detours.mem_loop_region_iff hil hy hb (h.inner_loop.reachable_mem hb)
            (h.via_innerHeader hb)).mp hm)
        have hho := outer_subset hi hpar hl hli hhead _ h.outer_loop.header_mem
        exact h.outerExit_mem hil (surrounds_of_header_mem hg ho hl (Ne.symm hlo) hho).1 hho
  · rw [h.mem_loop_apply hil hil' hh (.inl hb)]
    exact ⟨fun hm => ⟨hm, fun _ => hb⟩, fun hm => hm.1⟩

omit hi hpar in
theorem exists_loop_apply {l : LoopId} (hl : l ∈ (forest (ofFunc f)).ids) :
    ∃ l' ∈ (forest (ofFunc (apply f p))).ids,
      ((forest (ofFunc (apply f p))).loop l').header = ((forest (ofFunc f)).loop l).header := by
  have hil := isLoop_loop (coherent_ofFunc f) hl
  obtain ⟨q, hq⟩ := List.exists_mem_of_ne_nil _ hil.latches_ne
  obtain ⟨he, hr, hd⟩ := h.detours.backEdge h.detours_apply ((hil.mem_latches q).mp hq)
  exact exists_loop (coherent_ofFunc (apply f p)) he hr hd

omit hi hpar in
theorem exists_loop_of_apply {l' : LoopId} (hl' : l' ∈ (forest (ofFunc (apply f p))).ids) :
    ∃ l ∈ (forest (ofFunc f)).ids,
      ((forest (ofFunc f)).loop l).header =
        ((forest (ofFunc (apply f p))).loop l').header := by
  have hil' := isLoop_loop (coherent_ofFunc (apply f p)) hl'
  obtain ⟨q, hq⟩ := List.exists_mem_of_ne_nil _ hil'.latches_ne
  obtain ⟨he, hr, hd⟩ := h.detours_apply.backEdge h.detours ((hil'.mem_latches q).mp hq)
  exact exists_loop (coherent_ofFunc f) he hr hd

/-- A loop around the moved loop was around the outer one. -/
theorem outer_mem_of_apply {i' k' : LoopId} (hk' : k' ∈ (forest (ofFunc (apply f p))).ids)
    (hi' : i' ∈ (forest (ofFunc (apply f p))).ids)
    (hh : ((forest (ofFunc (apply f p))).loop i').header = ((forest (ofFunc f)).loop i).header)
    (hne : k' ≠ i')
    (hmem : ((forest (ofFunc (apply f p))).loop i').header ∈
      ((forest (ofFunc (apply f p))).loop k').blocks) :
    ∃ k ∈ (forest (ofFunc f)).ids, ((forest (ofFunc f)).loop k).header =
        ((forest (ofFunc (apply f p))).loop k').header ∧ k ≠ o ∧
      ((forest (ofFunc f)).loop o).header ∈ ((forest (ofFunc f)).loop k).blocks := by
  obtain ⟨k, hk, hkh⟩ := h.exists_loop_of_apply hk'
  have hki : k ≠ i := fun heq => hne (header_injective hk' hi' (by rw [← hkh, heq, hh]))
  rw [hh] at hmem
  obtain ⟨hm, hout⟩ := (mem_loop_iff hi hpar h hk hk' hkh.symm _).mp hmem
  exact ⟨k, hk, hkh, fun heq => hout heq h.inner_loop.header_mem,
    outer_subset hi hpar hk hki hm _ h.outer_loop.header_mem⟩

theorem parent_apply {i' : LoopId} (hi' : i' ∈ (forest (ofFunc (apply f p))).ids)
    (hh : ((forest (ofFunc (apply f p))).loop i').header =
      ((forest (ofFunc f)).loop i).header) :
    ((forest (ofFunc (apply f p))).parent? i').map
        (fun l => ((forest (ofFunc (apply f p))).loop l).header) =
      ((forest (ofFunc f)).parent? o).map fun l => ((forest (ofFunc f)).loop l).header := by
  have hg := coherent_ofFunc f
  have hg' := coherent_ofFunc (apply f p)
  have ho := outer_mem_ids hi hpar
  cases hq : (forest (ofFunc f)).parent? o with
  | none =>
    have hnone : (forest (ofFunc (apply f p))).parent? i' = none := by
      refine (parent?_eq_none_iff hg' hi').mpr fun k' hk' hne hmem => ?_
      obtain ⟨k, hk, _, hko, hin⟩ := outer_mem_of_apply hi hpar h hk' hi' hh hne hmem
      exact (parent?_eq_none_iff hg ho).mp hq k hk hko hin
    rw [hnone, Option.map_none, Option.map_none]
  | some q =>
    obtain ⟨⟨hqid, hqo, hqmem⟩, hmin⟩ := (parent?_eq_some_iff hg ho).mp hq
    obtain ⟨q', hq', hqh⟩ := h.exists_loop_apply hqid
    have hqi : q ≠ i := fun heq => h.header_out (heq ▸ hqmem)
    have hsub := (surrounds_of_header_mem hg ho hqid (Ne.symm hqo) hqmem).2
    have hmem' : ((forest (ofFunc f)).loop i).header ∈
        ((forest (ofFunc (apply f p))).loop q').blocks :=
      (mem_loop_iff hi hpar h hqid hq' hqh _).mpr
        ⟨hsub _ (h.subset _ h.inner_loop.header_mem), fun heq => absurd heq hqo⟩
    have hsome : (forest (ofFunc (apply f p))).parent? i' = some q' := by
      refine (parent?_eq_some_iff hg' hi').mpr ⟨⟨hq', fun heq => ?_, hh ▸ hmem'⟩,
        fun k' hk' hne hmem b hb => ?_⟩
      · exact hqi (header_injective hqid hi (by rw [← hqh, heq, hh]))
      · obtain ⟨k, hk, hkh, hko, hin⟩ := outer_mem_of_apply hi hpar h hk' hi' hh hne hmem
        have hb := ((mem_loop_iff hi hpar h hqid hq' hqh b).mp hb).1
        exact (mem_loop_iff hi hpar h hk hk' hkh.symm b).mpr
          ⟨hmin k hk hko hin b hb, fun heq => absurd heq hko⟩
    rw [hsome, Option.map_some, Option.map_some, hqh]

end

end Shape

theorem Nest.unnested_apply {o i : LoopId} (hi : i ∈ (forest (ofFunc f)).ids)
    (hpar : (forest (ofFunc f)).parent? i = some o)
    (h : Nest tt f ((forest (ofFunc f)).loop o) ((forest (ofFunc f)).loop i) p) :
    Unnested (forest (ofFunc f)) (forest (ofFunc (apply f p))) o i where
  headers b := by
    constructor
    · rintro ⟨l', hl', rfl⟩
      exact h.exists_loop_of_apply hl'
    · rintro ⟨l, hl, rfl⟩
      exact h.exists_loop_apply hl
  blocks _ hl _ hl' hh b := Shape.mem_loop_iff hi hpar h.toShape hl hl' hh b
  parent _ hi' hh := Shape.parent_apply hi hpar h.toShape hi' hh

/-! ## The pass -/

theorem candidate?_eq_some {t : LoopForest} {tried : List BlockId} {o i : LoopId}
    (h : candidate? t tried = some (o, i)) : i ∈ t.ids ∧ t.parent? i = some o := by
  obtain ⟨l, _, hl⟩ := List.exists_of_findSome?_eq_some h
  split at hl
  · rename_i child hchild
    split at hl
    · cases hl
    · cases hl
      have hmem : i ∈ t.children o := hchild ▸ List.mem_singleton.mpr rfl
      simpa [LoopForest.children] using hmem
  · cases hl

/-- A nest that the pass rewrites. -/
theorem nest_of_candidate {tried : List BlockId} {o i : LoopId} (hv : f.verify tt = .ok ())
    (hc : candidate? (.ofFunc f) tried = some (o, i))
    (hp : plan tt f (.ofFunc f) (.ofFunc f) ((LoopForest.ofFunc f).loop o)
      ((LoopForest.ofFunc f).loop i) = .ok p) :
    Nest tt f ((LoopForest.ofFunc f).loop o) ((LoopForest.ofFunc f).loop i) p := by
  obtain ⟨hi, hpar⟩ := candidate?_eq_some hc
  obtain ⟨⟨ho, hne, hmem⟩, _⟩ := (parent?_eq_some_iff (coherent_ofFunc f) hi).mp hpar
  exact nest_of_plan hv ho hi (Ne.symm hne) hmem hp

/-- Whatever the pass moves, the function is accepted again. -/
theorem verify_sweep : ∀ (fuel : Nat) (tried : List BlockId) {f : Func}, f.verify tt = .ok () →
    f.UsesListed →
    (sweep tt fuel tried f).1.verify tt = .ok () ∧ (sweep tt fuel tried f).1.UsesListed
  | 0, _, _, hv, hl => ⟨hv, hl⟩
  | fuel + 1, tried, f, hv, hl => by
    rw [sweep]
    split
    · exact ⟨hv, hl⟩
    · rename_i o i hc
      simp only
      split
      · rename_i p hp
        have h := nest_of_candidate hv hc hp
        have hty := Func.wellTyped_of_verify (Func.isDeclaration_of_live h.outerHeader_live) hv
        exact verify_sweep fuel _ (h.verify_apply hl hty) (h.usesListed_apply hl)
      · exact verify_sweep fuel _ hv hl

/-- A move takes the inner loop out of the outer one and changes nothing else about the loops, the
blocks and their instructions.  A layout without duplicates is permuted; the verifier does not ask for
one.  The function is accepted again if the instructions that it uses stand in the blocks that they
record. -/
theorem rewrite_unnests {tried : List BlockId} {o i : LoopId} (hv : f.verify tt = .ok ())
    (hc : candidate? (.ofFunc f) tried = some (o, i))
    (hp : plan tt f (.ofFunc f) (.ofFunc f) ((LoopForest.ofFunc f).loop o)
      ((LoopForest.ofFunc f).loop i) = .ok p) :
    (f.UsesListed → (apply f p).verify tt = .ok ()) ∧ Reordered f (apply f p) ∧
      Unnested (.ofFunc f) (.ofFunc (apply f p)) o i := by
  have h := nest_of_candidate hv hc hp
  obtain ⟨hi, hpar⟩ := candidate?_eq_some hc
  refine ⟨fun hl => h.verify_apply hl ?_, reordered_apply h, Nest.unnested_apply hi hpar h⟩
  exact Func.wellTyped_of_verify (Func.isDeclaration_of_live h.outerHeader_live) hv

theorem rewrite_unnests_straightNest :
    (apply straightNest fillPlan).verify fillTypes = .ok () ∧
      Reordered straightNest (apply straightNest fillPlan) ∧
      Unnested (.ofFunc straightNest) (.ofFunc (apply straightNest fillPlan)) 0 1 := by
  have hv : straightNest.verify fillTypes = .ok () := by cbv
  have hc : candidate? (.ofFunc straightNest) [] = some (0, 1) := by cbv
  have h := rewrite_unnests (p := fillPlan) hv hc (by cbv)
  exact ⟨h.1 (by decide), h.2⟩

/-- A nest whose inner exit uses a sum that records the inner header but stands in no block. -/
def strayNest : Func where
  __ := straightNest
  blocks := straightNest.blocks.set! 6 ⟨"inner.exit", [18, 13], false⟩
  insts := straightNest.insts ++ #[⟨.binary .add (.const 1) (.const 1), 2, none, some 4⟩,
    ⟨.binary .add (.inst 17) (.const 1), 2, none, some 6⟩]

/-- The nest is accepted and moved, and the result is refused: the inner header no longer dominates
the inner exit. -/
theorem strayNest_refused :
    strayNest.verify fillTypes = .ok () ∧ candidate? (.ofFunc strayNest) [] = some (0, 1) ∧
    plan fillTypes strayNest (.ofFunc strayNest) (.ofFunc strayNest)
      ((LoopForest.ofFunc strayNest).loop 0) ((LoopForest.ofFunc strayNest).loop 1) =
      .ok fillPlan ∧
    (apply strayNest fillPlan).verify fillTypes =
      .error ⟨"fill", .useNotDominated "inner.exit"⟩ :=
  ⟨by cbv, by cbv, by cbv, by cbv⟩

end Fusion

/-- The pass gives an accepted function for an accepted one. -/
theorem Func.verify_fuseLoops {tt : TypeTable} {f : Func} (hv : f.verify tt = .ok ())
    (hl : f.UsesListed) : (f.fuseLoops tt).func.verify tt = .ok () :=
  (Fusion.verify_sweep (f.blocks.size + 1) [] hv hl).1

end LoopNest
