import LoopNest.Proofs.Graph.Loops

/-!
# Moving a region of a flow graph to another edge

A *region* is a set of blocks that is entered and left at one block only, its head.  In one graph it
stands on the way from `a` to `b`, and an edge leads from `c` to `d`; in the other it stands on the
way from `c` to `d`, and an edge leads from `a` to `b`.  All other edges are the same.

What happens outside of the region is the same in both graphs: a path may go the way through the
region or around it, whichever the graph has (`Detours.via_outside`).  What happens inside is the
same too.  Hence the graphs have the same reachable blocks (`Detours.reachable`), the same
dominance between two blocks outside and between two blocks inside, and the same back edges
(`Detours.backEdge`).

The relation is symmetric, so each fact is proved for one direction only.
-/

namespace LoopNest

namespace FlowGraph

/-- The first graph with a region on the way from `a` to `b`, and the second with the region on the
way from `c` to `d`. -/
structure Detours (g g' : FlowGraph) (R : BlockId → Prop) (head a b c d : BlockId) : Prop where
  entry_eq : g'.entry? = g.entry?
  live : ∀ x ∈ g.blocks, x ∈ g'.blocks
  head_in : R head
  entry_out : ∀ e, g.entry? = some e → ¬ R e
  a_out : ¬ R a
  b_out : ¬ R b
  c_out : ¬ R c
  d_out : ¬ R d
  reach_a : g.Reachable a
  reach_c : g.Reachable c
  /-- The region is entered from `a` and left to `b`. -/
  enters : ∀ x y, g.Reachable x → g.Edge x y → ¬ R x → R y → x = a ∧ y = head
  leaves : ∀ x y, g.Edge x y → R x → ¬ R y → x = head ∧ y = b
  edge_a : g.Edge a head
  edge_b : g.Edge head b
  edge_c : g.Edge c d
  /-- What the second graph has instead. -/
  edge_a' : g'.Edge a b
  edge_c' : g'.Edge c head
  edge_d' : g'.Edge head d
  kept : ∀ x y, g.Edge x y → x = a ∧ y = head ∨ x = head ∧ y = b ∨ x = c ∧ y = d ∨ g'.Edge x y
  pred_b : ∀ x, g.Edge x b → x = head
  pred_d : ∀ x, g.Edge x d → x = c
  b_ne_entry : g.entry? ≠ some b
  d_ne_entry : g.entry? ≠ some d
  c_ne_d : c ≠ d

namespace Detours

variable {g g' : FlowGraph} {R : BlockId → Prop} {head a b c d : BlockId}
  (h : Detours g g' R head a b c d) (h' : Detours g' g R head c d a b) {ok : BlockId → Prop}
  {s u v x y : BlockId}

include h

/-- An edge inside the region is kept. -/
theorem edge_inside (he : g.Edge x y) (hx : R x) (hy : R y) : g'.Edge x y := by
  rcases h.kept x y he with ⟨rfl, _⟩ | ⟨_, rfl⟩ | ⟨rfl, _⟩ | he
  · exact absurd hx h.a_out
  · exact absurd hy h.b_out
  · exact absurd hx h.c_out
  · exact he

/-- A path that starts outside goes on outside, or has come to `a` and into the region. -/
theorem via_or (hok : ∀ x, R x → ok x) (hs : ¬ R s) (hr : g.Reachable s) (hv : g.Via ok s v) :
    g.Reachable v ∧ (¬ R v → g'.Via ok s v) ∧ (R v → g'.Via ok s a) := by
  refine hv.rec_on (motive := fun v => g.Reachable v ∧ (¬ R v → g'.Via ok s v) ∧
    (R v → g'.Via ok s a)) ?_ ?_
  · exact ⟨hr, fun _ => .refl (h.live s hv.live_start) hv.start, fun hin => absurd hin hs⟩
  · rintro x y he _ hy ⟨hx, hout, hin⟩
    refine ⟨hx.edge he, fun hyout => ?_, fun hyin => ?_⟩
    · by_cases hxin : R x
      · obtain ⟨_, rfl⟩ := h.leaves x y he hxin hyout
        exact (hin hxin).snoc h.edge_a' hy
      · rcases h.kept x y he with ⟨_, rfl⟩ | ⟨rfl, _⟩ | ⟨rfl, rfl⟩ | he
        · exact absurd h.head_in hyout
        · exact absurd h.head_in hxin
        · -- The second graph goes from `c` to `d` through the head.
          exact ((hout hxin).snoc h.edge_c' (hok _ h.head_in)).snoc h.edge_d' hy
        · exact (hout hxin).snoc he hy
    · by_cases hxin : R x
      · exact hin hxin
      · obtain ⟨rfl, _⟩ := h.enters x y hx he hxin hyin
        exact hout hxin

/-- A path between two blocks outside of the region, through blocks of a set that contains it. -/
theorem via_outside (hok : ∀ x, R x → ok x) (hs : ¬ R s) (hr : g.Reachable s) (hv : ¬ R v)
    (hvia : g.Via ok s v) : g'.Via ok s v := (h.via_or hok hs hr hvia).2.1 hv

theorem via_inside (hvia : g.Via (fun x => ok x ∧ R x) u v) :
    g'.Via (fun x => ok x ∧ R x) u v :=
  hvia.rec_on (motive := fun v => g'.Via (fun x => ok x ∧ R x) u v)
    (.refl (h.live u hvia.live_start) hvia.start)
    fun _ _ he hx hy hu => hu.snoc (h.edge_inside he hx.2 hy.2) hy

/-- A path from the entry enters the region at its head. -/
theorem via_from_head (he : g.entry? = some s) (hvia : g.Via ok s v) (hv : R v) :
    g.Via (fun x => ok x ∧ R x) head v := by
  refine (hvia.rec_on (motive := fun v => g.Reachable v ∧
    (R v → g.Via (fun x => ok x ∧ R x) head v)) ?_ ?_).2 hv
  · exact ⟨⟨s, he, .refl hvia.live_start trivial⟩, fun hin => absurd hin (h.entry_out s he)⟩
  · rintro x y hedge _ hy ⟨hx, hin⟩
    refine ⟨hx.edge hedge, fun hyin => ?_⟩
    by_cases hxin : R x
    · exact (hin hxin).snoc hedge ⟨hy, hyin⟩
    · obtain ⟨_, rfl⟩ := h.enters x y hx hedge hxin hyin
      exact .refl hedge.2.1 ⟨hy, hyin⟩

/-! ## Reachable blocks -/

theorem reachable_of_out (hv : ¬ R v) (hr : g.Reachable v) : g'.Reachable v := by
  obtain ⟨e, he, hvia⟩ := hr
  have hre : g.Reachable e := ⟨e, he, .refl hvia.live_start trivial⟩
  exact ⟨e, h.entry_eq.trans he,
    h.via_outside (fun _ _ => trivial) (h.entry_out e he) hre hv hvia⟩

theorem reachable (hr : g.Reachable v) : g'.Reachable v := by
  by_cases hv : R v
  · obtain ⟨e, he, hvia⟩ := hr
    have hhead := (h.reachable_of_out h.c_out h.reach_c).edge h.edge_c'
    exact hhead.via (h.via_inside (h.via_from_head he hvia hv))
  · exact h.reachable_of_out hv hr

/-! ## Dominance -/

/-- What dominates `a` dominates the region. -/
theorem dominates_region (hd : g.Dominates u a) (hv : R v) : g.Dominates u v := by
  by_contra hn
  obtain ⟨e, he, hvia⟩ := not_dominates_iff.mp hn
  refine not_dominates_iff.mpr ⟨e, he, ?_⟩ hd
  refine (hvia.rec_on (motive := fun v => g.Reachable v ∧ g.Via (· ≠ u) e v ∧
    (R v → g.Via (· ≠ u) e a)) ?_ ?_).2.2 hv
  · exact ⟨⟨e, he, .refl hvia.live_start trivial⟩, .refl hvia.live_start hvia.start,
      fun hin => absurd hin (h.entry_out e he)⟩
  · rintro x y hedge _ hy ⟨hx, hvx, hin⟩
    refine ⟨hx.edge hedge, hvx.snoc hedge hy, fun hyin => ?_⟩
    by_cases hxin : R x
    · exact hin hxin
    · obtain ⟨rfl, _⟩ := h.enters x y hx hedge hxin hyin
      exact hvx

theorem reach_head : g.Reachable head := h.reach_a.edge h.edge_a

/-- The head is reached from outside. -/
theorem via_to_head : ∃ e, g.entry? = some e ∧ g.Via (fun x => x = head ∨ ¬ R x) e head := by
  obtain ⟨e, he, trail, hp, _⟩ := h.reach_head
  refine ⟨e, he, ?_⟩
  rcases hp.first hp.mem_end with heq | ⟨z, hvz, hz⟩
  · exact absurd (heq ▸ h.head_in) (h.entry_out e he)
  · have hout : g.Reachable z ∧ ¬ R z ∧ g.Via (fun x => x = head ∨ ¬ R x) e z := by
      refine hvz.rec_on (motive := fun z => g.Reachable z ∧ ¬ R z ∧
        g.Via (fun x => x = head ∨ ¬ R x) e z) ?_ ?_
      · exact ⟨⟨e, he, .refl hvz.live_start trivial⟩, h.entry_out e he,
          .refl hvz.live_start (.inr (h.entry_out e he))⟩
      · rintro x y hedge _ hy ⟨hx, hxout, hvx⟩
        have hyout : ¬ R y := fun hyin => hy.1 (h.enters x y hx hedge hxout hyin).2
        exact ⟨hx.edge hedge, hyout, hvx.snoc hedge (.inr hyout)⟩
    exact hout.2.2.snoc hz (.inl rfl)

theorem not_dominates_of_via (hu : R u) (hvia : g.Via (fun x => x ≠ u ∧ R x) head v) :
    ¬ g.Dominates u v := by
  obtain ⟨e, he, hhead⟩ := h.via_to_head
  have hhead : g.Via (· ≠ u) e head := hhead.mono fun x hx heq => by
    rcases hx with rfl | hx
    · exact hvia.start.1 heq
    · exact hx (heq ▸ hu)
  exact not_dominates_iff.mpr ⟨e, he, hhead.trans (hvia.mono fun x hx => hx.1)⟩

/-- No other block of the region dominates the head. -/
theorem not_dominates_head (hu : R u) (hne : u ≠ head) : ¬ g.Dominates u head :=
  h.not_dominates_of_via hu (.refl h.reach_head.live ⟨Ne.symm hne, h.head_in⟩)

/-- No block of the region dominates the block that leads to it. -/
theorem not_dominates_a (hu : R u) : ¬ g.Dominates u a := fun hd => by
  have hhead := h.dominates_region hd h.head_in
  by_cases heq : u = head
  · subst heq
    have hback := h.dominates_region .refl hu
    exact h.a_out ((hback.antisymm hd h.reach_head) ▸ hu)
  · exact h.not_dominates_head hu heq hhead

theorem dominates_outside (hu : ¬ R u) (hv : ¬ R v) (hd : g'.Dominates u v) :
    g.Dominates u v := by
  by_contra hn
  obtain ⟨e, he, hvia⟩ := not_dominates_iff.mp hn
  have hre : g.Reachable e := ⟨e, he, .refl hvia.live_start trivial⟩
  have hok : ∀ x, R x → x ≠ u := fun x hx heq => hu (heq ▸ hx)
  exact not_dominates_iff.mpr ⟨e, h.entry_eq.trans he,
    h.via_outside hok (h.entry_out e he) hre hv hvia⟩ hd

include h'

theorem dominates_inside (hu : R u) (hv : R v) (hd : g'.Dominates u v) : g.Dominates u v := by
  by_contra hn
  obtain ⟨e, he, hvia⟩ := not_dominates_iff.mp hn
  exact h'.not_dominates_of_via hu (h.via_inside (h.via_from_head he hvia hv)) hd

omit h'

/-! ## Back edges -/

theorem not_backEdge_a : ¬ g.BackEdge a head := fun hb =>
  h.a_out (((h.dominates_region .refl h.head_in).antisymm hb.2.2 h.reach_head) ▸ h.head_in)

theorem not_backEdge_b : ¬ g.BackEdge head b := fun hb =>
  h.b_out ((hb.2.2.antisymm (dominates_of_pred h.b_ne_entry h.pred_b) h.reach_head) ▸ h.head_in)

theorem not_backEdge_c : ¬ g.BackEdge c d := fun hb =>
  h.c_ne_d (hb.2.2.antisymm (dominates_of_pred h.d_ne_entry h.pred_d) h.reach_c).symm

/-- A back edge does not cross the border of the region. -/
theorem backEdge_same_side (hb : g.BackEdge x y) : R x ↔ R y := by
  by_cases hx : R x <;> by_cases hy : R y
  · exact iff_of_true hx hy
  · obtain ⟨rfl, rfl⟩ := h.leaves x y hb.1 hx hy
    exact absurd hb h.not_backEdge_b
  · obtain ⟨rfl, rfl⟩ := h.enters x y hb.2.1 hb.1 hx hy
    exact absurd hb h.not_backEdge_a
  · exact iff_of_false hx hy

include h' in
theorem backEdge (hb : g.BackEdge x y) : g'.BackEdge x y := by
  have hside := h.backEdge_same_side hb
  refine ⟨?_, h.reachable hb.2.1, ?_⟩
  · rcases h.kept x y hb.1 with ⟨rfl, rfl⟩ | ⟨rfl, rfl⟩ | ⟨rfl, rfl⟩ | he
    · exact absurd hb h.not_backEdge_a
    · exact absurd hb h.not_backEdge_b
    · exact absurd hb h.not_backEdge_c
    · exact he
  · by_cases hx : R x
    · exact h'.dominates_inside h (hside.mp hx) hx hb.2.2
    · exact h'.dominates_outside (fun hy => hx (hside.mpr hy)) hx hb.2.2

/-! ## Loops -/

section

variable {l l' : NaturalLoop} (hl : IsLoop g l) (hl' : IsLoop g' l') (hh : l'.header = l.header)

include hl

/-- A loop with its header in the region lies in the region. -/
theorem loop_subset_region (hy : R l.header) : ∀ x ∈ l.blocks, R x := by
  -- A block of the loop other than its header is not the head.
  have hhead {z : BlockId} (hz : z ∈ l.blocks) (hne : z ≠ l.header) : z ≠ head := by
    rintro rfl
    exact h.not_dominates_head hy (Ne.symm hne) (hl.dominates hz)
  intro x hx
  by_cases hne : x = l.header
  · exact hne ▸ hy
  · obtain ⟨p, hp, hvia⟩ := hl.via_to_latch hx hne
    have hpin : R p := (h.backEdge_same_side ((hl.mem_latches p).mp hp)).mpr hy
    refine hvia.rec_back (motive := R) hpin fun u v he hu hv hvin => ?_
    by_contra hout
    exact hhead hv.2 hv.1 (h.enters u v (hl.reachable_mem hu.2) he hout hvin).2

include h' hl' hh

theorem latch_mem_iff : x ∈ l'.latches ↔ x ∈ l.latches := by
  rw [hl.mem_latches, hl'.mem_latches, hh]
  exact ⟨h'.backEdge h, h.backEdge h'⟩

/-- A loop with its header in the region keeps its blocks. -/
theorem mem_loop_inside (hy : R l.header) (hx : x ∈ l.blocks) : x ∈ l'.blocks := by
  by_cases hne : x = l.header
  · rw [hne, ← hh]
    exact hl'.header_mem
  · obtain ⟨p, hp, hvia⟩ := hl.via_to_latch hx hne
    have hin := h.loop_subset_region hl hy
    refine (hl'.mem_blocks x).mpr (.inr ⟨h.reachable (hl.reachable_mem hx), p,
      (h.latch_mem_iff h' hl hl' hh).mpr hp, ?_⟩)
    rw [hh]
    exact (h.via_inside (hvia.mono fun z hz => ⟨hz.1, hin z hz.2⟩)).mono fun z hz => hz.1

/-- A loop with its header outside keeps its blocks outside. -/
theorem mem_loop_outside (hy : ¬ R l.header) (hxout : ¬ R x) (hx : x ∈ l.blocks) :
    x ∈ l'.blocks := by
  rcases (hl.mem_blocks x).mp hx with rfl | ⟨hr, p, hp, hvia⟩
  · rw [← hh]
    exact hl'.header_mem
  · have hpout : ¬ R p := fun hin =>
      hy ((h.backEdge_same_side ((hl.mem_latches p).mp hp)).mp hin)
    refine (hl'.mem_blocks x).mpr (.inr ⟨h.reachable hr, p,
      (h.latch_mem_iff h' hl hl' hh).mpr hp, ?_⟩)
    rw [hh]
    exact h.via_outside (fun z hz heq => hy (heq ▸ hz)) hxout hr hpout hvia

omit h' hl' hh

/-- A loop with its header outside contains the region if it contains the block after it. -/
theorem mem_loop_region_iff (hy : ¬ R l.header) (hx : R x) (hr : g.Reachable x)
    (hto : g.Via R x head) : x ∈ l.blocks ↔ b ∈ l.blocks ∧ b ≠ l.header := by
  constructor
  · intro hmem
    rcases (hl.mem_blocks x).mp hmem with rfl | ⟨_, p, hp, hvia⟩
    · exact absurd hx hy
    · have hpout : ¬ R p := fun hin =>
        hy ((h.backEdge_same_side ((hl.mem_latches p).mp hp)).mp hin)
      -- The path to the latch leaves the region.
      have hleft : g.Via (· ≠ l.header) x p ∧ (R x → g.Via (· ≠ l.header) b p) := by
        refine hvia.rec_back (motive := fun x => g.Via (· ≠ l.header) x p ∧
          (R x → g.Via (· ≠ l.header) b p)) ?_ ?_
        · exact ⟨.refl hvia.live_stop hvia.stop, fun hin => absurd hin hpout⟩
        · rintro u v he hu _ ⟨hvp, hin⟩
          refine ⟨.cons he hu hvp, fun huin => ?_⟩
          by_cases hvin : R v
          · exact hin hvin
          · obtain ⟨_, rfl⟩ := h.leaves u v he huin hvin
            exact hvp
      have hb := hleft.2 hx
      exact ⟨(hl.mem_blocks b).mpr (.inr ⟨h.reach_head.edge h.edge_b, p, hp, hb⟩), hb.start⟩
  · rintro ⟨hmem, hne⟩
    have hhead : head ∈ l.blocks := hl.mem_of_edge hmem hne h.edge_b h.reach_head
    obtain ⟨trail, hp, hok⟩ := hto
    exact hl.path_mem hp hr (fun z hz heq => hy (heq ▸ hok z hz)) hhead x hp.mem_start

end

end Detours

end FlowGraph

end LoopNest
