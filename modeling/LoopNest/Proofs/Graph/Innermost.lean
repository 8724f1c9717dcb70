import LoopNest.Proofs.Graph.Nesting

/-!
# Innermost loops

The forest calls a loop innermost if it has no children.  `Innermost` says the same without the
forest: no other loop has its header there (`mem_innermost_iff`).  So two innermost loops share no
block (`Innermost.disjoint`).

Blocks that no path leads to from the entry may still branch to blocks that are reached.  Taking them
away (`FlowGraph.Trims`) changes no path from a reachable block, so reachability, dominance and loops
stay (`Trims.innermost_iff`).
-/

namespace LoopNest

open FlowGraph

/-- A loop with no other loop inside. -/
structure Innermost (g : FlowGraph) (l : NaturalLoop) : Prop where
  isLoop : IsLoop g l
  eq_header : ∀ m, IsLoop g m → m.header ∈ l.blocks → m.header = l.header

variable {g : FlowGraph} {l m : NaturalLoop} {b : BlockId}

namespace IsLoop

variable (h : IsLoop g l)

include h

/-- Control can stay in a loop. -/
theorem exists_successor (hb : b ∈ l.blocks) : ∃ c ∈ l.blocks, g.Edge b c := by
  by_cases hne : b = l.header
  · subst hne
    obtain ⟨p, hp⟩ := List.exists_mem_of_ne_nil _ h.latches_ne
    by_cases hph : p = l.header
    · exact ⟨l.header, h.header_mem, hph ▸ ((h.mem_latches p).mp hp).1⟩
    · obtain ⟨c, hc, hvia⟩ := h.via_from_header (h.latch_mem hp) hph
      exact ⟨c, hvia.start.2, hc⟩
  · obtain ⟨p, hp, hvia⟩ := h.via_to_latch hb hne
    refine hvia.rec_back (motive := fun x => ∃ c ∈ l.blocks, g.Edge x c) ?_ ?_
    · exact ⟨l.header, h.header_mem, ((h.mem_latches p).mp hp).1⟩
    · exact fun x y he _ hy _ => ⟨y, hy.2, he⟩

/-- The latches are the blocks of the loop that lead to the header. -/
theorem mem_latches_iff : b ∈ l.latches ↔ b ∈ l.blocks ∧ g.Edge b l.header := by
  constructor
  · exact fun hb => ⟨h.latch_mem hb, ((h.mem_latches b).mp hb).1⟩
  · rintro ⟨hb, he⟩
    exact (h.mem_latches b).mpr ⟨he, h.reachable_mem hb, h.dominates hb⟩

end IsLoop

namespace Innermost

/-- Different innermost loops share no block. -/
theorem disjoint (hl : Innermost g l) (hm : Innermost g m) (hne : l.header ≠ m.header)
    (hb : b ∈ l.blocks) : b ∉ m.blocks := by
  intro hbm
  rcases (hl.isLoop.dominates hb).total (hm.isLoop.dominates hbm) (hl.isLoop.reachable_mem hb) with
    hd | hd
  · obtain ⟨_, hsub⟩ := hl.isLoop.subset_of_dominates hm.isLoop hne hd hb hbm
    exact hne (hl.eq_header m hm.isLoop (hsub _ hm.isLoop.header_mem)).symm
  · obtain ⟨_, hsub⟩ := hm.isLoop.subset_of_dominates hl.isLoop hne.symm hd hbm hb
    exact hne (hm.eq_header l hl.isLoop (hsub _ hl.isLoop.header_mem))

end Innermost

namespace LoopForest

theorem mem_innermost_iff (hg : g.Coherent) {i : LoopId} : i ∈ (forest g).innermost ↔
    i ∈ (forest g).ids ∧ Innermost g ((forest g).loop i) := by
  rw [innermost, List.mem_filter]
  refine and_congr_right fun hi => ?_
  have hil := isLoop_loop hg hi
  rw [isInnermost, List.isEmpty_iff]
  constructor
  · intro hnil
    refine ⟨hil, fun m hm hmem => ?_⟩
    obtain ⟨k, hk, hkh, _⟩ := exists_of_isLoop hg hm
    by_contra hne
    obtain ⟨c, hc, _⟩ := mem_child hg hk hi (fun heq => hne (heq ▸ hkh.symm)) (hkh ▸ hmem)
    exact absurd (hnil ▸ hc) List.not_mem_nil
  · intro hinner
    refine List.eq_nil_iff_forall_not_mem.mpr fun c hc => ?_
    obtain ⟨hc, hparent⟩ := List.mem_filter.mp hc
    obtain ⟨_, hout, hsub⟩ := parent_surrounds hg hc (by simpa using hparent)
    have hcl := isLoop_loop hg hc
    rw [← hinner.eq_header _ hcl (hsub _ hcl.header_mem)] at hout
    exact hout hcl.header_mem

end LoopForest

/-! ## Less blocks -/

namespace FlowGraph

/-- The second graph is the first one without some blocks that are never reached. -/
structure Trims (g g' : FlowGraph) : Prop where
  entry_eq : g'.entry? = g.entry?
  live : ∀ b, g.Reachable b → b ∈ g'.blocks
  blocks : ∀ b ∈ g'.blocks, b ∈ g.blocks
  edge_iff : ∀ a b, g'.Edge a b ↔ g.Edge a b ∧ a ∈ g'.blocks ∧ b ∈ g'.blocks

namespace Trims

variable {g g' : FlowGraph} (h : Trims g g') {ok : BlockId → Prop} {a b p : BlockId}
  {l : NaturalLoop}

include h

theorem edge (ha : g.Reachable a) : g'.Edge a b ↔ g.Edge a b :=
  ⟨fun he => ((h.edge_iff a b).mp he).1, fun he =>
    (h.edge_iff a b).mpr ⟨he, h.live a ha, h.live b (ha.edge he)⟩⟩

theorem via_iff (ha : g.Reachable a) : g'.Via ok a b ↔ g.Via ok a b := by
  constructor
  · intro hv
    refine hv.rec_on (.refl (h.blocks a hv.live_start) hv.start) fun x y he _ hy hx => ?_
    exact hx.snoc ((h.edge_iff x y).mp he).1 hy
  · intro hv
    refine (hv.rec_on (motive := fun x => g.Reachable x ∧ g'.Via ok a x)
      ⟨ha, .refl (h.live a ha) hv.start⟩ fun x y he _ hy hx => ?_).2
    exact ⟨hx.1.edge he, hx.2.snoc ((h.edge hx.1).mpr he) hy⟩

theorem entry_via_iff :
    (∃ e, g'.entry? = some e ∧ g'.Via ok e b) ↔ ∃ e, g.entry? = some e ∧ g.Via ok e b := by
  rw [h.entry_eq]
  refine exists_congr fun e => and_congr_right fun he => ?_
  have hentry (hlive : e ∈ g.blocks) : g.Reachable e := ⟨e, he, .refl hlive trivial⟩
  exact ⟨fun hv => (h.via_iff (hentry (h.blocks e hv.live_start))).mp hv,
    fun hv => (h.via_iff (hentry hv.live_start)).mpr hv⟩

theorem reachable_iff : g'.Reachable b ↔ g.Reachable b := h.entry_via_iff

theorem dominates_iff : g'.Dominates a b ↔ g.Dominates a b := by
  rw [← not_iff_not, not_dominates_iff, not_dominates_iff]
  exact h.entry_via_iff

theorem backEdge_iff : g'.BackEdge p b ↔ g.BackEdge p b := by
  unfold BackEdge
  rw [h.reachable_iff, h.dominates_iff]
  constructor
  · rintro ⟨he, hp, hd⟩
    exact ⟨(h.edge hp).mp he, hp, hd⟩
  · rintro ⟨he, hp, hd⟩
    exact ⟨(h.edge hp).mpr he, hp, hd⟩

theorem isLoop_iff : IsLoop g' l ↔ IsLoop g l := by
  have hmem (b : BlockId) : (g'.Reachable b ∧ ∃ p ∈ l.latches, g'.Via (· ≠ l.header) b p) ↔
      g.Reachable b ∧ ∃ p ∈ l.latches, g.Via (· ≠ l.header) b p := by
    rw [h.reachable_iff]
    exact and_congr_right fun hb => exists_congr fun p => and_congr_right fun _ => h.via_iff hb
  constructor
  · rintro ⟨hr, hlatches, hne, hblocks⟩
    exact ⟨h.reachable_iff.mp hr, fun p => (hlatches p).trans h.backEdge_iff, hne,
      fun b => (hblocks b).trans (or_congr_right (hmem b))⟩
  · rintro ⟨hr, hlatches, hne, hblocks⟩
    exact ⟨h.reachable_iff.mpr hr, fun p => (hlatches p).trans h.backEdge_iff.symm, hne,
      fun b => (hblocks b).trans (or_congr_right (hmem b)).symm⟩

theorem innermost_iff : Innermost g' l ↔ Innermost g l := by
  constructor
  · rintro ⟨hl, hm⟩
    exact ⟨h.isLoop_iff.mp hl, fun m hm' => hm m (h.isLoop_iff.mpr hm')⟩
  · rintro ⟨hl, hm⟩
    exact ⟨h.isLoop_iff.mpr hl, fun m hm' => hm m (h.isLoop_iff.mp hm')⟩

end Trims

end FlowGraph

end LoopNest
