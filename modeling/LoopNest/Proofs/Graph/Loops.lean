import LoopNest.Loop.Forest
import LoopNest.Proofs.Graph.Dominance
import Mathlib.Data.List.Nodup

/-!
# Natural loops

`IsLoop` says what a natural loop is in terms of paths: its header is reachable, its
latches are the reachable blocks with an edge to the header that the header dominates, and
its blocks are the header and the reachable blocks that lead to a latch around the header.
Every loop of the forest is one, and every back edge belongs to a loop of the forest.

The header dominates the whole loop, and a block other than the header is entered from
inside only.  Two loops with different headers are disjoint or one lies inside the other
(`IsLoop.subset_of_dominates`).  Hence the parent of a loop surrounds it
(`LoopForest.parent_surrounds`), and no back edge leads to a block of an innermost loop
other than its header (`LoopForest.innermost_backEdge`).
-/

namespace LoopNest

namespace FlowGraph

/-- An edge between reachable blocks that leads to a block which dominates its source. -/
def BackEdge (g : FlowGraph) (p h : BlockId) : Prop :=
  g.Edge p h ∧ g.Reachable p ∧ g.Dominates h p

variable {g : FlowGraph}

/-! ## The graph turned around -/

theorem blocks_backward (g : FlowGraph) : g.backward.blocks = g.reversePostOrder := by
  simp [backward, blocks, Function.comp_def]

theorem edge_backward (hg : g.Coherent) {a b : BlockId} :
    g.backward.Edge a b ↔ g.Edge b a ∧ g.Reachable a ∧ g.Reachable b := by
  have hsucc : g.backward.successors a =
      if a ∈ g.reversePostOrder then
        (g.predecessors a).filter g.reversePostOrder.contains else [] := by
    unfold successors backward
    rw [lookup_map_self]
    split <;> rfl
  unfold Edge
  rw [hsucc, blocks_backward]
  constructor
  · rintro ⟨ha, hb, hs⟩
    rw [if_pos ha] at hs
    obtain ⟨hs, _⟩ := List.mem_filter.mp hs
    have ha := mem_reversePostOrder.mp ha
    exact ⟨(hg.edge ha.live).mp hs, ha, mem_reversePostOrder.mp hb⟩
  · rintro ⟨he, ha, hb⟩
    refine ⟨mem_reversePostOrder.mpr ha, mem_reversePostOrder.mpr hb, ?_⟩
    rw [if_pos (mem_reversePostOrder.mpr ha)]
    refine List.mem_filter.mpr ⟨(hg.edge ha.live).mpr he, ?_⟩
    exact List.contains_iff_mem.mpr (mem_reversePostOrder.mpr hb)

/-- A path in the graph turned around is a path between reachable blocks. -/
theorem via_backward (hg : g.Coherent) {ok : BlockId → Prop} {a b : BlockId} :
    g.backward.Via ok a b ↔ g.Reachable b ∧ g.Via ok b a := by
  constructor
  · intro h
    have hb : g.Reachable b := mem_reversePostOrder.mp (blocks_backward g ▸ h.live_stop)
    refine ⟨hb, ?_⟩
    exact h.rec_back (motive := fun x => g.Via ok b x) (.refl hb.live h.stop)
      fun x y he hx _ hv => hv.snoc ((edge_backward hg).mp he).1 hx
  · rintro ⟨hb, hv⟩
    have hlive : b ∈ g.backward.blocks := by
      rw [blocks_backward]
      exact mem_reversePostOrder.mpr hb
    refine (hv.rec_on (motive := fun x => g.Reachable x ∧ g.backward.Via ok x b)
      ⟨hb, .refl hlive hv.start⟩ fun x y he _ hy hx => ?_).2
    exact ⟨hx.1.edge he, .cons ((edge_backward hg).mpr ⟨he, hx.1.edge he, hx.1⟩) hy hx.2⟩

end FlowGraph

open FlowGraph

/-! ## What a natural loop is -/

/-- A natural loop of a graph. -/
structure IsLoop (g : FlowGraph) (l : NaturalLoop) : Prop where
  /-- The header can be reached. -/
  reachable : g.Reachable l.header
  /-- The latches close a cycle that the header dominates. -/
  mem_latches : ∀ p, p ∈ l.latches ↔
    g.Edge p l.header ∧ g.Reachable p ∧ g.Dominates l.header p
  /-- There is a latch. -/
  latches_ne : l.latches ≠ []
  /-- The blocks lead to a latch around the header. -/
  mem_blocks : ∀ b, b ∈ l.blocks ↔
    b = l.header ∨ (g.Reachable b ∧ ∃ p ∈ l.latches, g.Via (· ≠ l.header) b p)

namespace IsLoop

variable {g : FlowGraph} {l m : NaturalLoop} {a b : BlockId}

theorem header_mem (h : IsLoop g l) : l.header ∈ l.blocks := (h.mem_blocks _).mpr (.inl rfl)

theorem latch_mem (h : IsLoop g l) {p : BlockId} (hp : p ∈ l.latches) : p ∈ l.blocks := by
  by_cases hh : p = l.header
  · rw [hh]
    exact h.header_mem
  · obtain ⟨_, hr, _⟩ := (h.mem_latches p).mp hp
    exact (h.mem_blocks p).mpr (.inr ⟨hr, p, hp, .refl hr.live hh⟩)

theorem reachable_mem (h : IsLoop g l) (hb : b ∈ l.blocks) : g.Reachable b := by
  rcases (h.mem_blocks b).mp hb with rfl | ⟨hr, _⟩
  · exact h.reachable
  · exact hr

/-- The header dominates the loop. -/
theorem dominates (h : IsLoop g l) (hb : b ∈ l.blocks) : g.Dominates l.header b := by
  rcases (h.mem_blocks b).mp hb with rfl | ⟨_, p, hp, hv⟩
  · exact .refl
  · exact ((h.mem_latches p).mp hp).2.2.of_via hv

/-- A block of the loop other than the header is entered from inside the loop. -/
theorem mem_of_edge (h : IsLoop g l) (hb : b ∈ l.blocks) (hne : b ≠ l.header)
    (he : g.Edge a b) (ha : g.Reachable a) : a ∈ l.blocks := by
  by_cases hah : a = l.header
  · rw [hah]
    exact h.header_mem
  · rcases (h.mem_blocks b).mp hb with hb | ⟨_, p, hp, hv⟩
    · exact absurd hb hne
    · exact (h.mem_blocks a).mpr (.inr ⟨ha, p, hp, .cons he hah hv⟩)

/-- A path that reaches a block of the loop around the header stays inside. -/
theorem path_mem (h : IsLoop g l) {trail : List BlockId} (hp : g.Path a b trail)
    (ha : g.Reachable a) (hok : ∀ x ∈ trail, x ≠ l.header) (hb : b ∈ l.blocks) :
    ∀ x ∈ trail, x ∈ l.blocks := by
  induction hp with
  | here _ =>
    intro x hx
    rw [List.mem_singleton.mp hx]
    exact hb
  | @step a c b trail he hp ih =>
    have hrest := ih (ha.edge he) (fun x hx => hok x (List.mem_cons_of_mem _ hx)) hb
    intro x hx
    rcases List.mem_cons.mp hx with rfl | hx
    · exact h.mem_of_edge (hrest c hp.mem_start) (hok c (List.mem_cons_of_mem _ hp.mem_start)) he ha
    · exact hrest x hx

theorem via_mem (h : IsLoop g l) (ha : g.Reachable a) (hv : g.Via (· ≠ l.header) a b)
    (hb : b ∈ l.blocks) : g.Via (fun x => x ≠ l.header ∧ x ∈ l.blocks) a b := by
  obtain ⟨trail, hp, hok⟩ := hv
  exact ⟨trail, hp, fun x hx => ⟨hok x hx, h.path_mem hp ha hok hb x hx⟩⟩

/-- From the header a path inside the loop leads to each of its blocks, and does not come
back to the header. -/
theorem via_from_header (h : IsLoop g l) (hb : b ∈ l.blocks) (hne : b ≠ l.header) :
    ∃ c, g.Edge l.header c ∧ g.Via (fun x => x ≠ l.header ∧ x ∈ l.blocks) c b := by
  obtain ⟨e, he, trail, hp, _⟩ := h.reachable_mem hb
  rcases hp.last (h.dominates hb e trail he hp) with heq | ⟨c, hc, hv⟩
  · exact absurd heq.symm hne
  · exact ⟨c, hc, h.via_mem (h.reachable.edge hc) (hv.mono fun _ hy => hy.1) hb⟩

/-- Each block of the loop other than the header leads to a latch inside the loop. -/
theorem via_to_latch (h : IsLoop g l) (hb : b ∈ l.blocks) (hne : b ≠ l.header) :
    ∃ p ∈ l.latches, g.Via (fun x => x ≠ l.header ∧ x ∈ l.blocks) b p := by
  rcases (h.mem_blocks b).mp hb with hb | ⟨hr, p, hp, hv⟩
  · exact absurd hb hne
  · exact ⟨p, hp, h.via_mem hr hv (h.latch_mem hp)⟩

/-- What the header dominates, and what dominates a block of the loop, is in the loop. -/
theorem mem_of_between {d : BlockId} (h : IsLoop g l) (hb : b ∈ l.blocks)
    (hd : g.Dominates l.header d) (hdb : g.Dominates d b) : d ∈ l.blocks := by
  by_cases hdh : d = l.header
  · rw [hdh]
    exact h.header_mem
  · have hnot : ¬ g.Dominates d l.header := fun hdom => hdh (hdom.antisymm hd h.reachable)
    have hbh : b ≠ l.header := fun heq => hnot (heq ▸ hdb)
    -- Were it outside, the header and the blocks of the loop would lead around it.
    by_contra hout
    obtain ⟨e, he, hvia⟩ := not_dominates_iff.mp hnot
    obtain ⟨c, hc, hcb⟩ := h.via_from_header hb hbh
    have hcb : g.Via (· ≠ d) c b := hcb.mono fun x hx heq => hout (heq ▸ hx.2)
    exact not_dominates_iff.mpr ⟨e, he, (hvia.snoc hc hcb.start).trans hcb⟩ hdb

/-- A loop is determined by its header. -/
theorem mem_of_header_eq (hl : IsLoop g l) (hm : IsLoop g m) (heq : l.header = m.header)
    (hb : b ∈ l.blocks) : b ∈ m.blocks := by
  rcases (hl.mem_blocks b).mp hb with rfl | ⟨hr, p, hp, hv⟩
  · exact heq ▸ hm.header_mem
  · refine (hm.mem_blocks b).mpr (.inr ⟨hr, p, ?_, heq ▸ hv⟩)
    exact (hm.mem_latches p).mpr (heq ▸ (hl.mem_latches p).mp hp)

/-- Of two loops with a common block, the one whose header dominates the other header
surrounds the other. -/
theorem subset_of_dominates (hl : IsLoop g l) (hm : IsLoop g m) (hne : l.header ≠ m.header)
    (hd : g.Dominates l.header m.header) (hbl : b ∈ l.blocks) (hbm : b ∈ m.blocks) :
    l.header ∉ m.blocks ∧ ∀ c ∈ m.blocks, c ∈ l.blocks := by
  have hout : l.header ∉ m.blocks := fun hmem =>
    hne (hd.antisymm (hm.dominates hmem) hm.reachable)
  refine ⟨hout, ?_⟩
  -- The inner header leads to the common block inside the inner loop, so around the outer
  -- header, and from there to a latch of the outer loop.
  have hnb : b ≠ l.header := fun h => hout (h ▸ hbm)
  obtain ⟨p, hp, hbp⟩ := hl.via_to_latch hbl hnb
  have havoid : ∀ x, x ≠ m.header ∧ x ∈ m.blocks → x ≠ l.header :=
    fun x hx h => hout (h ▸ hx.2)
  have hmp : g.Via (· ≠ l.header) m.header p := by
    by_cases hbh : b = m.header
    · rw [← hbh]
      exact hbp.mono fun _ hx => hx.1
    · obtain ⟨c, hc, hv⟩ := hm.via_from_header hbm hbh
      exact .cons hc (Ne.symm hne) ((hv.mono havoid).trans (hbp.mono fun _ hx => hx.1))
  intro c hc
  refine (hl.mem_blocks c).mpr (.inr ⟨hm.reachable_mem hc, p, hp, ?_⟩)
  by_cases hch : c = m.header
  · rw [hch]
    exact hmp
  · obtain ⟨q, hq, hv⟩ := hm.via_to_latch hc hch
    exact (hv.mono havoid).trans
      (.cons ((hm.mem_latches q).mp hq).1 (havoid q hv.stop) hmp)

end IsLoop

/-! ## Loops of the forest -/

namespace LoopForest

variable {g : FlowGraph}

theorem mem_latchesOf (hg : g.Coherent) {h p : BlockId} (hl : h ∈ g.blocks) :
    p ∈ latchesOf g (.ofGraph g) h ↔ g.Edge p h ∧ g.Reachable p ∧ g.Dominates h p := by
  unfold latchesOf
  have hd := DomTree.settled_ofGraph hg
  rw [List.mem_filter, hg.edge hl, Bool.and_eq_true, hd.isReachable_iff, hd.dominates_iff]

theorem loopAt?_eq_some {back : FlowGraph} {dom : DomTree} {h : BlockId} {l : NaturalLoop} :
    loopAt? g back dom h = some l ↔ latchesOf g dom h ≠ [] ∧
      l = ⟨h, latchesOf g dom h,
        g.blocks.filter (membersOf back h (latchesOf g dom h)).contains⟩ := by
  simp only [loopAt?, List.isEmpty_iff]
  by_cases hn : latchesOf g dom h = []
  · simp [hn]
  · simp [hn, eq_comm]

theorem isLoop_loopAt (hg : g.Coherent) {h : BlockId} {l : NaturalLoop} (hr : g.Reachable h)
    (hl : loopAt? g g.backward (.ofGraph g) h = some l) : l.header = h ∧ IsLoop g l := by
  obtain ⟨hne, rfl⟩ := loopAt?_eq_some.mp hl
  refine ⟨rfl, hr, fun p => mem_latchesOf hg hr.live, hne, fun b => ?_⟩
  have hmem := visited_searchFrom g.backward (latchesOf g (.ofGraph g) h) [h] b
  simp only [List.mem_singleton, via_backward hg] at hmem
  rw [List.mem_filter]
  constructor
  · rintro ⟨_, hb⟩
    rcases hmem.mp hb with rfl | ⟨p, hp, hrb, hv⟩
    · exact .inl rfl
    · exact .inr ⟨hrb, p, hp, hv⟩
  · rintro (rfl | ⟨hrb, p, hp, hv⟩)
    · exact ⟨hr.live, hmem.mpr (.inl rfl)⟩
    · exact ⟨hrb.live, hmem.mpr (.inr ⟨p, hp, hrb, hv⟩)⟩

variable (g) in
/-- The forest of a graph. -/
abbrev forest : LoopForest := ofGraph g (.ofGraph g)

theorem lt_of_mem_ids {t : LoopForest} {i : LoopId} (hi : i ∈ t.ids) : i < t.loops.size :=
  List.mem_range.mp hi

theorem loops_toList (g : FlowGraph) : (forest g).loops.toList =
    g.reversePostOrder.filterMap (loopAt? g g.backward (.ofGraph g)) := rfl

theorem loop_mem {t : LoopForest} {i : LoopId} (hi : i ∈ t.ids) :
    t.loop i ∈ t.loops.toList := by
  have hlt := lt_of_mem_ids hi
  simp only [loop, Array.getElem?_eq_getElem hlt, Option.getD_some]
  exact Array.getElem_mem_toList hlt

theorem mem_headers_iff {t : LoopForest} {b : BlockId} :
    b ∈ t.loops.toList.map NaturalLoop.header ↔ ∃ i ∈ t.ids, (t.loop i).header = b := by
  rw [List.mem_map]
  constructor
  · rintro ⟨l, hl, hb⟩
    obtain ⟨i, hi, rfl⟩ := List.getElem_of_mem hl
    rw [Array.length_toList] at hi
    refine ⟨i, List.mem_range.mpr hi, ?_⟩
    rw [loop, Array.getElem?_eq_getElem hi]
    exact hb
  · rintro ⟨i, hi, hb⟩
    exact ⟨_, loop_mem hi, hb⟩

theorem isLoop_loop (hg : g.Coherent) {i : LoopId} (hi : i ∈ (forest g).ids) :
    IsLoop g ((forest g).loop i) := by
  have h := loop_mem hi
  rw [loops_toList] at h
  obtain ⟨b, hb, hl⟩ := List.mem_filterMap.mp h
  exact (isLoop_loopAt hg (mem_reversePostOrder.mp hb) hl).2

/-- The blocks of a loop come in layout order. -/
theorem blocks_loop {i : LoopId} (hi : i ∈ (forest g).ids) :
    ∃ p, ((forest g).loop i).blocks = g.blocks.filter p := by
  have h := loop_mem hi
  rw [loops_toList] at h
  obtain ⟨b, _, hl⟩ := List.mem_filterMap.mp h
  exact ⟨_, congrArg NaturalLoop.blocks (loopAt?_eq_some.mp hl).2⟩

/-- Every back edge belongs to a loop of the forest. -/
theorem exists_loop (hg : g.Coherent) {h p : BlockId} (he : g.Edge p h) (hp : g.Reachable p)
    (hd : g.Dominates h p) : ∃ i ∈ (forest g).ids, ((forest g).loop i).header = h := by
  have hr : g.Reachable h := hp.edge he
  have hne : latchesOf g (.ofGraph g) h ≠ [] := by
    intro hnil
    have := (mem_latchesOf hg hr.live).mpr ⟨he, hp, hd⟩
    rw [hnil] at this
    exact List.not_mem_nil this
  obtain ⟨l, hl⟩ : ∃ l, loopAt? g g.backward (.ofGraph g) h = some l :=
    ⟨_, loopAt?_eq_some.mpr ⟨hne, rfl⟩⟩
  have hmem : l ∈ (forest g).loops.toList := by
    rw [loops_toList]
    exact List.mem_filterMap.mpr ⟨h, mem_reversePostOrder.mpr hr, hl⟩
  obtain ⟨i, hi, heq⟩ := List.mem_iff_getElem.mp hmem
  refine ⟨i, List.mem_range.mpr (by simpa using hi), ?_⟩
  have hlt : i < (forest g).loops.size := by simpa using hi
  simp only [loop, Array.getElem?_eq_getElem hlt, Option.getD_some]
  rw [← Array.getElem_toList, heq]
  exact (isLoop_loopAt hg hr hl).1

/-- Every loop is in the forest. -/
theorem exists_of_isLoop (hg : g.Coherent) {l : NaturalLoop} (hl : IsLoop g l) :
    ∃ i ∈ (forest g).ids, ((forest g).loop i).header = l.header ∧
      ∀ b, b ∈ ((forest g).loop i).blocks ↔ b ∈ l.blocks := by
  obtain ⟨p, hp⟩ := List.exists_mem_of_ne_nil _ hl.latches_ne
  obtain ⟨he, hr, hd⟩ := (hl.mem_latches p).mp hp
  obtain ⟨i, hi, heq⟩ := exists_loop hg he hr hd
  have hi' := isLoop_loop hg hi
  exact ⟨i, hi, heq, fun b => ⟨hi'.mem_of_header_eq hl heq, hl.mem_of_header_eq hi' heq.symm⟩⟩

/-- The headers come in reverse post-order. -/
theorem headers_sublist (g back : FlowGraph) (dom : DomTree) : ∀ bs : List BlockId,
    ((bs.filterMap (loopAt? g back dom)).map NaturalLoop.header).Sublist bs
  | [] => .slnil
  | b :: bs => by
    rw [List.filterMap_cons]
    cases hb : loopAt? g back dom b with
    | none => exact (headers_sublist g back dom bs).cons b
    | some l =>
      have hh : l.header = b := congrArg NaturalLoop.header (loopAt?_eq_some.mp hb).2
      rw [List.map_cons, hh]
      exact (headers_sublist g back dom bs).cons_cons b

theorem nodup_headers (g : FlowGraph) : ((forest g).loops.toList.map NaturalLoop.header).Nodup :=
  (headers_sublist g g.backward (.ofGraph g) g.reversePostOrder).nodup (nodup_reversePostOrder g)

/-- Loops are numbered in the order of their headers. -/
theorem pos_header_lt {i j : LoopId} (hj : j ∈ (forest g).ids) (hij : i < j) :
    g.pos ((forest g).loop i).header < g.pos ((forest g).loop j).header := by
  have hj' := lt_of_mem_ids hj
  have hi' : i < (forest g).loops.size := Nat.lt_trans hij hj'
  have hpair := (pairwise_pos g).sublist
    (headers_sublist g g.backward (.ofGraph g) g.reversePostOrder)
  rw [← loops_toList] at hpair
  have := List.pairwise_iff_getElem.mp hpair i j (by simpa using hi') (by simpa using hj') hij
  simpa [loop, Array.getElem?_eq_getElem hi', Array.getElem?_eq_getElem hj'] using this

/-- Different loops have different headers. -/
theorem header_injective {i j : LoopId} (hi : i ∈ (forest g).ids) (hj : j ∈ (forest g).ids)
    (h : ((forest g).loop i).header = ((forest g).loop j).header) : i = j := by
  have hnd := nodup_headers g
  have hi' := lt_of_mem_ids hi
  have hj' := lt_of_mem_ids hj
  simp only [loop, Array.getElem?_eq_getElem hi', Array.getElem?_eq_getElem hj',
    Option.getD_some] at h
  have hlen : ((forest g).loops.toList.map NaturalLoop.header).length = (forest g).loops.size := by
    simp
  have hget := hnd.get_inj_iff (i := ⟨i, hlen ▸ hi'⟩) (j := ⟨j, hlen ▸ hj'⟩)
  exact Fin.mk.inj (hget.mp (by simpa using h))

/-- What the smallest of some loops is: one of them, and none is smaller. -/
def IsSmallest (t : LoopForest) (ls : List LoopId) : Option LoopId → Prop
  | none => ls = []
  | some b => b ∈ ls ∧ ∀ x ∈ ls, t.size b ≤ t.size x

theorem isSmallest_smallest (t : LoopForest) (ls : List LoopId) :
    t.IsSmallest ls (t.smallest ls) := by
  unfold smallest
  suffices key : ∀ (ls seen : List LoopId) (best : Option LoopId), t.IsSmallest seen best →
      t.IsSmallest (seen ++ ls) (ls.foldl (fun best l => match best with
          | none => some l
          | some b => if t.size l < t.size b then some l else best) best) by
    exact key ls [] none rfl
  intro ls
  induction ls with
  | nil =>
    intro seen best h
    rw [List.append_nil]
    exact h
  | cons l ls ih =>
    intro seen best h
    rw [List.foldl_cons, List.append_cons]
    apply ih
    cases best with
    | none =>
      cases h
      exact ⟨List.mem_singleton.mpr rfl, fun x hx => List.mem_singleton.mp hx ▸ Nat.le_refl _⟩
    | some b =>
      obtain ⟨hb, hle⟩ := h
      dsimp only
      split
      · rename_i hlt
        refine ⟨List.mem_append_right _ (List.mem_singleton.mpr rfl), fun x hx => ?_⟩
        rcases List.mem_append.mp hx with hx | hx
        · exact Nat.le_trans (Nat.le_of_lt hlt) (hle x hx)
        · exact List.mem_singleton.mp hx ▸ Nat.le_refl _
      · rename_i hlt
        refine ⟨List.mem_append_left _ hb, fun x hx => ?_⟩
        rcases List.mem_append.mp hx with hx | hx
        · exact hle x hx
        · rw [List.mem_singleton.mp hx]
          exact Nat.le_of_not_lt hlt

theorem mem_parentCandidates {t : LoopForest} {l o : LoopId} :
    o ∈ (t.ids.filter fun o =>
      o != l && t.size l < t.size o && (t.loop o).contains (t.loop l).header) ↔
      o ∈ t.ids ∧ o ≠ l ∧ t.size l < t.size o ∧ (t.loop l).header ∈ (t.loop o).blocks := by
  simp [List.mem_filter, NaturalLoop.contains, and_assoc]

/-- A loop inside another one is smaller. -/
theorem size_lt {i j : LoopId} (hi : i ∈ (forest g).ids) (hj : j ∈ (forest g).ids)
    (hsub : ∀ c ∈ ((forest g).loop i).blocks, c ∈ ((forest g).loop j).blocks)
    {b : BlockId} (hbj : b ∈ ((forest g).loop j).blocks)
    (hbi : b ∉ ((forest g).loop i).blocks) : (forest g).size i < (forest g).size j := by
  unfold size
  obtain ⟨p, hp⟩ := blocks_loop hi
  obtain ⟨q, hq⟩ := blocks_loop hj
  rw [hp] at hsub hbi ⊢
  rw [hq] at hsub hbj ⊢
  obtain ⟨hbl, hqb⟩ := List.mem_filter.mp hbj
  have hpb : ¬ p b = true := fun h => hbi (List.mem_filter.mpr ⟨hbl, h⟩)
  have hs : (g.blocks.filter p).Sublist ((g.blocks.filter q).filter (· ≠ b)) := by
    rw [List.filter_filter]
    have heq : g.blocks.filter p =
        g.blocks.filter fun c => p c && (decide (c ≠ b) && q c) := by
      refine List.filter_congr fun c hc => ?_
      cases hpc : p c with
      | false => rfl
      | true =>
        have hqc := (List.mem_filter.mp (hsub c (List.mem_filter.mpr ⟨hc, hpc⟩))).2
        have hcb : c ≠ b := fun h => hpb (h ▸ hpc)
        simp [hqc, hcb]
    rw [heq]
    exact List.monotone_filter_right g.blocks fun c hc => (Bool.and_eq_true _ _ ▸ hc).2
  refine Nat.lt_of_le_of_lt hs.length_le ?_
  rw [List.length_filter_lt_length_iff_exists]
  exact ⟨b, hbj, by simp⟩

/-- A loop whose header lies in another loop is inside it, or around it with its header
outside. -/
theorem surrounds_of_header_mem (hg : g.Coherent) {i j : LoopId} (hi : i ∈ (forest g).ids)
    (hj : j ∈ (forest g).ids) (hne : i ≠ j)
    (hmem : ((forest g).loop i).header ∈ ((forest g).loop j).blocks) :
    ((forest g).loop j).header ∉ ((forest g).loop i).blocks ∧
      ∀ c ∈ ((forest g).loop i).blocks, c ∈ ((forest g).loop j).blocks := by
  have hli := isLoop_loop hg hi
  have hlj := isLoop_loop hg hj
  have hh : ((forest g).loop j).header ≠ ((forest g).loop i).header :=
    fun h => hne (header_injective hi hj h.symm)
  exact hlj.subset_of_dominates hli hh (hlj.dominates hmem) hmem hli.header_mem

/-- The parent of a loop surrounds it. -/
theorem parent_surrounds (hg : g.Coherent) {i j : LoopId} (hi : i ∈ (forest g).ids)
    (hp : (forest g).parent? i = some j) :
    j ∈ (forest g).ids ∧ ((forest g).loop j).header ∉ ((forest g).loop i).blocks ∧
      ∀ c ∈ ((forest g).loop i).blocks, c ∈ ((forest g).loop j).blocks := by
  have h := isSmallest_smallest (forest g) ((forest g).ids.filter fun o =>
    o != i && (forest g).size i < (forest g).size o &&
      ((forest g).loop o).contains ((forest g).loop i).header)
  rw [show (forest g).smallest _ = some j from hp] at h
  obtain ⟨hj, hne, _, hmem⟩ := mem_parentCandidates.mp h.1
  exact ⟨hj, surrounds_of_header_mem hg hi hj (Ne.symm hne) hmem⟩

/-- The header of a loop does not dominate the headers of the loops before. -/
theorem not_dominates_of_lt (hg : g.Coherent) {i j : LoopId} (hj : j ∈ (forest g).ids)
    (hij : i < j) : ¬ g.Dominates ((forest g).loop j).header ((forest g).loop i).header := by
  intro hd
  have hi : i ∈ (forest g).ids := List.mem_range.mpr (Nat.lt_trans hij (lt_of_mem_ids hj))
  have hle := hd.pos_le (mem_reversePostOrder.mpr (isLoop_loop hg hi).reachable)
  exact absurd (pos_header_lt hj hij) (Nat.not_lt.mpr hle)

/-- Inside a loop that contains the header of another loop there is a child of it. -/
theorem exists_child (hg : g.Coherent) {j : LoopId} (hj : j ∈ (forest g).ids) :
    ∀ (n : Nat) {i : LoopId}, i ∈ (forest g).ids → i ≠ j →
      ((forest g).loop i).header ∈ ((forest g).loop j).blocks →
      (forest g).size j ≤ n + (forest g).size i → (forest g).children j ≠ [] := by
  intro n
  induction n with
  | zero =>
    intro i hi hne hmem hn
    obtain ⟨hout, hsub⟩ := surrounds_of_header_mem hg hi hj hne hmem
    have := size_lt hi hj hsub (isLoop_loop hg hj).header_mem hout
    omega
  | succ n ih =>
    intro i hi hne hmem hn
    obtain ⟨hout, hsub⟩ := surrounds_of_header_mem hg hi hj hne hmem
    have hlt := size_lt hi hj hsub (isLoop_loop hg hj).header_mem hout
    have h := isSmallest_smallest (forest g) ((forest g).ids.filter fun o =>
      o != i && (forest g).size i < (forest g).size o &&
        ((forest g).loop o).contains ((forest g).loop i).header)
    have hjc := mem_parentCandidates.mpr ⟨hj, Ne.symm hne, hlt, hmem⟩
    cases hp : (forest g).parent? i with
    | none =>
      rw [show (forest g).smallest _ = none from hp] at h
      rw [show ((forest g).ids.filter _) = [] from h] at hjc
      exact absurd hjc List.not_mem_nil
    | some p =>
      rw [show (forest g).smallest _ = some p from hp] at h
      obtain ⟨hpc, hmin⟩ := h
      by_cases hpj : p = j
      · subst hpj
        intro hnil
        have : i ∈ (forest g).children p := List.mem_filter.mpr ⟨hi, by simp [hp]⟩
        rw [hnil] at this
        exact List.not_mem_nil this
      · -- The parent is a larger loop that still lies inside, as both hold the inner header.
        obtain ⟨hpi, hpne, hpsize, hpmem⟩ := mem_parentCandidates.mp hpc
        have hple := hmin j hjc
        have hin : ((forest g).loop p).header ∈ ((forest g).loop j).blocks := by
          have hlp := isLoop_loop hg hpi
          have hlj := isLoop_loop hg hj
          have hh : ((forest g).loop p).header ≠ ((forest g).loop j).header :=
            fun h => hpj (header_injective hpi hj h)
          rcases (hlp.dominates hpmem).total (hlj.dominates hmem)
              (isLoop_loop hg hi).reachable with hd | hd
          · obtain ⟨hout', hsub'⟩ := hlp.subset_of_dominates hlj hh hd hpmem hmem
            have := size_lt hj hpi hsub' hlp.header_mem hout'
            omega
          · exact (hlj.subset_of_dominates hlp (Ne.symm hh) hd hmem hpmem).2 _ hlp.header_mem
        exact ih hpi hpj hin (by omega)

/-- No back edge leads to a block of an innermost loop other than its header. -/
theorem innermost_backEdge (hg : g.Coherent) {j : LoopId} (hj : j ∈ (forest g).innermost)
    {x p : BlockId} (hx : x ∈ ((forest g).loop j).blocks)
    (hne : x ≠ ((forest g).loop j).header) (he : g.Edge p x) (hp : g.Reachable p) :
    ¬ g.Dominates x p := by
  intro hd
  obtain ⟨hji, hnil⟩ := List.mem_filter.mp hj
  obtain ⟨i, hi, hh⟩ := exists_loop hg he hp hd
  have hij : i ≠ j := by
    rintro rfl
    exact hne hh.symm
  refine exists_child hg hji _ hi hij (hh ▸ hx) (Nat.le_add_right _ _) ?_
  exact List.isEmpty_iff.mp hnil

end LoopForest

end LoopNest
