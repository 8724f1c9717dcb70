import LoopNest.Proofs.Graph.Nesting

/-!
# The forest against the paths

The loops of a function are what its paths say, in lists of the right order (`loops_ofFunc`): there
is one loop for each target of a back edge, and its latches and blocks are picked from the layout by
properties of paths alone.

The block sets of two loops are disjoint or nested (`disjoint_or_inside`), so the loops that contain
one block form a chain, and the smallest of them lies in all others (`smallest_eq_some_iff`).  What
the forest answers by comparing sizes is therefore the nesting of the block sets
(`isNesting_ofFunc`).  The walk from parent to parent meets every loop around a loop once
(`depthWithin_eq`).
-/

namespace LoopNest

open FlowGraph

namespace LoopForest

variable {f : Func} {i j k : LoopId} {b : BlockId}

/-! ## Latches and blocks -/

/-- A selection from a list is known by its members. -/
theorem eq_filter_of_mem_iff {xs l : List BlockId} {p : BlockId → Bool} {q : BlockId → Prop}
    [DecidablePred q] (hl : l = xs.filter p) (h : ∀ b ∈ xs, b ∈ l ↔ q b) :
    l = xs.filter fun b => q b := by
  subst hl
  refine List.filter_congr fun b hb => Bool.eq_iff_iff.mpr ?_
  rw [decide_eq_true_iff, ← h b hb, List.mem_filter]
  exact ⟨fun hp => ⟨hb, hp⟩, fun hp => hp.2⟩

/-- The latches of a loop come in layout order. -/
theorem latches_loop (hi : i ∈ (forest (.ofFunc f)).ids) :
    ∃ p, ((forest (.ofFunc f)).loop i).latches = f.layout.filter p := by
  have h := loop_mem hi
  rw [loops_toList] at h
  obtain ⟨b, _, hl⟩ := List.mem_filterMap.mp h
  rw [(loopAt?_eq_some.mp hl).2]
  exact ⟨_, by rw [latchesOf, predecessors_ofFunc, Func.predecessors, List.filter_filter]⟩

open scoped Classical in
/-- There is one loop for each block to which a back edge leads, and every loop is there for such a
block.  Its latches are the sources of the back edges.  Its blocks are the header and the reachable
blocks from which a path leads to a latch around the header, and the header dominates them.  Both
lists keep the order of the layout. -/
theorem loops_ofFunc (f : Func) :
    (∀ p h, (FlowGraph.ofFunc f).BackEdge p h →
      ∃! i, i ∈ (LoopForest.ofFunc f).ids ∧ ((LoopForest.ofFunc f).loop i).header = h) ∧
    ∀ i ∈ (LoopForest.ofFunc f).ids, ∃ h,
      ((LoopForest.ofFunc f).loop i).header = h ∧ (FlowGraph.ofFunc f).Reachable h ∧
      (∃ p, (FlowGraph.ofFunc f).BackEdge p h) ∧
      ((LoopForest.ofFunc f).loop i).latches =
        f.layout.filter (fun p => (FlowGraph.ofFunc f).BackEdge p h) ∧
      ((LoopForest.ofFunc f).loop i).blocks =
        f.layout.filter (fun b => b = h ∨ (FlowGraph.ofFunc f).Reachable b ∧
          ∃ p, (FlowGraph.ofFunc f).BackEdge p h ∧ (FlowGraph.ofFunc f).Via (· ≠ h) b p) ∧
      ∀ b ∈ ((LoopForest.ofFunc f).loop i).blocks, (FlowGraph.ofFunc f).Dominates h b := by
  have hg := coherent_ofFunc f
  refine ⟨fun p h ⟨he, hp, hd⟩ => ?_, fun i hi => ?_⟩
  · obtain ⟨i, hi, hh⟩ := exists_loop hg he hp hd
    exact ⟨i, ⟨hi, hh⟩, fun j ⟨hj, hjh⟩ => header_injective hj hi (hjh.trans hh.symm)⟩
  · have hl := isLoop_loop hg hi
    obtain ⟨p, hp⟩ := List.exists_mem_of_ne_nil _ hl.latches_ne
    obtain ⟨_, hlatches⟩ := latches_loop hi
    obtain ⟨_, hblocks⟩ := blocks_loop hi
    rw [blocks_ofFunc] at hblocks
    refine ⟨_, rfl, hl.reachable, ⟨p, (hl.mem_latches p).mp hp⟩,
      eq_filter_of_mem_iff hlatches fun p _ => hl.mem_latches p,
      eq_filter_of_mem_iff hblocks fun b _ => (hl.mem_blocks b).trans ?_,
      fun b hb => hl.dominates hb⟩
    exact or_congr_right <| and_congr_right fun _ =>
      exists_congr fun p => and_congr_left fun _ => hl.mem_latches p

/-! ## Nesting -/

/-- One loop lies in another one, which has more blocks. -/
def Inside (t : LoopForest) (i j : LoopId) : Prop :=
  (∀ b ∈ (t.loop i).blocks, b ∈ (t.loop j).blocks) ∧
    ∃ b ∈ (t.loop j).blocks, b ∉ (t.loop i).blocks

variable {g : FlowGraph}

theorem size_lt_of_inside (hi : i ∈ (forest g).ids) (hj : j ∈ (forest g).ids)
    (h : (forest g).Inside i j) : (forest g).size i < (forest g).size j := by
  obtain ⟨hsub, b, hbj, hbi⟩ := h
  exact size_lt hi hj hsub hbj hbi

section

variable (hg : g.Coherent) (hi : i ∈ (forest g).ids) (hj : j ∈ (forest g).ids)
include hg hi hj

/-- Two loops with a common block are nested. -/
theorem inside_of_mem (hne : i ≠ j) (hbi : b ∈ ((forest g).loop i).blocks)
    (hbj : b ∈ ((forest g).loop j).blocks) :
    (forest g).Inside i j ∨ (forest g).Inside j i := by
  have hli := isLoop_loop hg hi
  have hlj := isLoop_loop hg hj
  have hh : ((forest g).loop i).header ≠ ((forest g).loop j).header :=
    fun h => hne (header_injective hi hj h)
  rcases (hli.dominates hbi).total (hlj.dominates hbj) (hli.reachable_mem hbi) with hd | hd
  · obtain ⟨hout, hsub⟩ := hli.subset_of_dominates hlj hh hd hbi hbj
    exact .inr ⟨hsub, _, hli.header_mem, hout⟩
  · obtain ⟨hout, hsub⟩ := hlj.subset_of_dominates hli (Ne.symm hh) hd hbj hbi
    exact .inl ⟨hsub, _, hlj.header_mem, hout⟩

theorem disjoint_or_inside (hne : i ≠ j) :
    (∀ b ∈ ((forest g).loop i).blocks, b ∉ ((forest g).loop j).blocks) ∨
      (forest g).Inside i j ∨ (forest g).Inside j i := by
  by_cases h : ∃ b ∈ ((forest g).loop i).blocks, b ∈ ((forest g).loop j).blocks
  · obtain ⟨b, hbi, hbj⟩ := h
    exact .inr (inside_of_mem hg hi hj hne hbi hbj)
  · exact .inl fun b hbi hbj => h ⟨b, hbi, hbj⟩

theorem inside_iff : (forest g).Inside i j ↔
    j ≠ i ∧ ((forest g).loop i).header ∈ ((forest g).loop j).blocks := by
  constructor
  · rintro ⟨hsub, b, hbj, hbi⟩
    refine ⟨?_, hsub _ (isLoop_loop hg hi).header_mem⟩
    rintro rfl
    exact hbi hbj
  · rintro ⟨hne, hmem⟩
    obtain ⟨hout, hsub⟩ := surrounds_of_header_mem hg hi hj (Ne.symm hne) hmem
    exact ⟨hsub, _, (isLoop_loop hg hj).header_mem, hout⟩

end

/-! ## Smallest loops -/

/-- Of loops that all contain one block the smallest one is smaller than all others. -/
theorem smallest_eq_some_iff (hg : g.Coherent) {ls : List LoopId}
    (hls : ∀ k ∈ ls, k ∈ (forest g).ids ∧ b ∈ ((forest g).loop k).blocks) :
    (forest g).smallest ls = some j ↔
      j ∈ ls ∧ ∀ k ∈ ls, k ≠ j → (forest g).size j < (forest g).size k := by
  have hsmall := isSmallest_smallest (forest g) ls
  have hne_size : ∀ i ∈ ls, ∀ k ∈ ls, k ≠ i → (forest g).size i ≠ (forest g).size k := by
    intro i hi k hk hne
    obtain ⟨hi, hbi⟩ := hls i hi
    obtain ⟨hk, hbk⟩ := hls k hk
    rcases inside_of_mem hg hi hk (Ne.symm hne) hbi hbk with h | h
    · exact Nat.ne_of_lt (size_lt_of_inside hi hk h)
    · exact Nat.ne_of_gt (size_lt_of_inside hk hi h)
  constructor
  · intro h
    rw [h] at hsmall
    obtain ⟨hj, hle⟩ := hsmall
    exact ⟨hj, fun k hk hne => Nat.lt_of_le_of_ne (hle k hk) (hne_size j hj k hk hne)⟩
  · rintro ⟨hj, hlt⟩
    cases h : (forest g).smallest ls with
    | none =>
      rw [h] at hsmall
      rw [show ls = [] from hsmall] at hj
      cases hj
    | some m =>
      rw [h] at hsmall
      obtain ⟨hm, hle⟩ := hsmall
      by_contra hne
      have hmj : m ≠ j := fun h => hne (congrArg some h)
      exact Nat.not_le_of_lt (hlt m hm hmj) (hle j hj)

theorem smallest_eq_none_iff (t : LoopForest) (ls : List LoopId) :
    t.smallest ls = none ↔ ls = [] := by
  have hsmall := isSmallest_smallest t ls
  constructor
  · intro h
    rw [h] at hsmall
    exact hsmall
  · rintro rfl
    rfl

section

variable (hg : g.Coherent)
include hg

theorem mem_parentCandidates_iff_inside (hi : i ∈ (forest g).ids) :
    j ∈ ((forest g).ids.filter fun o => o != i && (forest g).size i < (forest g).size o &&
      ((forest g).loop o).contains ((forest g).loop i).header) ↔
    j ∈ (forest g).ids ∧ (forest g).Inside i j := by
  rw [mem_parentCandidates_iff hg hi]
  exact and_congr_right fun hj => (inside_iff hg hi hj).symm

/-- The parent is the smallest loop around a loop. -/
theorem parent?_eq_some_iff_smallest (hi : i ∈ (forest g).ids) : (forest g).parent? i = some j ↔
    j ∈ (forest g).ids ∧ (forest g).Inside i j ∧
      ∀ k ∈ (forest g).ids, k ≠ j → (forest g).Inside i k →
        (forest g).size j < (forest g).size k := by
  unfold parent?
  rw [smallest_eq_some_iff (b := ((forest g).loop i).header) hg fun k hk => ?_]
  · simp only [mem_parentCandidates_iff_inside hg hi, and_imp, and_assoc]
    grind
  · obtain ⟨hk, hin⟩ := (mem_parentCandidates_iff_inside hg hi).mp hk
    exact ⟨hk, hin.1 _ (isLoop_loop hg hi).header_mem⟩

theorem loopOf?_eq_some_iff_smallest : (forest g).loopOf? b = some j ↔
    j ∈ (forest g).ids ∧ b ∈ ((forest g).loop j).blocks ∧
      ∀ k ∈ (forest g).ids, k ≠ j → b ∈ ((forest g).loop k).blocks →
        (forest g).size j < (forest g).size k := by
  have hmem : ∀ k, k ∈ ((forest g).ids.filter fun l => ((forest g).loop l).contains b) ↔
      k ∈ (forest g).ids ∧ b ∈ ((forest g).loop k).blocks := fun k => by
    simp [List.mem_filter, NaturalLoop.contains]
  unfold loopOf?
  rw [smallest_eq_some_iff hg fun k hk => (hmem k).mp hk]
  simp only [hmem]
  grind

end

/-! ## Depth -/

/-- The loops around a loop, itself included. -/
def around (t : LoopForest) (i : LoopId) : List LoopId :=
  t.ids.filter fun k => ∀ b ∈ (t.loop i).blocks, b ∈ (t.loop k).blocks

theorem mem_around {t : LoopForest} : k ∈ t.around i ↔
    k ∈ t.ids ∧ ∀ b ∈ (t.loop i).blocks, b ∈ (t.loop k).blocks := by
  rw [around, List.mem_filter, decide_eq_true_iff]

theorem nodup_around (t : LoopForest) (i : LoopId) : (t.around i).Nodup := List.nodup_range.filter _

section

variable (hg : g.Coherent) (hi : i ∈ (forest g).ids)
include hg hi

theorem mem_around_iff : k ∈ (forest g).around i ↔
    k = i ∨ k ∈ (forest g).ids ∧ (forest g).Inside i k := by
  rw [mem_around]
  constructor
  · rintro ⟨hk, hsub⟩
    by_cases hki : k = i
    · exact .inl hki
    · exact .inr ⟨hk, (inside_iff hg hi hk).mpr ⟨hki, hsub _ (isLoop_loop hg hi).header_mem⟩⟩
  · rintro (rfl | ⟨hk, hin⟩)
    · exact ⟨hi, fun _ hb => hb⟩
    · exact ⟨hk, hin.1⟩

/-- What is around a loop is the loop itself and what is around its parent. -/
theorem around_perm (hp : (forest g).parent? i = some j) :
    ((forest g).around i).Perm (i :: (forest g).around j) := by
  obtain ⟨⟨hj, hne, hmem⟩, hleast⟩ := (parent?_eq_some_iff hg hi).mp hp
  obtain ⟨hij, b, hbj, hbi⟩ := (inside_iff hg hi hj).mpr ⟨hne, hmem⟩
  have hout : i ∉ (forest g).around j := fun h => hbi ((mem_around.mp h).2 b hbj)
  refine (List.perm_ext_iff_of_nodup (nodup_around _ i)
    (List.nodup_cons.mpr ⟨hout, nodup_around _ j⟩)).mpr fun k => ?_
  rw [List.mem_cons, mem_around_iff hg hi]
  refine or_congr_right ⟨fun ⟨hk, hin⟩ => ?_, fun h => ?_⟩
  · obtain ⟨hki, hmemk⟩ := (inside_iff hg hi hk).mp hin
    exact mem_around.mpr ⟨hk, hleast k hk hki hmemk⟩
  · obtain ⟨hk, hsub⟩ := mem_around.mp h
    exact ⟨hk, fun c hc => hsub c (hij c hc), b, hsub b hbj, hbi⟩

end

/-- The walk to the outermost loop counts the loops around a loop. -/
theorem depthWithin_eq (hg : g.Coherent) : ∀ (n : Nat) (i : LoopId), i ∈ (forest g).ids →
    ((forest g).around i).length ≤ n →
      (forest g).depthWithin n i = ((forest g).around i).length := by
  intro n
  induction n with
  | zero =>
    intro i hi hn
    have hself := (mem_around_iff hg hi).mpr (.inl rfl)
    rw [List.length_eq_zero_iff.mp (Nat.le_zero.mp hn)] at hself
    cases hself
  | succ n ih =>
    intro i hi hn
    rw [depthWithin]
    cases hp : (forest g).parent? i with
    | none =>
      have hnone := (parent?_eq_none_iff hg hi).mp hp
      have hall : ((forest g).around i).Perm [i] := by
        refine (List.perm_ext_iff_of_nodup (nodup_around _ i) (List.nodup_singleton i)).mpr
          fun k => ?_
        rw [mem_around_iff hg hi, List.mem_singleton]
        refine or_iff_left fun ⟨hk, hin⟩ => ?_
        obtain ⟨hne, hmem⟩ := (inside_iff hg hi hk).mp hin
        exact hnone k hk hne hmem
      exact hall.length_eq.symm
    | some j =>
      have hlen := (around_perm hg hi hp).length_eq
      rw [List.length_cons] at hlen
      have hj := ((parent?_eq_some_iff hg hi).mp hp).1.1
      dsimp only
      rw [hlen, ih j hj (by omega)]

theorem length_around_le (t : LoopForest) (i : LoopId) : (t.around i).length ≤ t.loops.size := by
  have h := List.length_filter_le (fun k => ∀ b ∈ (t.loop i).blocks, b ∈ (t.loop k).blocks) t.ids
  rwa [ids, List.length_range] at h

/-! ## The forest of a function -/

/-- What a forest answers is the nesting of the block sets of its loops. -/
structure IsNesting (t : LoopForest) : Prop where
  /-- Two loops are disjoint or nested. -/
  disjoint_or_inside : ∀ i ∈ t.ids, ∀ j ∈ t.ids, i ≠ j →
    (∀ b ∈ (t.loop i).blocks, b ∉ (t.loop j).blocks) ∨ t.Inside i j ∨ t.Inside j i
  /-- The parent is the one smallest loop around a loop. -/
  parent?_eq_some_iff : ∀ i ∈ t.ids, ∀ j, t.parent? i = some j ↔
    j ∈ t.ids ∧ t.Inside i j ∧ ∀ k ∈ t.ids, k ≠ j → t.Inside i k → t.size j < t.size k
  parent?_eq_none_iff : ∀ i ∈ t.ids, t.parent? i = none ↔ ∀ k ∈ t.ids, ¬ t.Inside i k
  /-- The children are the loops with that parent, each once. -/
  nodup_children : ∀ i, (t.children i).Nodup
  mem_children_iff : ∀ i j, j ∈ t.children i ↔ j ∈ t.ids ∧ t.parent? j = some i
  /-- The top level are the loops without a parent, each once. -/
  nodup_topLevel : t.topLevel.Nodup
  mem_topLevel_iff : ∀ i, i ∈ t.topLevel ↔ i ∈ t.ids ∧ t.parent? i = none
  /-- The walk along the parents ends within as many turns as there are loops. -/
  depthWithin_eq : ∀ i ∈ t.ids, ∀ n, t.loops.size ≤ n → t.depthWithin n i = t.depth i
  /-- The depth is the number of loops around a loop, itself included. -/
  depth_eq : ∀ i ∈ t.ids, t.depth i = (t.around i).length
  /-- The loop of a block is the one smallest loop that contains it. -/
  loopOf?_eq_some_iff : ∀ b j, t.loopOf? b = some j ↔ j ∈ t.ids ∧ b ∈ (t.loop j).blocks ∧
    ∀ k ∈ t.ids, k ≠ j → b ∈ (t.loop k).blocks → t.size j < t.size k
  loopOf?_eq_none_iff : ∀ b, t.loopOf? b = none ↔ ∀ k ∈ t.ids, b ∉ (t.loop k).blocks

/-- The forest of a function is the nesting of its loops. -/
theorem isNesting_ofFunc (f : Func) : (LoopForest.ofFunc f).IsNesting := by
  have hg := coherent_ofFunc f
  refine {
    disjoint_or_inside := fun i hi j hj hne => LoopForest.disjoint_or_inside hg hi hj hne
    parent?_eq_some_iff := fun i hi j => ?_
    parent?_eq_none_iff := fun i hi => ?_
    nodup_children := fun i => List.nodup_range.filter _
    mem_children_iff := fun i j => ?_
    nodup_topLevel := List.nodup_range.filter _
    mem_topLevel_iff := fun i => ?_
    depthWithin_eq := fun i hi n hn => ?_
    depth_eq := fun i hi => LoopForest.depthWithin_eq hg _ i hi (length_around_le _ i)
    loopOf?_eq_some_iff := fun b j => ?_
    loopOf?_eq_none_iff := fun b => ?_ }
  · exact parent?_eq_some_iff_smallest hg hi
  · unfold parent?
    rw [smallest_eq_none_iff, List.eq_nil_iff_forall_not_mem]
    exact forall_congr' fun k => (not_congr (mem_parentCandidates_iff_inside hg hi)).trans not_and
  · rw [children, List.mem_filter, beq_iff_eq]
  · rw [topLevel, List.mem_filter, Option.isNone_iff_eq_none]
  · have hle := length_around_le (LoopForest.ofFunc f) i
    exact (LoopForest.depthWithin_eq hg n i hi (Nat.le_trans hle hn)).trans
      (LoopForest.depthWithin_eq hg _ i hi hle).symm
  · exact loopOf?_eq_some_iff_smallest hg
  · unfold loopOf?
    rw [smallest_eq_none_iff, List.filter_eq_nil_iff]
    simp [NaturalLoop.contains]

/-- A loop with two latches around a block that leads back to itself, and an unreachable block that
leads into both. -/
def braided : Func where
  name := "braided"
  params := #[]
  ret := 0
  blocks := #[⟨"entry", [0], false⟩, ⟨"outer", [1], false⟩, ⟨"inner", [2], false⟩,
    ⟨"left", [3], false⟩, ⟨"right", [4], false⟩, ⟨"dead", [5], false⟩, ⟨"end", [6], false⟩]
  insts := #[⟨.br 1, 0, none, some 0⟩, ⟨.condBr (.const 0) 2 6, 0, none, some 1⟩,
    ⟨.condBr (.const 0) 2 3, 0, none, some 2⟩, ⟨.condBr (.const 0) 1 4, 0, none, some 3⟩,
    ⟨.br 1, 0, none, some 4⟩, ⟨.condBr (.const 0) 2 3, 0, none, some 5⟩,
    ⟨.ret none, 0, none, some 6⟩]
  constants := #[⟨0, .bool true⟩]
  layout := [0, 6, 4, 3, 2, 5, 1]

example : (LoopForest.ofFunc braided).loops = #[⟨1, [4, 3], [4, 3, 2, 1]⟩, ⟨2, [2], [2]⟩] ∧
    (LoopForest.ofFunc braided).parent? 1 = some 0 ∧ (LoopForest.ofFunc braided).depth 1 = 2 := by
  decide +kernel

end LoopForest

end LoopNest
