import LoopNest.Proofs.Fusion.Moved
import LoopNest.Proofs.Graph.Detour

/-!
# The flow graph after a move

Moving the inner loop of a nest to the exit edge of the outer one is a detour of the flow graph
(`Shape.detours`): the inner loop is a region that stood on the way from its preheader to its exit
and now stands on the way from the outer header to the outer exit.
-/

namespace LoopNest

namespace Fusion

open FlowGraph

variable {tt : TypeTable} {f : Func} {outer inner : NaturalLoop} {p : Plan}

namespace Shape

variable (h : Shape f outer inner p)

include h

theorem innerHeader_live : inner.header ∈ f.layout :=
  CountedLoop.live_of_mem h.inner_loop h.inner_loop.header_mem

theorem outerHeader_live : outer.header ∈ f.layout :=
  CountedLoop.live_of_mem h.outer_loop h.outer_loop.header_mem

theorem innerExit_live : p.inner.exit ∈ f.layout :=
  CountedLoop.live_of_mem h.outer_loop h.innerExit_mem

theorem preheader_ne_header : p.inner.preheader ≠ inner.header := fun heq =>
  h.inner_counted.preheader_out (heq ▸ h.inner_loop.header_mem)

/-- A block that leads to the exit of a counted loop is its header. -/
theorem eq_innerHeader {x : BlockId} (hx : x ∈ f.layout) (hs : p.inner.exit ∈ f.successors x) :
    x = inner.header := by
  have hmem := h.inner_counted.exit_pred x ((f.mem_predecessors x _).mpr ⟨hx, hs⟩)
  rcases CountedLoop.mem_of_successor h.inner_counted hmem hs with hin | ⟨heq, _⟩
  · exact absurd hin h.inner_counted.exit_out
  · exact heq

theorem eq_outerHeader {x : BlockId} (hx : x ∈ f.layout) (hs : p.outer.exit ∈ f.successors x) :
    x = outer.header := by
  have hmem := h.outer_counted.exit_pred x ((f.mem_predecessors x _).mpr ⟨hx, hs⟩)
  rcases CountedLoop.mem_of_successor h.outer_counted hmem hs with hin | ⟨heq, _⟩
  · exact absurd hin h.outer_counted.exit_out
  · exact heq

theorem edge_apply_iff {x y : BlockId} : (ofFunc (apply f p)).Edge x y ↔
    x ∈ f.layout ∧ y ∈ f.layout ∧ y ∈ (apply f p).successors x := by
  rw [edge_ofFunc, h.mem_layout_apply, h.mem_layout_apply]

theorem outerExit_not_mem : p.outer.exit ∉ inner.blocks := fun hin =>
  h.outer_counted.exit_out (h.subset _ hin)

theorem exit_ne : p.inner.exit ≠ p.outer.exit := fun heq =>
  h.outer_counted.exit_out (heq ▸ h.innerExit_mem)

theorem graphEntry_apply : FlowGraph.entry? (ofFunc (apply f p)) = FlowGraph.entry? (ofFunc f) := by
  rw [FlowGraph.entry?, FlowGraph.entry?, blocks_ofFunc, blocks_ofFunc]
  exact h.entry_apply

theorem reachable_of_apply {x : BlockId} (hx : (ofFunc (apply f p)).Reachable x) :
    (ofFunc f).Reachable x := by
  obtain ⟨e, he, hvia⟩ := hx
  have hent : FlowGraph.entry? (ofFunc f) = some e := h.graphEntry_apply.symm.trans he
  refine hvia.rec_on (motive := (ofFunc f).Reachable) ?_ fun x y hedge _ _ hx => ?_
  · refine ⟨e, hent, .refl ?_ trivial⟩
    rw [blocks_ofFunc]
    exact (h.mem_layout_apply e).mp (blocks_ofFunc (apply f p) ▸ hvia.live_start)
  · obtain ⟨hxl, hyl, hs⟩ := h.edge_apply_iff.mp hedge
    have hstep {z : BlockId} (hz : (ofFunc f).Reachable z) (hs : y ∈ f.successors z) :
        (ofFunc f).Reachable y :=
      hz.edge ((edge_ofFunc f z y).mpr ⟨blocks_ofFunc f ▸ hz.live, hyl, hs⟩)
    have hi := CountedLoop.header_successors h.inner_counted (y := y)
    have ho := CountedLoop.header_successors h.outer_counted (y := y)
    rw [h.mem_successors_apply hxl] at hs
    split at hs
    · rcases hs with heq | heq
      · exact hstep h.inner_loop.reachable (hi.mpr (.inl heq))
      · exact hstep h.outer_loop.reachable (ho.mpr (.inr heq))
    · split at hs
      · rcases hs with heq | heq
        · exact hstep h.outer_loop.reachable (ho.mpr (.inl heq))
        · exact heq ▸ h.inner_loop.reachable
      · split at hs
        · exact hstep h.inner_loop.reachable (hi.mpr (.inr hs))
        · exact hstep hx hs

/-- An edge of the function, as the moved function has it. -/
theorem edge_cases {x y : BlockId} (hx : x ∈ f.layout) (hy : y ∈ f.successors x) :
    x = p.inner.preheader ∧ y = inner.header ∨ x = inner.header ∧ y = p.inner.exit ∨
      x = outer.header ∧ y = p.outer.exit ∨ y ∈ (apply f p).successors x := by
  rw [h.mem_successors_apply hx]
  split
  · rename_i heq
    rw [heq, CountedLoop.header_successors h.inner_counted] at hy
    exact hy.elim (fun hy => .inr (.inr (.inr (.inl hy)))) fun hy => .inr (.inl ⟨heq, hy⟩)
  · split
    · rename_i heq
      rw [heq, CountedLoop.header_successors h.outer_counted] at hy
      exact hy.elim (fun hy => .inr (.inr (.inr (.inl hy)))) fun hy => .inr (.inr (.inl ⟨heq, hy⟩))
    · split
      · rename_i heq
        rw [heq, h.inner_counted.preheader_succ, List.mem_singleton] at hy
        exact .inl ⟨heq, hy⟩
      · exact .inr (.inr (.inr hy))

/-- An edge of the moved function, as the function has it. -/
theorem edge_apply_cases {x y : BlockId} (hx : x ∈ f.layout) (hy : y ∈ (apply f p).successors x) :
    x = outer.header ∧ y = inner.header ∨ x = inner.header ∧ y = p.outer.exit ∨
      x = p.inner.preheader ∧ y = p.inner.exit ∨
      y ∈ f.successors x ∧ x ≠ p.inner.preheader ∧ y ≠ p.inner.exit ∧ y ≠ p.outer.exit := by
  have hi := CountedLoop.header_successors h.inner_counted (y := y)
  have ho := CountedLoop.header_successors h.outer_counted (y := y)
  -- Only the headers lead to the exits.
  have hold (hs : y ∈ f.successors x) (hxi : x = inner.header → y ≠ p.inner.exit)
      (hxo : x = outer.header → y ≠ p.outer.exit) : y ≠ p.inner.exit ∧ y ≠ p.outer.exit :=
    ⟨fun heq => hxi (h.eq_innerHeader hx (heq ▸ hs)) heq,
      fun heq => hxo (h.eq_outerHeader hx (heq ▸ hs)) heq⟩
  rw [h.mem_successors_apply hx] at hy
  split at hy
  · rename_i heq
    rcases hy with hy | hy
    · have hs : y ∈ f.successors x := heq ▸ hi.mpr (.inl hy)
      refine .inr (.inr (.inr ⟨hs, heq ▸ Ne.symm h.preheader_ne_header, hold hs (fun _ => ?_)
        fun hxo => absurd (heq ▸ hxo) h.header_ne⟩))
      exact hy ▸ CountedLoop.bodyEntry_ne_exit h.inner_counted
    · exact .inr (.inl ⟨heq, hy⟩)
  · rename_i hni
    split at hy
    · rename_i heq
      rcases hy with hy | hy
      · have hs : y ∈ f.successors x := heq ▸ ho.mpr (.inl hy)
        refine .inr (.inr (.inr ⟨hs, heq ▸ Ne.symm h.preheader_ne, hold hs
          (fun hxi => absurd hxi hni) fun _ => ?_⟩))
        exact hy ▸ CountedLoop.bodyEntry_ne_exit h.outer_counted
      · exact .inl ⟨heq, hy⟩
    · rename_i hno
      split at hy
      · rename_i heq
        exact .inr (.inr (.inl ⟨heq, hy⟩))
      · rename_i hnp
        exact .inr (.inr (.inr ⟨hy, hnp, hold hy (fun hxi => absurd hxi hni)
          fun hxo => absurd hxo hno⟩))

theorem entry_not_inner {e : BlockId} (he : FlowGraph.entry? (ofFunc f) = some e) :
    e ∉ inner.blocks := by
  rw [FlowGraph.entry?, blocks_ofFunc] at he
  exact CountedLoop.entry_not_mem h.framed.entry_predecessors h.inner_loop h.inner_counted he

/-- A block that is led to is not the entry. -/
theorem graphEntry_ne {x y : BlockId} (hx : x ∈ f.layout) (hs : y ∈ f.successors x) :
    FlowGraph.entry? (ofFunc f) ≠ some y := by
  rw [FlowGraph.entry?, blocks_ofFunc]
  exact fun he => h.ne_entry he hx hs rfl

/-- The inner loop stands between its preheader and its exit, and moves to the exit edge of the
outer loop. -/
theorem detours : Detours (ofFunc f) (ofFunc (apply f p)) (· ∈ inner.blocks) inner.header
    p.inner.preheader p.inner.exit outer.header p.outer.exit := by
  have hi {y : BlockId} := CountedLoop.header_successors h.inner_counted (y := y)
  have ho {y : BlockId} := CountedLoop.header_successors h.outer_counted (y := y)
  have hpre : inner.header ∈ f.successors p.inner.preheader := by
    rw [h.inner_counted.preheader_succ]
    exact List.mem_singleton.mpr rfl
  have hnew {x y : BlockId} (hx : x ∈ f.layout) (hy : y ∈ f.layout)
      (hs : y ∈ (apply f p).successors x) : (ofFunc (apply f p)).Edge x y :=
    h.edge_apply_iff.mpr ⟨hx, hy, hs⟩
  refine ⟨h.graphEntry_apply, fun x hx => ?_, h.inner_loop.header_mem,
    fun e he => h.entry_not_inner he, h.inner_counted.preheader_out, h.inner_counted.exit_out,
    h.header_out, h.outerExit_not_mem, h.preheader_reachable, h.outer_loop.reachable,
    fun x y hx he hxo hyi => h.eq_preheader hx hxo hyi ((edge_ofFunc f x y).mp he).2.2,
    fun x y he hxi hyo => ?_, h.preheader_edge,
    (edge_ofFunc f _ _).mpr ⟨h.innerHeader_live, h.innerExit_live, hi.mpr (.inr rfl)⟩,
    (edge_ofFunc f _ _).mpr ⟨h.outerHeader_live, h.outerExit_live, ho.mpr (.inr rfl)⟩,
    hnew h.preheader_live h.innerExit_live ?_, hnew h.outerHeader_live h.innerHeader_live ?_,
    hnew h.innerHeader_live h.outerExit_live ?_, fun x y he => ?_,
    fun x he => ?_, fun x he => ?_, h.graphEntry_ne h.innerHeader_live (hi.mpr (.inr rfl)),
    h.graphEntry_ne h.outerHeader_live (ho.mpr (.inr rfl)), fun heq => ?_⟩
  · rw [blocks_ofFunc] at hx ⊢
    exact (h.mem_layout_apply x).mpr hx
  · exact (CountedLoop.mem_of_successor h.inner_counted hxi
      ((edge_ofFunc f x y).mp he).2.2).resolve_left hyo
  · rw [h.mem_successors_apply h.preheader_live, if_neg h.preheader_ne_header,
      if_neg h.preheader_ne, if_pos rfl]
  · rw [h.mem_successors_apply h.outerHeader_live, if_neg (Ne.symm h.header_ne), if_pos rfl]
    exact .inr rfl
  · rw [h.mem_successors_apply h.innerHeader_live, if_pos rfl]
    exact .inr rfl
  · obtain ⟨hx, hy, hs⟩ := (edge_ofFunc f x y).mp he
    exact (h.edge_cases hx hs).imp_right fun hs => hs.imp_right fun hs => hs.imp_right (hnew hx hy)
  · obtain ⟨hx, _, hs⟩ := (edge_ofFunc f _ _).mp he
    exact h.eq_innerHeader hx hs
  · obtain ⟨hx, _, hs⟩ := (edge_ofFunc f _ _).mp he
    exact h.eq_outerHeader hx hs
  · exact h.outer_counted.exit_out (heq ▸ h.outer_loop.header_mem)

/-- The way back. -/
theorem detours_apply : Detours (ofFunc (apply f p)) (ofFunc f) (· ∈ inner.blocks) inner.header
    outer.header p.outer.exit p.inner.preheader p.inner.exit := by
  have hd := h.detours
  have hcases {x y : BlockId} (he : (ofFunc (apply f p)).Edge x y) := by
    obtain ⟨hx, _, hs⟩ := h.edge_apply_iff.mp he
    exact h.edge_apply_cases hx hs
  refine ⟨h.graphEntry_apply.symm, fun x hx => ?_, hd.head_in,
    fun e he => h.entry_not_inner (h.graphEntry_apply ▸ he), hd.c_out, hd.d_out, hd.a_out, hd.b_out,
    hd.reachable hd.reach_c, hd.reachable hd.reach_a, fun x y hx he hxo hyi => ?_,
    fun x y he hxi hyo => ?_, hd.edge_c', hd.edge_d', hd.edge_a', hd.edge_c, hd.edge_a, hd.edge_b,
    fun x y he => ?_, fun x he => ?_, fun x he => ?_, ?_, ?_, fun heq => ?_⟩
  · rw [blocks_ofFunc] at hx ⊢
    exact (h.mem_layout_apply x).mp hx
  · rcases hcases he with hs | ⟨rfl, _⟩ | ⟨_, rfl⟩ | ⟨hs, hne, _⟩
    · exact hs
    · exact absurd hd.head_in hxo
    · exact absurd hyi hd.b_out
    · exact absurd (h.eq_preheader (h.reachable_of_apply hx) hxo hyi hs).1 hne
  · rcases hcases he with ⟨rfl, _⟩ | hs | ⟨rfl, _⟩ | ⟨hs, _, hne, _⟩
    · exact absurd hxi hd.c_out
    · exact hs
    · exact absurd hxi hd.a_out
    · rcases CountedLoop.mem_of_successor h.inner_counted hxi hs with hin | ⟨_, heq⟩
      · exact absurd hin hyo
      · exact absurd heq hne
  · obtain ⟨hx, hy, _⟩ := h.edge_apply_iff.mp he
    exact (hcases he).imp_right fun hs => hs.imp_right fun hs => hs.imp_right fun hs =>
      (edge_ofFunc f x y).mpr ⟨hx, hy, hs.1⟩
  · rcases hcases he with ⟨_, heq⟩ | ⟨rfl, _⟩ | ⟨_, heq⟩ | ⟨_, _, _, hne⟩
    · exact absurd (heq ▸ hd.head_in) hd.d_out
    · rfl
    · exact absurd heq.symm h.exit_ne
    · exact absurd rfl hne
  · rcases hcases he with ⟨_, heq⟩ | ⟨_, heq⟩ | ⟨rfl, _⟩ | ⟨_, _, hne, _⟩
    · exact absurd (heq ▸ hd.head_in) hd.b_out
    · exact absurd heq h.exit_ne
    · rfl
    · exact absurd rfl hne
  · rw [h.graphEntry_apply]
    exact hd.d_ne_entry
  · rw [h.graphEntry_apply]
    exact hd.b_ne_entry
  · have hexit : (ofFunc f).Dominates inner.header p.inner.preheader :=
      heq ▸ dominates_of_pred hd.b_ne_entry hd.pred_b
    exact h.preheader_ne_header
      ((hd.dominates_region .refl hd.head_in).antisymm hexit hd.reach_head)

end Shape

end Fusion

end LoopNest
