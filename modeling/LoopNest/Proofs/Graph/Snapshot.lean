import LoopNest.Proofs.Graph.Walk

/-!
# Recording a flow graph

The neighbours of all blocks can be recorded in one pass over the layout: a block is added to the
row of each of its successors, unless it stands there already, and its own row of successors is
stored.  A layout without duplicates gives the lists that the function itself answers with
(`row_preds_ofFunc`, `get?_succs_ofFunc`).

A branch to a block outside the layout leaves a row of predecessors for that block but none of
successors, and the walk does not enter it.

`snapshot_ofFunc` says what a snapshot of a function is worth: its rows are right, the walk over
them ends, and what it ends in is a reverse post-order (`IsReversePostOrder`).
-/

namespace LoopNest

namespace FlowGraph

/-! ## Rows -/

/-- The neighbours of blocks, as they are recorded block after block. -/
structure Rows where
  /-- The predecessors that were met so far. -/
  preds : BlockMap (List BlockId)
  /-- The successors of the blocks that are done. -/
  succs : BlockMap (List BlockId)
deriving DecidableEq, Inhabited

namespace Rows

/-- The row of a block, empty if there is none. -/
def row (m : BlockMap (List BlockId)) (b : BlockId) : List BlockId := (m.get? b).getD []

/-- Adds a block to the predecessors of another one, unless it stands there already. -/
def meet (b : BlockId) (preds : BlockMap (List BlockId)) (c : BlockId) : BlockMap (List BlockId) :=
  preds.insert c (if (row preds c).contains b then row preds c else row preds c ++ [b])

/-- Records the branches of a block. -/
def record (f : Func) (r : Rows) (b : BlockId) : Rows :=
  ⟨(f.successors b).foldl (meet b) r.preds, r.succs.insert b (f.successors b)⟩

/-- The rows of a function.  Each live block has a row of predecessors from the start. -/
def ofFunc (f : Func) : Rows :=
  f.layout.foldl (record f) ⟨.ofList (f.layout.map (·, [])), .empty⟩

variable {f : Func} {b c : BlockId}

theorem row_meet (b c x : BlockId) (m : BlockMap (List BlockId)) :
    row (meet b m c) x = if c = x ∧ b ∉ row m x then row m x ++ [b] else row m x := by
  unfold meet
  rw [row, BlockMap.get?_insert]
  by_cases hx : c = x
  · subst hx
    by_cases hb : b ∈ row m c <;> simp [hb]
  · simp [hx, row]

/-- A block is added to the rows of all its successors. -/
theorem row_foldl_meet (b x : BlockId) : ∀ (cs : List BlockId) (m : BlockMap (List BlockId)),
    row (cs.foldl (meet b) m) x = if x ∈ cs ∧ b ∉ row m x then row m x ++ [b] else row m x
  | [], m => by simp
  | c :: cs, m => by
    rw [List.foldl_cons, row_foldl_meet b x cs, row_meet]
    by_cases hb : b ∈ row m x
    · simp [hb]
    · by_cases hc : c = x
      · simp [hc, hb]
      · simp [hc, hb, Ne.symm hc]

/-- After some blocks the row of a block lists those of them that branch to it. -/
theorem row_preds_foldl (x : BlockId) : ∀ (todo done : List BlockId) (r : Rows),
    (done ++ todo).Nodup → row r.preds x = done.filter (fun p => (f.successors p).contains x) →
    row (todo.foldl (record f) r).preds x
      = (done ++ todo).filter fun p => (f.successors p).contains x
  | [], done, r, _, hr => by simpa using hr
  | b :: todo, done, r, hn, hr => by
    have hb : b ∉ row r.preds x := by
      rw [hr]
      exact fun h => (List.nodup_append.mp hn).2.2 b (List.mem_of_mem_filter h) b
        List.mem_cons_self rfl
    rw [List.append_cons] at hn ⊢
    refine row_preds_foldl x todo (done ++ [b]) (record f r b) hn ?_
    rw [record, row_foldl_meet, hr, List.filter_append]
    by_cases hx : x ∈ f.successors b
    · rw [if_pos ⟨hx, hr ▸ hb⟩]
      simp [hx]
    · simp [hx]

theorem get?_succs_foldl (x : BlockId) : ∀ (bs : List BlockId) (r : Rows),
    (bs.foldl (record f) r).succs.get? x
      = if x ∈ bs then some (f.successors x) else r.succs.get? x
  | [], r => by simp
  | b :: bs, r => by
    rw [List.foldl_cons, get?_succs_foldl x bs, record, BlockMap.get?_insert]
    by_cases hb : b = x
    · subst hb
      simp
    · simp [hb, Ne.symm hb]

/-- The recorded predecessors are those that the function answers with. -/
theorem row_preds_ofFunc (hf : f.layout.Nodup) (b : BlockId) :
    row (ofFunc f).preds b = f.predecessors b := by
  refine row_preds_foldl b f.layout [] _ hf ?_
  rw [row, BlockMap.get?_ofList, lookup_map_self fun _ => []]
  split <;> rfl

/-- A row of successors is recorded for the blocks of the layout. -/
theorem get?_succs_ofFunc (f : Func) (b : BlockId) :
    (ofFunc f).succs.get? b = if b ∈ f.layout then some (f.successors b) else none := by
  rw [ofFunc, get?_succs_foldl, BlockMap.get?_empty]

theorem row_succs_ofFunc (hb : b ∈ f.layout) : row (ofFunc f).succs b = f.successors b := by
  rw [row, get?_succs_ofFunc, if_pos hb, Option.getD_some]

/-- The rows of successors are those of the flow graph. -/
theorem get?_succs_eq_index (f : Func) (b : BlockId) :
    (FlowGraph.ofFunc f).index.get? b = (ofFunc f).succs.get? b := by
  rw [get?_succs_ofFunc, get?_index, FlowGraph.ofFunc, lookup_map_self]

end Rows

/-! ## Reverse post-order -/

/-- A list of the reachable blocks of a function in which edges point backwards only where they
close a cycle. -/
structure IsReversePostOrder (f : Func) (order : List BlockId) : Prop where
  /-- No block stands in it twice. -/
  nodup : order.Nodup
  /-- It lists the reachable blocks. -/
  mem_iff : ∀ b, b ∈ order ↔ (ofFunc f).Reachable b
  /-- It starts with the entry. -/
  head : order.head? = f.entry?
  /-- Every other block comes after one of its predecessors. -/
  pred_before : ∀ b ∈ order, f.entry? ≠ some b →
    ∃ p ∈ order, p ∈ f.predecessors b ∧ order.idxOf p < order.idxOf b
  /-- The end of an edge comes after its start or leads back to it. -/
  edge : ∀ u ∈ order, ∀ v ∈ order, v ∈ f.successors u →
    order.idxOf u < order.idxOf v ∨ (ofFunc f).Via (fun _ => True) v u

theorem isReversePostOrder_ofFunc (f : Func) :
    IsReversePostOrder f (ofFunc f).reversePostOrder where
  nodup := nodup_reversePostOrder _
  mem_iff _ := mem_reversePostOrder
  head := (head?_reversePostOrder _).trans f.entry?_ofFunc
  pred_before b hb hne := by
    obtain ⟨p, he, hp, hlt⟩ := exists_edge_of_pos hb (f.entry?_ofFunc.symm ▸ hne)
    have hedge := (edge_ofFunc f p b).mp he
    exact ⟨p, hp, (f.mem_predecessors p b).mpr ⟨hedge.1, hedge.2.2⟩, hlt⟩
  edge u hu v hv hs := by
    have hlive : ∀ x ∈ (ofFunc f).reversePostOrder, x ∈ f.layout := fun x hx =>
      blocks_ofFunc f ▸ (mem_reversePostOrder.mp hx).live
    exact pos_lt_or_via_of_edge hu ((edge_ofFunc f u v).mpr ⟨hlive u hu, hlive v hv, hs⟩)

/-- The snapshot of a function whose layout has no duplicates.  Its lists of neighbours, recorded
in one pass, are those of the function in the same order.  The search with a stack over the
recorded rows ends, after one step for each block that it lists and one for each branch of such a
block.  It ends in a list of the blocks that are reachable from the entry, each once and the entry
first, in which every other block comes after one of its predecessors and every edge points forwards
or closes a cycle. -/
theorem snapshot_ofFunc (f : Func) (hf : f.layout.Nodup) :
    (∀ b ∈ f.layout,
      Rows.row (Rows.ofFunc f).preds b = f.predecessors b ∧
      Rows.row (Rows.ofFunc f).succs b = f.successors b ∧
      (ofFunc f).predecessors b = f.predecessors b ∧ (ofFunc f).successors b = f.successors b) ∧
    (∃ s, Walk.Runs (Rows.ofFunc f).succs
        (Walk.cost (Rows.ofFunc f).succs (ofFunc f).reversePostOrder) (.start f.entry?) ⟨[], s⟩ ∧
      s.finished = (ofFunc f).reversePostOrder) ∧
    IsReversePostOrder f (ofFunc f).reversePostOrder := by
  refine ⟨fun b hb => ⟨?_, ?_, ?_, ?_⟩, ⟨(ofFunc f).searchAvoiding [], ?_, rfl⟩, ?_⟩
  · exact Rows.row_preds_ofFunc hf b
  · exact Rows.row_succs_ofFunc hb
  · exact predecessors_ofFunc f b
  · rw [successors_ofFunc, if_pos hb]
  · have hruns := Walk.runs_start (ofFunc f)
    rw [f.entry?_ofFunc, Walk.cost_congr (Rows.get?_succs_eq_index f)] at hruns
    exact hruns.congr (Rows.get?_succs_eq_index f)
  · exact isReversePostOrder_ofFunc f

/-- Two blocks that branch to each other and are both entered from the first one, a block that
branches out of the layout, and a live block that nothing branches to. -/
def straying : Func :=
  { name := "straying", params := #[], ret := 0
    blocks := #[⟨"entry", [0], false⟩, ⟨"left", [1], false⟩, ⟨"right", [2], false⟩,
      ⟨"erased", [], false⟩, ⟨"dead", [3], false⟩]
    insts := #[⟨.condBr (.const 0) 1 2, 0, none, some 0⟩, ⟨.condBr (.const 0) 3 2, 0, none, some 1⟩,
      ⟨.br 1, 0, none, some 2⟩, ⟨.br 2, 0, none, some 4⟩]
    constants := #[⟨0, .bool true⟩], layout := [0, 1, 2, 4] }

/-- The second block is entered first and finished last, so the edge back to it from the third one
is the one that points backwards.  The walk takes eight steps. -/
theorem snapshot_straying :
    straying.layout.Nodup ∧
      Rows.row (Rows.ofFunc straying).preds 2 = [0, 1, 4] ∧
      (ofFunc straying).reversePostOrder = [0, 1, 2] ∧
      (∃ s, Walk.Runs (Rows.ofFunc straying).succs 8 (.start (some 0)) ⟨[], s⟩ ∧
        s.finished = [0, 1, 2]) ∧
      (ofFunc straying).Via (fun _ => True) 1 2 := by
  have hn : straying.layout.Nodup := by decide
  obtain ⟨hrows, ⟨s, hruns, hs⟩, horder⟩ := snapshot_ofFunc straying hn
  have hrpo : (ofFunc straying).reversePostOrder = [0, 1, 2] := by decide +kernel
  have hcost : Walk.cost (Rows.ofFunc straying).succs [0, 1, 2] = 8 := by decide +kernel
  rw [hrpo] at hruns hs horder
  rw [hcost] at hruns
  refine ⟨hn, ?_, hrpo, ⟨s, hruns, hs⟩, ?_⟩
  · exact (hrows 2 (by decide)).1.trans (by decide)
  · exact (horder.edge 2 (by decide) 1 (by decide) (by decide)).resolve_left (by decide)

end FlowGraph

end LoopNest
