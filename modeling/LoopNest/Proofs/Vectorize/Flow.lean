import LoopNest.Proofs.Graph.Exchange
import LoopNest.Proofs.Vectorize.Spliced

/-!
# The flow graph with a vector loop

The vector loop stands on the way from the preheader to the old header or, where the old loop is
erased, to the exit.  As flow graphs, the two functions exchange the blocks that are erased for
the new ones (`Splicing.exchanged`), and back (`Splicing.restored`).  So kept blocks keep their
dominance, the preheader dominates the new blocks, and a loop with a new header is the vector loop
(`Splicing.eq_header`).

Blocks that are never reached could lead into the middle of the old loop, and then it must not be
erased.  `Func.SingleEntry` excludes them.
-/

namespace LoopNest

open Func FlowGraph

theorem Op.mem_targets_retarget {o : Op} {a b y : BlockId} :
    y ∈ (o.retarget a b).targets ↔ ∃ x ∈ o.targets, (if x = a then b else x) = y := by
  cases o with
  | br t => simp [Op.retarget, Op.targets, eq_comm]
  | condBr c t e => simp [Op.retarget, Op.targets, eq_comm]
  | _ => simp [Op.retarget, Op.targets]

namespace Vectorize

variable {l : NaturalLoop} {p : VectorPlan} {n : VectorLoop} {f g : Func} {b d x y : BlockId}
  {i j : InstId}

/-- A function, and the same with a vector loop. -/
structure Splicing (l : NaturalLoop) (p : VectorPlan) (n : VectorLoop) (f g : Func) : Prop
    extends Spliced l p n f g where
  framed : f.Framed
  shape : Shape f l p
  singleEntry : f.SingleEntry

/-- Where the vector loop leads to. -/
def follower (l : NaturalLoop) (p : VectorPlan) (n : VectorLoop) : BlockId :=
  if n.blocks.middle.isSome then l.header else p.loop.exit

theorem kept_of_middle {m : BlockId} (hm : n.blocks.middle = some m) (hb : b ∈ f.layout) :
    Kept l n f b := ⟨hb, fun hnone => by cases hm.symm.trans hnone⟩

theorem VectorLoop.header_mem (n : VectorLoop) : n.blocks.header ∈ n.blocks.all := by
  simp [VectorBlocks.all]

theorem VectorLoop.body_mem (n : VectorLoop) : n.blocks.body ∈ n.blocks.all := by
  simp [VectorBlocks.all]

theorem VectorLoop.latch_mem (n : VectorLoop) : n.blocks.latch ∈ n.blocks.all := by
  simp [VectorBlocks.all]

theorem VectorLoop.middle_mem {m : BlockId} (hm : n.blocks.middle = some m) : m ∈ n.blocks.all := by
  simp [VectorBlocks.all, hm]

theorem VectorLoop.mem_all : b ∈ n.blocks.all ↔ b = n.blocks.header ∨ b = n.blocks.body ∨
    b = n.blocks.latch ∨ n.blocks.middle = some b := by
  simp [VectorBlocks.all]

namespace Splicing

variable (h : Splicing l p n f g)

include h

/-! ## Blocks -/

theorem counted : p.loop.IsCounted f l := h.shape.counted

theorem not_mem_of_live (hb : b ∈ f.layout) : b ∉ n.blocks.all := fun hmem =>
  ne_of_mem_freshBlocks h.framed hb (h.blocks_eq ▸ hmem) rfl

theorem not_mem_of_kept (hb : Kept l n f b) : b ∉ n.blocks.all := h.not_mem_of_live hb.1

theorem live_of_kept (hb : Kept l n f b) : b ∈ g.layout := (h.mem_layout b).mpr (.inr hb)

theorem live_of_new (hb : b ∈ n.blocks.all) : b ∈ g.layout := (h.mem_layout b).mpr (.inl hb)

theorem kept_of_mem_layout (hb : b ∈ g.layout) (hnew : b ∉ n.blocks.all) : Kept l n f b :=
  ((h.mem_layout b).mp hb).resolve_left hnew

theorem ne_blocks : n.blocks.header ≠ n.blocks.body ∧ n.blocks.header ≠ n.blocks.latch ∧
    n.blocks.body ≠ n.blocks.latch ∧ ∀ m, n.blocks.middle = some m →
      m ≠ n.blocks.header ∧ m ≠ n.blocks.body ∧ m ≠ n.blocks.latch :=
  VectorBlocks.ne_of_nodup (h.blocks_eq ▸ nodup_freshBlocks f p)

theorem exit_live : p.loop.exit ∈ f.layout :=
  h.framed.successor_live _ h.shape.header_live _
    ((CountedLoop.header_successors h.counted).mpr (.inr rfl))

theorem kept_preheader : Kept l n f p.loop.preheader :=
  ⟨h.shape.edge_preheader.1, fun _ => h.counted.preheader_out⟩

theorem kept_header {m : BlockId} (hm : n.blocks.middle = some m) : Kept l n f l.header :=
  kept_of_middle hm h.shape.header_live

theorem kept_follower : Kept l n f (follower l p n) := by
  unfold follower
  cases hm : n.blocks.middle with
  | none => exact ⟨h.exit_live, fun _ => h.counted.exit_out⟩
  | some m => exact h.kept_header hm

theorem preheader_reachable : (ofFunc f).Reachable p.loop.preheader :=
  CountedLoop.preheader_reachable h.framed.entry_predecessors h.shape.isLoop h.counted

theorem edge_exit : (ofFunc f).Edge l.header p.loop.exit :=
  (edge_ofFunc f _ _).mpr ⟨h.shape.header_live, h.exit_live,
    (CountedLoop.header_successors h.counted).mpr (.inr rfl)⟩

/-- A block that something leads to is not the entry. -/
theorem entry_ne (he : (ofFunc f).Edge x y) : f.entry? ≠ some y := fun hent => by
  obtain ⟨hx, _, hs⟩ := (edge_ofFunc f x y).mp he
  have := (f.mem_predecessors x y).mpr ⟨hx, hs⟩
  rw [h.framed.entry_predecessors y hent] at this
  exact absurd this List.not_mem_nil

theorem entry_not_mem {e : BlockId} (he : f.entry? = some e) : e ∉ l.blocks :=
  CountedLoop.entry_not_mem h.framed.entry_predecessors h.shape.isLoop h.counted he

/-- The header dominates the exit, so that is not the preheader. -/
theorem preheader_ne_exit : p.loop.preheader ≠ p.loop.exit := by
  intro heq
  have hent : FlowGraph.entry? (ofFunc f) ≠ some p.loop.exit := by
    rw [f.entry?_ofFunc]
    exact h.entry_ne h.edge_exit
  have hd : (ofFunc f).Dominates l.header p.loop.exit := by
    refine .of_edges hent fun c hc => h.shape.isLoop.dominates ?_
    obtain ⟨hlive, _, hs⟩ := (edge_ofFunc f _ _).mp hc
    exact h.counted.exit_pred c ((f.mem_predecessors c _).mpr ⟨hlive, hs⟩)
  have hd' := CountedLoop.preheader_dominates h.framed.entry_predecessors h.shape.isLoop
    h.counted
  refine h.counted.preheader_out ?_
  rw [hd'.antisymm (heq ▸ hd) h.shape.isLoop.reachable]
  exact h.shape.isLoop.header_mem

theorem preheader_ne_follower : p.loop.preheader ≠ follower l p n := by
  unfold follower
  split
  · exact fun heq => h.counted.preheader_out (heq ▸ h.shape.isLoop.header_mem)
  · exact h.preheader_ne_exit

/-! ## Instructions of kept blocks -/

theorem owner_eq (b : BlockId) (hb : Kept l n f b) (i : InstId) (hi : i ∈ f.body b) :
    g.owner i = some b :=
  h.owner_stays i b (h.framed.owner_eq b hb.1 i hi) (kept_iff.mp hb).2

/-- A kept instruction is the terminator of the preheader, the induction phi, or as it was. -/
theorem op_cases (hb : Kept l n f b) (hi : i ∈ f.body b) :
    (i ≠ p.loop.induction ∧ g.op i = f.op i) ∨
    (b = p.loop.preheader ∧ f.terminator? b = some i ∧
      g.op i = (f.op i).retarget l.header n.blocks.header) ∨
    ∃ m incoming, n.blocks.middle = some m ∧ b = l.header ∧ i = p.loop.induction ∧
      f.op i = .phi incoming ∧ g.op i =
        .phi (incoming.map fun e => if e.2 = p.loop.preheader then (n.stop, m) else e) := by
  have hown := h.framed.owner_eq b hb.1 i hi
  by_cases ht : f.terminator? p.loop.preheader = some i
  · have hbp : p.loop.preheader = b := by
      have hmem := (mem_body_of_terminator ht).1
      rw [h.framed.owner_eq _ h.kept_preheader.1 i hmem] at hown
      exact Option.some.inj hown
    exact .inr (.inl ⟨hbp.symm, hbp ▸ ht, h.preheader_op i ht⟩)
  by_cases hind : i = p.loop.induction
  · subst hind
    obtain ⟨incoming, hop, _⟩ := h.shape.incoming_eq
    have hbh : l.header = b := by
      rw [h.framed.owner_eq _ h.shape.header_live _ h.shape.mem_header.1] at hown
      exact Option.some.inj hown
    cases hm : n.blocks.middle with
    | none => exact absurd (hbh ▸ h.shape.isLoop.header_mem) (hb.2 hm)
    | some m =>
      exact .inr (.inr ⟨m, incoming, rfl, hbh.symm, rfl, hop, h.induction_op m hm incoming hop⟩)
  · exact .inl ⟨hind, h.op_eq b hb i hi ht hind⟩

theorem isPhi_eq (hb : Kept l n f b) (hi : i ∈ f.body b) : (g.op i).isPhi = (f.op i).isPhi := by
  rcases h.op_cases hb hi with ⟨_, heq⟩ | ⟨_, _, heq⟩ | ⟨_, _, _, _, _, hop, heq⟩
  · rw [heq]
  · rw [heq, isPhi_retarget]
  · rw [heq, hop]
    rfl

theorem isTerminator_eq (hb : Kept l n f b) (hi : i ∈ f.body b) :
    (g.op i).isTerminator = (f.op i).isTerminator := by
  rcases h.op_cases hb hi with ⟨_, heq⟩ | ⟨_, _, heq⟩ | ⟨_, _, _, _, _, hop, heq⟩
  · rw [heq]
  · rw [heq, isTerminator_retarget]
  · rw [heq, hop]
    rfl

/-- The induction phi may use the end of the vector loop now. -/
theorem mem_operands (hb : Kept l n f b) (hi : i ∈ f.body b) {v : Operand}
    (hv : v ∈ (g.op i).operands) : v ∈ (f.op i).operands ∨ v = n.stop := by
  rcases h.op_cases hb hi with ⟨_, heq⟩ | ⟨_, _, heq⟩ | ⟨_, incoming, _, _, _, hop, heq⟩
  · exact .inl (heq ▸ hv)
  · rw [heq, operands_retarget] at hv
    exact .inl hv
  · rw [heq] at hv
    rw [hop]
    simp only [Op.operands, List.map_map, List.mem_map, Function.comp_apply] at hv ⊢
    obtain ⟨e, he, rfl⟩ := hv
    split
    · exact .inr rfl
    · exact .inl ⟨e, he, rfl⟩

theorem terminator?_eq (hb : Kept l n f b) : g.terminator? b = f.terminator? b := by
  obtain ⟨t, ht⟩ := h.framed.ends b hb.1
  obtain ⟨⟨front, hbody⟩, hterm⟩ := terminator?_eq_some.mp ht
  rw [ht]
  refine terminator?_eq_some.mpr ⟨⟨front, (h.body_eq b hb).trans hbody⟩, ?_⟩
  rw [h.isTerminator_eq hb (mem_body_of_terminator ht).1]
  exact hterm

/-! ## Edges -/

/-- Kept blocks other than the preheader lead to where they led. -/
theorem mem_successors_kept (hb : Kept l n f b) (hne : b ≠ p.loop.preheader) :
    y ∈ g.successors b ↔ y ∈ f.successors b := by
  obtain ⟨t, ht⟩ := h.framed.ends b hb.1
  obtain ⟨hmem, hterm⟩ := mem_body_of_terminator ht
  rw [mem_successors_iff ht, mem_successors_iff ((h.terminator?_eq hb).trans ht)]
  rcases h.op_cases hb hmem with ⟨_, heq⟩ | ⟨heq, _⟩ | ⟨_, _, _, _, _, hop, _⟩
  · rw [heq]
  · exact absurd heq hne
  · rw [hop] at hterm
    cases hterm

theorem mem_successors_preheader : y ∈ g.successors p.loop.preheader ↔ y = n.blocks.header := by
  obtain ⟨t, ht⟩ := h.framed.ends _ h.kept_preheader.1
  have htargets : ∀ x, x ∈ (f.op t).targets ↔ x = l.header := fun x => by
    rw [← mem_successors_iff ht, h.counted.preheader_succ, List.mem_singleton]
  rw [mem_successors_iff ((h.terminator?_eq h.kept_preheader).trans ht), h.preheader_op t ht,
    Op.mem_targets_retarget]
  simp [htargets, eq_comm]

theorem terminator?_header : g.terminator? n.blocks.header = some n.branch :=
  terminator?_eq_some.mpr
    ⟨⟨[n.iv, n.cond], h.newLoop.header_body⟩, by rw [h.newLoop.branch.op_eq]; rfl⟩

theorem terminator?_body : g.terminator? n.blocks.body = some n.jump :=
  terminator?_eq_some.mpr ⟨⟨_, h.newLoop.body_body⟩, by rw [h.newLoop.jump.op_eq]; rfl⟩

theorem terminator?_latch : g.terminator? n.blocks.latch = some n.back :=
  terminator?_eq_some.mpr ⟨⟨[n.next], h.newLoop.latch_body⟩, by rw [h.newLoop.back.op_eq]; rfl⟩

theorem terminator?_middle {m : BlockId} (hm : n.blocks.middle = some m) :
    ∃ t, g.terminator? m = some t ∧ g.body m = [t] ∧ g.op t = .br l.header := by
  obtain ⟨_, leave, hbody, hleave⟩ := h.middle m hm
  exact ⟨leave, terminator?_eq_some.mpr ⟨⟨[], hbody⟩, by rw [hleave.op_eq]; rfl⟩, hbody,
    hleave.op_eq⟩

theorem mem_successors_header : y ∈ g.successors n.blocks.header ↔
    y = n.blocks.body ∨ y = n.blocks.middle.getD p.loop.exit := by
  rw [mem_successors_iff h.terminator?_header, h.newLoop.branch.op_eq]
  simp [Op.targets]

theorem mem_successors_body : y ∈ g.successors n.blocks.body ↔ y = n.blocks.latch := by
  rw [mem_successors_iff h.terminator?_body, h.newLoop.jump.op_eq]
  simp [Op.targets]

theorem mem_successors_latch : y ∈ g.successors n.blocks.latch ↔ y = n.blocks.header := by
  rw [mem_successors_iff h.terminator?_latch, h.newLoop.back.op_eq]
  simp [Op.targets]

theorem mem_successors_middle {m : BlockId} (hm : n.blocks.middle = some m) :
    y ∈ g.successors m ↔ y = l.header := by
  obtain ⟨leave, ht, _, hop⟩ := h.terminator?_middle hm
  rw [mem_successors_iff ht, hop]
  simp [Op.targets]

/-- The new blocks lead to each other and to the block that follows the vector loop. -/
theorem eq_follower (hx : x ∈ n.blocks.all) (hy : y ∉ n.blocks.all) (hs : y ∈ g.successors x) :
    y = follower l p n := by
  rcases VectorLoop.mem_all.mp hx with rfl | rfl | rfl | hm
  · rcases h.mem_successors_header.mp hs with rfl | rfl
    · exact absurd n.body_mem hy
    · unfold follower
      cases hm : n.blocks.middle with
      | none => rfl
      | some m =>
        rw [hm] at hy
        exact absurd (VectorLoop.middle_mem hm) hy
  · exact absurd (h.mem_successors_body.mp hs ▸ n.latch_mem) hy
  · exact absurd (h.mem_successors_latch.mp hs ▸ n.header_mem) hy
  · rw [h.mem_successors_middle hm] at hs
    simp [follower, hm, hs]

/-- The middle block leads there, if there is one. -/
theorem eq_middle {m : BlockId} (hm : n.blocks.middle = some m) (hx : x ∈ n.blocks.all)
    (hy : y ∉ n.blocks.all) (hs : y ∈ g.successors x) : x = m := by
  rcases VectorLoop.mem_all.mp hx with rfl | rfl | rfl | hm'
  · rw [h.mem_successors_header, hm, Option.getD_some] at hs
    rcases hs with rfl | rfl
    · exact absurd n.body_mem hy
    · exact absurd (VectorLoop.middle_mem hm) hy
  · exact absurd (h.mem_successors_body.mp hs ▸ n.latch_mem) hy
  · exact absurd (h.mem_successors_latch.mp hs ▸ n.header_mem) hy
  · exact Option.some.inj (hm'.symm.trans hm)

theorem successor_live_new (hx : x ∈ n.blocks.all) (hs : y ∈ g.successors x) : y ∈ g.layout := by
  by_cases hy : y ∈ n.blocks.all
  · exact h.live_of_new hy
  · exact h.live_of_kept (h.eq_follower hx hy hs ▸ h.kept_follower)

theorem edge_new (hx : x ∈ n.blocks.all) (hs : y ∈ g.successors x) : (ofFunc g).Edge x y :=
  (edge_ofFunc g x y).mpr ⟨h.live_of_new hx, h.successor_live_new hx hs, hs⟩

theorem edge_entered : (ofFunc g).Edge p.loop.preheader n.blocks.header :=
  (edge_ofFunc g _ _).mpr ⟨h.live_of_kept h.kept_preheader, h.live_of_new n.header_mem,
    h.mem_successors_preheader.mpr rfl⟩

/-- The edges between kept blocks are the old ones, but for the way into the old loop. -/
theorem edge_kept (hx : Kept l n f x) (hy : Kept l n f y) :
    (ofFunc g).Edge x y ↔ (ofFunc f).Edge x y ∧ x ≠ p.loop.preheader := by
  rw [edge_ofFunc, edge_ofFunc]
  constructor
  · rintro ⟨_, _, hs⟩
    have hne : x ≠ p.loop.preheader := by
      rintro rfl
      exact h.not_mem_of_kept hy (h.mem_successors_preheader.mp hs ▸ n.header_mem)
    exact ⟨⟨hx.1, hy.1, (h.mem_successors_kept hx hne).mp hs⟩, hne⟩
  · rintro ⟨⟨_, _, hs⟩, hne⟩
    exact ⟨h.live_of_kept hx, h.live_of_kept hy, (h.mem_successors_kept hx hne).mpr hs⟩

/-- New blocks are entered from the preheader. -/
theorem eq_preheader_of_edge (he : (ofFunc g).Edge x y) (hx : x ∉ n.blocks.all)
    (hy : y ∈ n.blocks.all) : x = p.loop.preheader ∧ y = n.blocks.header := by
  obtain ⟨hlive, _, hs⟩ := (edge_ofFunc g x y).mp he
  have hk := h.kept_of_mem_layout hlive hx
  have hxp : x = p.loop.preheader := by
    by_contra hne
    have hy' := h.framed.successor_live x hk.1 y ((h.mem_successors_kept hk hne).mp hs)
    exact h.not_mem_of_live hy' hy
  subst hxp
  exact ⟨rfl, h.mem_successors_preheader.mp hs⟩

/-! ## The exchange -/

theorem entry_ofFunc : FlowGraph.entry? (ofFunc g) = FlowGraph.entry? (ofFunc f) := by
  rw [g.entry?_ofFunc, f.entry?_ofFunc, h.entry_eq]

/-- The old graph has the old loop on the way, or nothing. -/
theorem via_old : (ofFunc f).Via
    (fun x => x = p.loop.preheader ∨ x = follower l p n ∨ Erased l n x)
    p.loop.preheader (follower l p n) := by
  have hstart : (ofFunc f).Via (fun x => x = p.loop.preheader ∨ x = follower l p n ∨ Erased l n x)
      p.loop.preheader p.loop.preheader :=
    .refl (FlowGraph.blocks_ofFunc f ▸ h.kept_preheader.1) (.inl rfl)
  cases hm : n.blocks.middle with
  | none =>
    have hf : follower l p n = p.loop.exit := by simp [follower, hm]
    rw [hf] at hstart ⊢
    have hheader : Erased l n l.header := ⟨hm, h.shape.isLoop.header_mem⟩
    exact (hstart.snoc h.shape.edge_preheader.2 (.inr (.inr hheader))).snoc h.edge_exit
      (.inr (.inl rfl))
  | some m =>
    have hf : follower l p n = l.header := by simp [follower, hm]
    rw [hf] at hstart ⊢
    exact hstart.snoc h.shape.edge_preheader.2 (.inr (.inl rfl))

theorem via_new : (ofFunc g).Via
    (fun x => x = p.loop.preheader ∨ x = follower l p n ∨ x ∈ n.blocks.all)
    p.loop.preheader (follower l p n) := by
  have hstart : (ofFunc g).Via
      (fun x => x = p.loop.preheader ∨ x = follower l p n ∨ x ∈ n.blocks.all)
      p.loop.preheader n.blocks.header :=
    (Via.refl (FlowGraph.blocks_ofFunc g ▸ h.live_of_kept h.kept_preheader) (.inl rfl)).snoc
      h.edge_entered (.inr (.inr n.header_mem))
  cases hm : n.blocks.middle with
  | none =>
    have hf : follower l p n = p.loop.exit := by simp [follower, hm]
    rw [hf] at hstart ⊢
    refine hstart.snoc (h.edge_new n.header_mem ?_) (.inr (.inl rfl))
    rw [h.mem_successors_header, hm]
    exact .inr rfl
  | some m =>
    have hf : follower l p n = l.header := by simp [follower, hm]
    rw [hf] at hstart ⊢
    have hmem := VectorLoop.middle_mem hm
    refine (hstart.snoc (h.edge_new n.header_mem ?_) (.inr (.inr hmem))).snoc
      (h.edge_new hmem ((h.mem_successors_middle hm).mpr rfl)) (.inr (.inl rfl))
    rw [h.mem_successors_header, hm]
    exact .inr rfl

/-- An edge into a block that is erased comes from the preheader or from the loop. -/
theorem eq_preheader_of_erased (hs : y ∈ f.successors x) (hx : x ∈ f.layout) (hout : ¬ Erased l n x)
    (hy : Erased l n y) : x = p.loop.preheader := by
  have hpred := (f.mem_predecessors x y).mpr ⟨hx, hs⟩
  have hxl : x ∉ l.blocks := fun hmem => hout ⟨hy.1, hmem⟩
  by_cases hyh : y = l.header
  · exact h.counted.eq_preheader x (hyh ▸ hpred) hxl
  · exact absurd (h.singleEntry l h.shape.isLoop y hy.2 hyh x hpred) hxl

/-- The erased blocks are exchanged for the new blocks. -/
theorem exchanged : Exchanged (ofFunc f) (ofFunc g) (Erased l n) (· ∈ n.blocks.all)
    p.loop.preheader (follower l p n) := by
  have hkept : ∀ {b}, b ∈ (ofFunc f).blocks → ¬ Erased l n b → Kept l n f b := fun hb hout =>
    kept_iff.mpr ⟨FlowGraph.blocks_ofFunc f ▸ hb, hout⟩
  constructor
  case entry_eq => exact h.entry_ofFunc
  case entry_out =>
    intro e he hout
    rw [f.entry?_ofFunc] at he
    exact h.entry_not_mem he hout.2
  case live =>
    intro x hx hout
    rw [FlowGraph.blocks_ofFunc]
    exact h.live_of_kept (hkept hx hout)
  case fresh => exact fun x hx => h.not_mem_of_live (FlowGraph.blocks_ofFunc f ▸ hx)
  case a_out => exact (kept_iff.mp h.kept_preheader).2
  case b_out => exact (kept_iff.mp h.kept_follower).2
  case a_ne_b => exact h.preheader_ne_follower
  case enters =>
    intro x y _ he hx hy
    obtain ⟨hlive, _, hs⟩ := (edge_ofFunc f x y).mp he
    exact h.eq_preheader_of_erased hs hlive hx hy
  case leaves =>
    intro x y he hx hy
    obtain ⟨_, _, hs⟩ := (edge_ofFunc f x y).mp he
    rcases CountedLoop.mem_of_successor h.counted hx.2 hs with hin | ⟨_, rfl⟩
    · exact absurd ⟨hx.1, hin⟩ hy
    · simp [follower, hx.1]
  case kept =>
    intro x y he hx hy
    by_cases hxp : x = p.loop.preheader
    · subst hxp
      obtain ⟨_, _, hs⟩ := (edge_ofFunc f _ y).mp he
      rw [h.counted.preheader_succ, List.mem_singleton] at hs
      subst hs
      cases hm : n.blocks.middle with
      | none => exact absurd ⟨hm, h.shape.isLoop.header_mem⟩ hy
      | some m => exact .inl ⟨rfl, by simp [follower, hm]⟩
    · exact .inr ((h.edge_kept (hkept he.1 hx) (hkept he.2.1 hy)).mpr ⟨he, hxp⟩)
  case through => exact h.via_new

/-- The new blocks are exchanged for the erased blocks. -/
theorem restored : Exchanged (ofFunc g) (ofFunc f) (· ∈ n.blocks.all) (Erased l n)
    p.loop.preheader (follower l p n) := by
  have hkept : ∀ {b}, b ∈ (ofFunc g).blocks → b ∉ n.blocks.all → Kept l n f b := fun hb hout =>
    h.kept_of_mem_layout (FlowGraph.blocks_ofFunc g ▸ hb) hout
  constructor
  case entry_eq => exact h.entry_ofFunc.symm
  case entry_out =>
    intro e he
    rw [h.entry_ofFunc, f.entry?_ofFunc] at he
    exact h.not_mem_of_live (List.mem_of_head? he)
  case live =>
    intro x hx hout
    rw [FlowGraph.blocks_ofFunc]
    exact (hkept hx hout).1
  case fresh =>
    intro x hx hout
    by_cases hnew : x ∈ n.blocks.all
    · exact h.not_mem_of_live (CountedLoop.live_of_mem h.shape.isLoop hout.2) hnew
    · exact (kept_iff.mp (hkept hx hnew)).2 hout
  case a_out => exact h.not_mem_of_kept h.kept_preheader
  case b_out => exact h.not_mem_of_kept h.kept_follower
  case a_ne_b => exact h.preheader_ne_follower
  case enters => exact fun x y _ he hx hy => (h.eq_preheader_of_edge he hx hy).1
  case leaves => exact fun x y he hx hy => h.eq_follower hx hy ((edge_ofFunc g x y).mp he).2.2
  case kept =>
    exact fun x y he hx hy => .inr ((h.edge_kept (hkept he.1 hx) (hkept he.2.1 hy)).mp he).1
  case through => exact h.via_old

/-! ## Reachability and dominance -/

theorem reachable_kept (hb : Kept l n f b) (hr : (ofFunc f).Reachable b) : (ofFunc g).Reachable b :=
  h.exchanged.reachable_out (kept_iff.mp hb).2 hr

theorem reachable_old (hb : b ∉ n.blocks.all) (hr : (ofFunc g).Reachable b) :
    (ofFunc f).Reachable b := h.restored.reachable_out hb hr

theorem reachable_new (hb : b ∈ n.blocks.all) : (ofFunc g).Reachable b := by
  have hheader := (h.reachable_kept h.kept_preheader h.preheader_reachable).edge h.edge_entered
  have hbody := hheader.edge (h.edge_new n.header_mem (h.mem_successors_header.mpr (.inl rfl)))
  rcases VectorLoop.mem_all.mp hb with rfl | rfl | rfl | hm
  · exact hheader
  · exact hbody
  · exact hbody.edge (h.edge_new n.body_mem (h.mem_successors_body.mpr rfl))
  · refine hheader.edge (h.edge_new n.header_mem (h.mem_successors_header.mpr (.inr ?_)))
    rw [hm]
    rfl

/-- Kept blocks keep their dominance. -/
theorem dominates_kept (hd : Kept l n f d) (hb : Kept l n f b) (hdom : (ofFunc f).Dominates d b) :
    (ofFunc g).Dominates d b :=
  h.restored.dominates_outside (kept_iff.mp hd).2 (h.not_mem_of_kept hb) hdom

theorem dominates_new (hb : b ∈ n.blocks.all) : (ofFunc g).Dominates p.loop.preheader b :=
  h.restored.dominates_region hb

theorem entry_ne_new (hb : b ∈ n.blocks.all) : FlowGraph.entry? (ofFunc g) ≠ some b := fun he =>
  h.restored.entry_out b he hb

/-- The edges into new blocks. -/
theorem edge_into (he : (ofFunc g).Edge x y) (hy : y ∈ n.blocks.all) :
    (x = p.loop.preheader ∧ y = n.blocks.header) ∨
    (x = n.blocks.header ∧ (y = n.blocks.body ∨ n.blocks.middle = some y)) ∨
    (x = n.blocks.body ∧ y = n.blocks.latch) ∨ (x = n.blocks.latch ∧ y = n.blocks.header) := by
  by_cases hx : x ∈ n.blocks.all
  · have hs := ((edge_ofFunc g x _).mp he).2.2
    rcases VectorLoop.mem_all.mp hx with rfl | rfl | rfl | hm
    · refine .inr (.inl ⟨rfl, (h.mem_successors_header.mp hs).imp_right fun heq => ?_⟩)
      cases hm : n.blocks.middle with
      | none =>
        rw [hm, Option.getD_none] at heq
        exact absurd (heq ▸ hy) (h.not_mem_of_live h.exit_live)
      | some m =>
        rw [hm, Option.getD_some] at heq
        rw [heq]
    · exact .inr (.inr (.inl ⟨rfl, h.mem_successors_body.mp hs⟩))
    · exact .inr (.inr (.inr ⟨rfl, h.mem_successors_latch.mp hs⟩))
    · exact absurd ((h.mem_successors_middle hm).mp hs ▸ hy) (h.not_mem_of_kept (h.kept_header hm))
  · exact .inl (h.eq_preheader_of_edge he hx hy)

theorem edge_into_header (he : (ofFunc g).Edge x n.blocks.header) :
    x = p.loop.preheader ∨ x = n.blocks.latch := by
  obtain ⟨hhb, hhl, _, hne⟩ := h.ne_blocks
  rcases h.edge_into he n.header_mem with ⟨hx, _⟩ | ⟨_, heq | hm⟩ | ⟨_, heq⟩ | ⟨hx, _⟩
  · exact .inl hx
  · exact absurd heq hhb
  · exact absurd rfl (hne _ hm).1
  · exact absurd heq hhl
  · exact .inr hx

theorem edge_into_body (he : (ofFunc g).Edge x n.blocks.body) : x = n.blocks.header := by
  obtain ⟨hhb, _, hbl, _⟩ := h.ne_blocks
  rcases h.edge_into he n.body_mem with ⟨_, heq⟩ | ⟨hx, _⟩ | ⟨_, heq⟩ | ⟨_, heq⟩
  · exact absurd heq.symm hhb
  · exact hx
  · exact absurd heq hbl
  · exact absurd heq.symm hhb

theorem edge_into_latch (he : (ofFunc g).Edge x n.blocks.latch) : x = n.blocks.body := by
  obtain ⟨_, hhl, hbl, hne⟩ := h.ne_blocks
  rcases h.edge_into he n.latch_mem with ⟨_, heq⟩ | ⟨_, heq | hm⟩ | ⟨hx, _⟩ | ⟨_, heq⟩
  · exact absurd heq.symm hhl
  · exact absurd heq.symm hbl
  · exact absurd rfl (hne _ hm).2.2
  · exact hx
  · exact absurd heq.symm hhl

theorem edge_into_middle {m : BlockId} (hm : n.blocks.middle = some m) (he : (ofFunc g).Edge x m) :
    x = n.blocks.header := by
  obtain ⟨hmh, hmb, hml⟩ := h.ne_blocks.2.2.2 m hm
  rcases h.edge_into he (VectorLoop.middle_mem hm) with ⟨_, heq⟩ | ⟨hx, _⟩ | ⟨_, heq⟩ | ⟨_, heq⟩
  · exact absurd heq hmh
  · exact hx
  · exact absurd heq hml
  · exact absurd heq hmh

/-- A new block other than the header has one predecessor. -/
theorem exists_pred (hb : b ∈ n.blocks.all) (hne : b ≠ n.blocks.header) :
    ∃ q, q ≠ b ∧ q ∈ n.blocks.all ∧ ∀ x, (ofFunc g).Edge x b → x = q := by
  obtain ⟨_, _, hbl, _⟩ := h.ne_blocks
  rcases VectorLoop.mem_all.mp hb with rfl | rfl | rfl | hm
  · exact absurd rfl hne
  · exact ⟨_, hne.symm, n.header_mem, fun x hx => h.edge_into_body hx⟩
  · exact ⟨_, hbl, n.body_mem, fun x hx => h.edge_into_latch hx⟩
  · exact ⟨_, hne.symm, n.header_mem, fun x hx => h.edge_into_middle hm hx⟩

theorem header_dominates (hb : b ∈ n.blocks.all) : (ofFunc g).Dominates n.blocks.header b := by
  have hbody : (ofFunc g).Dominates n.blocks.header n.blocks.body :=
    dominates_of_pred (h.entry_ne_new n.body_mem) fun x hx => h.edge_into_body hx
  rcases VectorLoop.mem_all.mp hb with rfl | rfl | rfl | hm
  · exact .refl
  · exact hbody
  · exact .of_edges (h.entry_ne_new n.latch_mem) fun x hx => h.edge_into_latch hx ▸ hbody
  · exact dominates_of_pred (h.entry_ne_new hb) fun x hx => h.edge_into_middle hm hx

/-! ## Predecessors -/

/-- Kept blocks are entered from where they were, but for the old header and the exit. -/
theorem mem_predecessors_kept (hb : Kept l n f b) (hh : b ≠ l.header) (he : b ≠ p.loop.exit) :
    x ∈ g.predecessors b ↔ x ∈ f.predecessors b := by
  rw [Func.mem_predecessors, Func.mem_predecessors]
  constructor
  · rintro ⟨hx, hs⟩
    by_cases hnew : x ∈ n.blocks.all
    · have heq := h.eq_follower hnew (h.not_mem_of_kept hb) hs
      unfold follower at heq
      split at heq
      · exact absurd heq hh
      · exact absurd heq he
    · have hk := h.kept_of_mem_layout hx hnew
      have hedge := (edge_ofFunc g x b).mpr ⟨hx, h.live_of_kept hb, hs⟩
      exact ⟨hk.1, ((edge_ofFunc f x b).mp ((h.edge_kept hk hb).mp hedge).1).2.2⟩
  · rintro ⟨hx, hs⟩
    have hk : Kept l n f x := kept_iff.mpr ⟨hx, fun hout => by
      rcases CountedLoop.mem_of_successor h.counted hout.2 hs with hin | ⟨_, heq⟩
      · exact hb.2 hout.1 hin
      · exact he heq⟩
    refine ⟨h.live_of_kept hk, (h.mem_successors_kept hk fun heq => ?_).mpr hs⟩
    rw [heq, h.counted.preheader_succ, List.mem_singleton] at hs
    exact hh hs

/-- The old header is entered from the vector loop in place of the preheader. -/
theorem mem_predecessors_resumed {m : BlockId} (hm : n.blocks.middle = some m) :
    x ∈ g.predecessors l.header ↔
      ∃ q ∈ f.predecessors l.header, (if q = p.loop.preheader then m else q) = x := by
  have hheader := h.kept_header hm
  rw [Func.mem_predecessors]
  constructor
  · rintro ⟨hx, hs⟩
    by_cases hnew : x ∈ n.blocks.all
    · refine ⟨_, h.counted.preheader_mem, ?_⟩
      rw [if_pos rfl]
      exact (h.eq_middle hm hnew (h.not_mem_of_kept hheader) hs).symm
    · have hk := h.kept_of_mem_layout hx hnew
      have hedge := (edge_ofFunc g x _).mpr ⟨hx, h.live_of_kept hheader, hs⟩
      obtain ⟨hedge, hne⟩ := (h.edge_kept hk hheader).mp hedge
      exact ⟨x, (f.mem_predecessors _ _).mpr ⟨hk.1, ((edge_ofFunc f x _).mp hedge).2.2⟩, if_neg hne⟩
  · rintro ⟨q, hq, rfl⟩
    obtain ⟨hq, hs⟩ := (f.mem_predecessors _ _).mp hq
    split
    · exact ⟨h.live_of_new (VectorLoop.middle_mem hm), (h.mem_successors_middle hm).mpr rfl⟩
    · rename_i hne
      have hk : Kept l n f q := kept_of_middle hm hq
      exact ⟨h.live_of_kept hk, (h.mem_successors_kept hk hne).mpr hs⟩

theorem mem_predecessors_header :
    x ∈ g.predecessors n.blocks.header ↔ x = p.loop.preheader ∨ x = n.blocks.latch := by
  rw [Func.mem_predecessors]
  constructor
  · rintro ⟨hx, hs⟩
    exact h.edge_into_header ((edge_ofFunc g x _).mpr ⟨hx, h.live_of_new n.header_mem, hs⟩)
  · rintro (rfl | rfl)
    · exact ⟨h.live_of_kept h.kept_preheader, h.mem_successors_preheader.mpr rfl⟩
    · exact ⟨h.live_of_new n.latch_mem, h.mem_successors_latch.mpr rfl⟩

/-! ## Loops -/

/-- A loop with a new header is the vector loop. -/
theorem eq_header {k : NaturalLoop} (hk : IsLoop (ofFunc g) k) (hh : k.header ∈ n.blocks.all) :
    k.header = n.blocks.header ∧ ∀ b ∈ k.blocks, b ∈ n.blocks.all := by
  have hheader : k.header = n.blocks.header := by
    by_contra hne
    obtain ⟨q, hq⟩ := List.exists_mem_of_ne_nil _ hk.latches_ne
    obtain ⟨he, _, hd⟩ := (hk.mem_latches q).mp hq
    obtain ⟨x, hx, _, hpred⟩ := h.exists_pred hh hne
    obtain rfl := hpred q he
    exact hx ((dominates_of_pred (h.entry_ne_new hh) hpred).antisymm hd hk.reachable)
  refine ⟨hheader, fun b hb => ?_⟩
  rcases (hk.mem_blocks b).mp hb with rfl | ⟨_, q, hq, hvia⟩
  · exact hh
  -- A path to the latch around the header does not come from outside.
  refine hvia.rec_back ?_ fun x y he _ hy hmem => ?_
  · obtain ⟨he, _, hd⟩ := (hk.mem_latches q).mp hq
    rcases h.edge_into_header (hheader ▸ he) with rfl | rfl
    · have hr := h.reachable_kept h.kept_preheader h.preheader_reachable
      exact hd.antisymm (h.dominates_new hh) hr ▸ hh
    · exact n.latch_mem
  · obtain ⟨z, _, hz, hpred⟩ := h.exists_pred hmem (hheader ▸ hy)
    exact hpred x he ▸ hz

/-- A loop with an old header has the header of an old loop. -/
theorem exists_loop {k : NaturalLoop} (hk : IsLoop (ofFunc g) k) (hh : k.header ∉ n.blocks.all)
    (hb : b ∈ k.blocks) (hout : b ∉ n.blocks.all) :
    ∃ k', IsLoop (ofFunc f) k' ∧ k'.header = k.header ∧ b ∈ k'.blocks :=
  h.restored.exists_loop h.exchanged (coherent_ofFunc f) hk hh hb hout

end Splicing

end Vectorize

end LoopNest
