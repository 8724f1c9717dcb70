import LoopNest.Proofs.Fusion.Unnested
import LoopNest.Proofs.Graph.Forest
import LoopNest.Proofs.Loop.Kept

/-!
# Loops that a move leaves alone

A move changes edges inside the outer loop and its exit edge only.  A loop whose header the outer
header does not dominate lies around the whole nest or apart from it (`Shape.around_or_apart`), so
its border, its latches and its header are what they were (`Shape.kept_apply`).

The other checks of a plan are about operands, uses and accesses, which a move does not change at
all.  Hence a plan that fails for two such loops fails after the move too
(`Shape.exists_plan`).
-/

namespace LoopNest

namespace Func

variable (f : Func)

/-- Moving a block does not change the order of the other ones. -/
theorem filter_layout_moveBlockBefore {q : BlockId → Bool} {b : BlockId} (hb : q b = false)
    (before : BlockId) : (f.moveBlockBefore b before).layout.filter q = f.layout.filter q := by
  have hrest : (f.layout.filter (· ≠ b)).filter q = f.layout.filter q := by
    rw [List.filter_filter]
    refine List.filter_congr fun c _ => ?_
    by_cases hc : c = b <;> simp [hc, hb]
  rw [moveBlockBefore]
  split
  · rfl
  · simp only
    split
    · exact (filter_placeAt hb _ _).trans hrest
    · exact hrest

/-- A changed operation branches or is a phi. -/
theorem Relinked.op_eq_or {f f' : Func} (h : Relinked f f') (i : InstId) : f'.op i = f.op i ∨
    ((f.op i).isTerminator || (f.op i).isPhi) = true ∧
      ((f'.op i).isTerminator || (f'.op i).isPhi) = true := by
  rw [h.isTerminator_eq, h.isPhi_eq]
  cases ht : (f.op i).isTerminator with
  | true => exact .inr (by simp)
  | false =>
    cases hp : (f.op i).isPhi with
    | true => exact .inr (by simp)
    | false => exact .inl (h.op_eq i ht hp)

theorem Relinked.placeWithin_eq {f f' : Func} (h : Relinked f f') : ∀ (n : Nat) (v : Operand),
    f'.placeWithin n v = f.placeWithin n v
  | _, .param k => by simp only [placeWithin, h.params_eq]
  | _, .const _ => by simp only [placeWithin]
  | 0, .inst _ => rfl
  | n + 1, .inst i => by
    rw [placeWithin, placeWithin, h.size_eq]
    rcases h.op_eq_or i with heq | ⟨hop, hop'⟩
    · rw [heq]
      split
      · rfl
      · rw [h.placeWithin_eq n]
      · rw [h.placeWithin_eq n]
      · rfl
    · cases ho : f.op i <;> cases ho' : f'.op i <;>
        simp_all [Op.isTerminator, Op.isPhi]

theorem Relinked.place_eq {f f' : Func} (h : Relinked f f') (v : Operand) :
    f'.place v = f.place v := by
  rw [place, place, h.size_eq, h.placeWithin_eq]

theorem Relinked.ofInst?_eq {f f' : Func} (h : Relinked f f') (i : InstId) :
    MemAccess.ofInst? f' i = MemAccess.ofInst? f i := by
  rw [MemAccess.ofInst?, MemAccess.ofInst?]
  rcases h.op_eq_or i with heq | ⟨hop, hop'⟩
  · simp only [heq, h.place_eq]
  · cases ho : f.op i <;> cases ho' : f'.op i <;>
      simp_all [Op.isTerminator, Op.isPhi]

/-- The accesses of some blocks do not depend on the order of the blocks. -/
theorem Relinked.mem_ofBlocks_iff {f f' : Func} (h : Relinked f f') {bs bs' : List BlockId}
    (hbs : ∀ b, b ∈ bs' ↔ b ∈ bs) {a : MemAccess} :
    a ∈ MemAccess.ofBlocks f' bs' ↔ a ∈ MemAccess.ofBlocks f bs := by
  simp only [MemAccess.ofBlocks, List.mem_filterMap, List.mem_flatMap, hbs, h.body_eq,
    h.ofInst?_eq]

end Func

namespace Fusion

open FlowGraph
open LoopForest hiding ofFunc

theorem filter_layout_moveAll {q : BlockId → Bool} (before : BlockId) : ∀ (bs : List BlockId)
    (f : Func), (∀ b ∈ bs, q b = false) →
    (bs.foldl (fun f b => f.moveBlockBefore b before) f).layout.filter q = f.layout.filter q
  | [], _, _ => rfl
  | b :: bs, f, hbs => by
    rw [List.foldl_cons,
      filter_layout_moveAll before bs _ fun c hc => hbs c (List.mem_cons_of_mem _ hc)]
    exact f.filter_layout_moveBlockBefore (hbs b List.mem_cons_self) before

variable {tt : TypeTable} {f : Func} {outer inner : NaturalLoop} {p : Plan}

namespace Shape

variable (h : Shape f outer inner p)

include h

/-- Only the blocks of the inner loop change places. -/
theorem filter_layout_apply {q : BlockId → Bool} (hq : ∀ b ∈ inner.blocks, q b = false) :
    (apply f p).layout.filter q = f.layout.filter q := by
  rw [apply_eq, filter_layout_moveAll, layout_relink]
  rw [h.innerBlocks_eq]
  exact hq

theorem successors_apply {b : BlockId} (hb : b ∈ f.layout) (hi : b ≠ inner.header)
    (ho : b ≠ outer.header) (hp : b ≠ p.inner.preheader) :
    (apply f p).successors b = f.successors b := by
  obtain ⟨t, ht⟩ := h.exists_terminator hb
  simp only [Func.successors, (relinked_apply f p).terminator?_eq, ht, h.op_terminator hb ht hi ho hp]

/-- A block outside of the inner loop, the exits aside, is entered from where it was. -/
theorem predecessors_apply {b : BlockId} (hb : b ∉ inner.blocks) (hi : b ≠ p.inner.exit)
    (ho : b ≠ p.outer.exit) : (apply f p).predecessors b = f.predecessors b := by
  have hsucc : ∀ x ∈ f.layout, b ∈ (apply f p).successors x ↔ b ∈ f.successors x := by
    intro x hx
    constructor
    · intro hs
      rcases h.edge_apply_cases hx hs with ⟨_, rfl⟩ | ⟨_, heq⟩ | ⟨_, heq⟩ | ⟨hs, _⟩
      · exact absurd h.inner_loop.header_mem hb
      · exact absurd heq ho
      · exact absurd heq hi
      · exact hs
    · intro hs
      rcases h.edge_cases hx hs with ⟨_, rfl⟩ | ⟨_, heq⟩ | ⟨_, heq⟩ | hs
      · exact absurd h.inner_loop.header_mem hb
      · exact absurd heq hi
      · exact absurd heq ho
      · exact hs
  have hout : ∀ x ∈ inner.blocks, (f.successors x).contains b = false := by
    intro x hx
    rw [List.contains_eq_mem, decide_eq_false_iff_not]
    intro hs
    rcases CountedLoop.mem_of_successor h.inner_counted hx hs with hin | ⟨_, heq⟩
    · exact hb hin
    · exact hi heq
  rw [Func.predecessors, Func.predecessors, ← h.filter_layout_apply hout]
  refine List.filter_congr fun x hx => ?_
  rw [Bool.eq_iff_iff, List.contains_iff_mem, List.contains_iff_mem]
  exact hsucc x ((h.mem_layout_apply x).mp hx)

/-! ## Dominance -/

/-- A block that the outer header does not dominate has no new dominators, and neither has the
outer header. -/
theorem dominates_of_apply {d x : BlockId}
    (hx : (ofFunc f).Dominates outer.header x → x = outer.header)
    (hd : (ofFunc (apply f p)).Dominates d x) : (ofFunc f).Dominates d x := by
  have hxout : x ∉ inner.blocks := by
    intro hin
    have heq := hx (h.outer_loop.dominates (h.subset x hin))
    exact h.header_out (heq ▸ hin)
  by_cases hdin : d ∈ inner.blocks
  · -- The outer header dominates the inner loop where that stands now.
    have hod := h.detours_apply.dominates_region .refl hdin
    have hox := h.detours.dominates_outside h.header_out hxout (hod.trans hd)
    rw [hx hox] at hd
    have heq := hd.antisymm hod (h.detours.reachable h.outer_loop.reachable)
    exact absurd (heq ▸ hdin) h.header_out
  · exact h.detours.dominates_outside hdin hxout hd

/-! ## The shape of another loop -/

section

variable {l l' : NaturalLoop} (hdom : ¬ (ofFunc f).Dominates outer.header l.header)

include hdom

theorem header_not_outer : l.header ∉ outer.blocks := fun hmem =>
  hdom (h.outer_loop.dominates hmem)

theorem header_ne_outerExit : l.header ≠ p.outer.exit := fun heq =>
  hdom (heq ▸ dominates_of_pred h.detours.d_ne_entry h.detours.pred_d)

theorem predecessors_header : (apply f p).predecessors l.header = f.predecessors l.header := by
  have hout := h.header_not_outer hdom
  refine h.predecessors_apply (fun hin => hout (h.subset _ hin)) (fun heq => ?_)
    (h.header_ne_outerExit hdom)
  exact hout (heq ▸ h.innerExit_mem)

/-- A block that leads to the header has the terminator that it had. -/
theorem successors_of_pred {x : BlockId} (hx : x ∈ f.predecessors l.header) :
    (apply f p).successors x = f.successors x := by
  have hout := h.header_not_outer hdom
  obtain ⟨hlive, hs⟩ := (f.mem_predecessors _ _).mp hx
  refine h.successors_apply hlive ?_ ?_ ?_
  · rintro rfl
    rcases (CountedLoop.header_successors h.inner_counted).mp hs with heq | heq
    · exact hout (heq ▸ h.subset _ h.inner_counted.bodyEntry_mem)
    · exact hout (heq ▸ h.innerExit_mem)
  · rintro rfl
    rcases (CountedLoop.header_successors h.outer_counted).mp hs with heq | heq
    · exact hout (heq ▸ h.outer_counted.bodyEntry_mem)
    · exact h.header_ne_outerExit hdom heq
  · rintro rfl
    rw [h.inner_counted.preheader_succ, List.mem_singleton] at hs
    exact hout (hs ▸ h.subset _ h.inner_loop.header_mem)

variable (hl : IsLoop (ofFunc f) l)

include hl

/-- A loop that shares a block with the nest lies around it, and goes on after its exit. -/
theorem around_or_apart {x : BlockId} (hx : x ∈ l.blocks) (hxo : x ∈ outer.blocks) :
    (∀ b ∈ outer.blocks, b ∈ l.blocks) ∧ p.outer.exit ∈ l.blocks := by
  have hne : l.header ≠ outer.header := fun heq => hdom (heq ▸ .refl)
  rcases (h.outer_loop.dominates hxo).total (hl.dominates hx) (hl.reachable_mem hx) with hd | hd
  · exact absurd hd hdom
  · have hsub := (hl.subset_of_dominates h.outer_loop hne hd hx hxo).2
    exact ⟨hsub, (h.outerExit_mem hl (h.header_not_outer hdom)
      (hsub _ h.outer_loop.header_mem)).1⟩

/-- The edges that leave the loop stay. -/
theorem leaves_apply_iff {x y : BlockId} (hx : x ∈ l.blocks) (hy : y ∉ l.blocks) :
    y ∈ (apply f p).successors x ↔ y ∈ f.successors x := by
  have hlive := CountedLoop.live_of_mem hl hx
  have hin {b : BlockId} (hxo : x ∈ outer.blocks) (hb : b ∈ outer.blocks) : y ≠ b := by
    rintro rfl
    exact hy ((h.around_or_apart hdom hl hx hxo).1 _ hb)
  have hexit (hxo : x ∈ outer.blocks) : y ≠ p.outer.exit := by
    rintro rfl
    exact hy (h.around_or_apart hdom hl hx hxo).2
  have hih := h.subset _ h.inner_loop.header_mem
  constructor
  · intro hs
    rcases h.edge_apply_cases hlive hs with ⟨rfl, heq⟩ | ⟨rfl, heq⟩ | ⟨rfl, heq⟩ | ⟨hs, _⟩
    · exact absurd heq (hin h.outer_loop.header_mem hih)
    · exact absurd heq (hexit hih)
    · exact absurd heq (hin h.preheader_mem h.innerExit_mem)
    · exact hs
  · intro hs
    rcases h.edge_cases hlive hs with ⟨rfl, heq⟩ | ⟨rfl, heq⟩ | ⟨rfl, heq⟩ | hs
    · exact absurd heq (hin h.preheader_mem hih)
    · exact absurd heq (hin hih h.innerExit_mem)
    · exact absurd heq (hexit h.outer_loop.header_mem)
    · exact hs

/-- An exit is entered from where it was. -/
theorem predecessors_exit {e : BlockId} (he : e ∈ l.exits f) :
    (apply f p).predecessors e = f.predecessors e := by
  obtain ⟨⟨x, hx, hs⟩, hout⟩ := NaturalLoop.mem_exits.mp he
  have hlive := CountedLoop.live_of_mem hl hx
  -- Were the exit in the nest or after it, the loop would lie around the nest and hold it.
  have hxo : x ∉ outer.blocks := by
    intro hxo
    obtain ⟨hsub, hexit⟩ := h.around_or_apart hdom hl hx hxo
    rcases CountedLoop.mem_of_successor h.outer_counted hxo hs with hin | ⟨_, heq⟩
    · exact hout (hsub e hin)
    · exact hout (heq ▸ hexit)
  refine h.predecessors_apply (fun hin => ?_) (fun heq => ?_) fun heq => ?_
  · by_cases hxi : x ∈ inner.blocks
    · exact hxo (h.subset x hxi)
    · exact hxo ((h.eq_preheader (hl.reachable_mem hx) hxi hin hs).1 ▸ h.preheader_mem)
  · have hxi := h.eq_innerHeader hlive (heq ▸ hs)
    exact hxo (hxi ▸ h.subset _ h.inner_loop.header_mem)
  · have hxh := h.eq_outerHeader hlive (heq ▸ hs)
    exact hxo (hxh ▸ h.outer_loop.header_mem)

/-- The exits stay. -/
theorem mem_exits_apply (hb : ∀ b, b ∈ l'.blocks ↔ b ∈ l.blocks) {e : BlockId} :
    e ∈ l'.exits (apply f p) ↔ e ∈ l.exits f := by
  simp only [NaturalLoop.mem_exits, hb]
  refine and_congr_left fun hout => exists_congr fun x => and_congr_right fun hx => ?_
  exact h.leaves_apply_iff hdom hl hx hout

end

/-! ## Loops of the forest -/

section

variable {l : LoopId} {l' : LoopId} (hl : l ∈ (forest (ofFunc f)).ids)
  (hl' : l' ∈ (forest (ofFunc (apply f p))).ids)
  (hdom : ¬ (ofFunc f).Dominates outer.header ((forest (ofFunc f)).loop l).header)
  (hb : ∀ b, b ∈ ((forest (ofFunc (apply f p))).loop l').blocks ↔
    b ∈ ((forest (ofFunc f)).loop l).blocks)

include hl hl' hdom

/-- The latches are outside of the inner loop and keep their order. -/
theorem latches_apply
    (hh : ((forest (ofFunc (apply f p))).loop l').header = ((forest (ofFunc f)).loop l).header) :
    ((forest (ofFunc (apply f p))).loop l').latches =
    ((forest (ofFunc f)).loop l).latches := by
  have hil := isLoop_loop (coherent_ofFunc f) hl
  have hil' := isLoop_loop (coherent_ofFunc (apply f p)) hl'
  obtain ⟨q, hq⟩ := latches_loop hl
  obtain ⟨q', hq'⟩ := latches_loop hl'
  rw [eq_filter_of_mem_iff hq fun _ _ => Iff.rfl, eq_filter_of_mem_iff hq' fun _ _ =>
    h.detours.latch_mem_iff h.detours_apply hil hil' hh]
  refine h.filter_layout_apply fun b hbi => ?_
  rw [decide_eq_false_iff_not]
  intro hmem
  have hside := h.detours.backEdge_same_side ((hil.mem_latches b).mp hmem)
  exact h.header_not_outer hdom (h.subset _ (hside.mp hbi))

include hb

theorem exitingBlocks_apply :
    ((forest (ofFunc (apply f p))).loop l').exitingBlocks (apply f p) =
      ((forest (ofFunc f)).loop l).exitingBlocks f := by
  have hil := isLoop_loop (coherent_ofFunc f) hl
  obtain ⟨q, hq⟩ := blocks_loop hl
  obtain ⟨q', hq'⟩ := blocks_loop hl'
  rw [blocks_ofFunc] at hq hq'
  rw [NaturalLoop.exitingBlocks, NaturalLoop.exitingBlocks,
    eq_filter_of_mem_iff hq fun _ _ => Iff.rfl, eq_filter_of_mem_iff hq' fun b _ => hb b,
    List.filter_filter, List.filter_filter]
  have hany {x : BlockId} (hx : x ∈ ((forest (ofFunc f)).loop l).blocks) :
      ((apply f p).successors x).any (fun s => !((forest (ofFunc (apply f p))).loop l').contains s) =
        (f.successors x).any fun s => !((forest (ofFunc f)).loop l).contains s := by
    rw [Bool.eq_iff_iff, List.any_eq_true, List.any_eq_true]
    refine exists_congr fun y => ?_
    rw [NaturalLoop.contains_congr hb]
    refine and_congr_left fun hout => h.leaves_apply_iff hdom hil hx ?_
    simpa [NaturalLoop.contains] using hout
  rw [← h.filter_layout_apply]
  · refine List.filter_congr fun x _ => ?_
    by_cases hx : x ∈ ((forest (ofFunc f)).loop l).blocks
    · rw [hany hx]
    · simp [hx]
  · intro x hxi
    by_cases hx : x ∈ ((forest (ofFunc f)).loop l).blocks
    · -- The inner loop is left to the inner exit, which a loop around the nest holds.
      obtain ⟨hsub, _⟩ := h.around_or_apart hdom hil hx (h.subset x hxi)
      rw [Bool.and_eq_false_iff]
      left
      rw [List.any_eq_false]
      intro y hy
      have hmem : y ∈ ((forest (ofFunc f)).loop l).blocks := by
        rcases CountedLoop.mem_of_successor h.inner_counted hxi hy with hin | ⟨_, rfl⟩
        · exact hsub y (h.subset y hin)
        · exact hsub _ h.innerExit_mem
      simp [NaturalLoop.contains, hmem]
    · simp [hx]

/-- Whether the loop is a counted loop depends on what stayed. -/
theorem kept_apply
    (hh : ((forest (ofFunc (apply f p))).loop l').header = ((forest (ofFunc f)).loop l).header) :
    NaturalLoop.Kept (fun _ => True) f (apply f p) ((forest (ofFunc f)).loop l)
    ((forest (ofFunc (apply f p))).loop l') := by
  have hil := isLoop_loop (coherent_ofFunc f) hl
  have hrel := relinked_apply f p
  have hout := h.header_not_outer hdom
  have hcontains := NaturalLoop.contains_congr hb
  have hlive := CountedLoop.live_of_mem hil hil.header_mem
  have hne : ((forest (ofFunc f)).loop l).header ≠ inner.header := fun heq =>
    hout (heq ▸ h.subset _ h.inner_loop.header_mem)
  refine {
    header_eq := hh
    mem_iff := hb
    latches_eq := h.latches_apply hl hl' hdom hh
    preheader_eq := ?_
    exiting_eq := h.exitingBlocks_apply hl hl' hdom hb
    exits := fun e he => ⟨(h.mem_exits_apply hdom hil hb).mpr he, fun hded => ?_⟩
    branch_eq := ?_
    phis_eq := hrel.phis_eq _
    incoming_eq := fun i hi q => ?_
    op_eq := fun b _ i hown => ⟨hrel.owner_eq i ▸ hown, fun ht hp => ?_⟩
    phi_uses := fun _ _ _ _ => trivial
    branch_uses := fun _ _ _ _ => trivial
    uses := fun _ _ _ _ _ _ => trivial
    literal := fun v _ n hv => ?_
    invariant := fun v _ hv => ?_ }
  · rw [NaturalLoop.preheader?, NaturalLoop.preheader?, predecessors_ofFunc, predecessors_ofFunc,
      hcontains, hh, h.predecessors_header hdom]
    split
    · next x hx =>
      have hmem : x ∈ f.predecessors ((forest (ofFunc f)).loop l).header :=
        (List.mem_filter.mp (hx ▸ List.mem_singleton.mpr rfl)).1
      rw [h.successors_of_pred hdom hmem]
    · rfl
  · rw [NaturalLoop.isDedicatedExit, predecessors_ofFunc] at hded ⊢
    rwa [hcontains, h.predecessors_exit hdom hil he] at hded
  · obtain ⟨t, ht⟩ := h.exists_terminator hlive
    have hop := h.op_terminator hlive ht hne (fun heq => hout (heq ▸ h.outer_loop.header_mem))
      fun heq => hout (heq ▸ h.preheader_mem)
    rw [hrel.terminator?_eq, ht, Option.map_some, Option.map_some, hop]
  · rw [Func.incoming?, Func.incoming?, h.op_phi hlive hi hne]
  · exact (hrel.op_eq i (hrel.isTerminator_eq i ▸ ht) (hrel.isPhi_eq i ▸ hp)).symm
  · simpa only [Func.intLiteral?, Func.literal?, hrel.constants_eq] using hv
  · cases v with
    | inst i =>
      rw [NaturalLoop.isInvariant_iff] at hv ⊢
      obtain ⟨d, hd, hdout, hdh⟩ := hv
      rw [hh] at hdh
      exact ⟨d, (hrel.owner_eq i).symm.trans hd, fun hmem => hdout ((hb d).mpr hmem),
        h.dominates_of_apply (fun hdom' => absurd hdom' hdom) hdh⟩
    | param k => rfl
    | const c => rfl

end

end Shape

/-! ## Plans -/

theorem readsOwnWrites_congr {as as' : List MemAccess} (h : ∀ a, a ∈ as' ↔ a ∈ as) :
    readsOwnWrites as' = readsOwnWrites as := by
  rw [Bool.eq_iff_iff]
  simp only [readsOwnWrites, List.any_eq_true, Bool.and_eq_true, h]

section

variable {f' : Func} {o o' i i' : NaturalLoop} (hrel : Func.Relinked f f')
  (hops : ∀ j, (f'.op j).operands = (f.op j).operands)
  (hlive : ∀ b, b ∈ f'.layout ↔ b ∈ f.layout) (hko : NaturalLoop.Kept (fun _ => True) f f' o o')
  (hki : NaturalLoop.Kept (fun _ => True) f f' i i')

include hrel

theorem checkTrips_of_relinked {c : CountedLoop} {bs : List BlockId} {l l' : NaturalLoop}
    {dom dom' : DomTree} (h : checkTrips tt f' dom' c l' = .ok ()) :
    checkTrips tt f dom { c with body := bs } l = .ok () := by
  obtain ⟨n, hn⟩ := checkTrips_eq_ok.mp h
  have hlit (v : Operand) : f'.intLiteral? v = f.intLiteral? v := by
    simp only [Func.intLiteral?, Func.literal?, hrel.constants_eq]
  refine checkTrips_eq_ok.mpr ⟨n, ?_⟩
  simp only [CountedLoop.tripCount?, hlit, hrel.tyOf_eq] at hn ⊢
  -- A known number of trips is read off two literals, whatever the loop is.
  split at hn
  · exact hn
  · split at hn <;> cases hn

include hops hlive hki in
theorem checkInst_of_kept
    (hinv : ∀ v, o'.isInvariant f' (.ofGraph (.ofFunc f')) v = true →
      o.isInvariant f (.ofGraph (.ofFunc f)) v = true) {k : InstId}
    (h : checkInst f' (.ofGraph (.ofFunc f')) o' i' k = .ok ()) :
    checkInst f (.ofGraph (.ofFunc f)) o i k = .ok () := by
  obtain ⟨hcall, hdep, huse⟩ := checkInst_eq_ok.mp h
  have hcontains := NaturalLoop.contains_congr hki.mem_iff
  refine checkInst_eq_ok.mpr ⟨fun callee args hop => ?_, fun v hv => ?_, ?_⟩
  · refine hcall callee args ?_
    rw [hrel.op_eq k (by rw [hop]; rfl) (by rw [hop]; rfl), hop]
  · have hdef : definedIn f' i' v = definedIn f i v := by
      cases v <;> simp only [definedIn, Func.definingBlock?, hrel.owner_eq, hcontains]
    rcases hdep v (hops k ▸ hv) with hd | hi
    · exact .inl (hdef ▸ hd)
    · exact .inr (hinv v hi)
  · rw [Func.usedOutside, List.any_eq_false] at huse ⊢
    simp only [Func.users, Func.liveInsts, List.mem_filter, List.mem_flatMap, hlive, hrel.body_eq,
      hops, hrel.owner_eq, hcontains] at huse ⊢
    exact huse

include hko hki in
theorem checkMemory_of_kept (h : checkMemory f' o' i' = .ok ()) : checkMemory f o i = .ok () := by
  have hinner {a : MemAccess} := hrel.mem_ofBlocks_iff hki.mem_iff (a := a)
  have hrest {a : MemAccess} :
      a ∈ MemAccess.ofBlocks f' (o'.blocks.filter fun b => !i'.contains b) ↔
        a ∈ MemAccess.ofBlocks f (o.blocks.filter fun b => !i.contains b) := by
    refine hrel.mem_ofBlocks_iff fun b => ?_
    simp only [List.mem_filter, hko.mem_iff, NaturalLoop.contains_congr hki.mem_iff]
  rw [checkMemory_eq_ok] at h ⊢
  simpa only [hinner, hrest, readsOwnWrites_congr fun _ => hinner] using h

include hops hlive hko hki in
/-- A plan for two loops that are kept was there before. -/
theorem exists_plan_of_kept {q : Plan} (ho : IsLoop (ofFunc f) o) (hi : IsLoop (ofFunc f) i)
    (h : plan tt f' (ofFunc f') (.ofGraph (ofFunc f')) o' i' = .ok q) :
    ∃ p, plan tt f (ofFunc f) (.ofGraph (ofFunc f)) o i = .ok p := by
  obtain ⟨hro, hri, htrips, hxo, hxi, hinsts, hmem, _⟩ := plan_eq_ok.mp h
  refine ⟨⟨_, _, i.blocks⟩, plan_eq_ok.mpr ⟨hko.recognize ho hro, hki.recognize hi hri,
    checkTrips_of_relinked hrel htrips, ?_, ?_, ?_, checkMemory_of_kept hrel hko hki hmem, rfl⟩⟩
  · rw [checkExit_eq_ok] at hxo ⊢
    exact (hrel.phis_eq _).symm.trans hxo
  · rw [checkExit_eq_ok] at hxi ⊢
    exact (hrel.phis_eq _).symm.trans hxi
  · rw [forAll_eq_ok] at hinsts ⊢
    intro k hk
    refine checkInst_of_kept hrel hops hlive hki (fun v => hko.invariant v trivial) (hinsts k ?_)
    obtain ⟨b, hb, hk⟩ := List.mem_flatMap.mp hk
    exact List.mem_flatMap.mpr ⟨b, (hki.mem_iff b).mpr hb, hrel.body_eq b ▸ hk⟩

end

end Fusion

end LoopNest
