import LoopNest.Pass.Fusion
import LoopNest.Proofs.Dependence
import LoopNest.Proofs.Loop.Counted
import Mathlib

/-!
# Accepted nests

`Fusion.Nest` lists what is known of an inner loop that the pass agrees to move out of an
outer one: the shape of the two loops (`Fusion.Shape`), and what the checks on operands, uses and
memory accesses ensure.

The inner loop lies in the outer one, and so does its exit (`Shape.innerExit_mem`).  A complete
iteration of the outer loop is a path from its header to its latch that stays inside.  None of
the checks makes sure that such a path meets the inner loop: it does so exactly when the inner
preheader dominates the outer latch (`Nest.enters_iff_dominates`).
-/

namespace LoopNest

namespace Fusion

/-- The blocks of an accepted nest. -/
structure Shape (f : Func) (outer inner : NaturalLoop) (p : Plan) : Prop where
  framed : f.Framed
  outer_loop : IsLoop (.ofFunc f) outer
  inner_loop : IsLoop (.ofFunc f) inner
  outer_counted : p.outer.IsCounted f outer
  inner_counted : p.inner.IsCounted f inner
  /-- The inner loop lies in the outer one. -/
  subset : ∀ b ∈ inner.blocks, b ∈ outer.blocks
  header_out : outer.header ∉ inner.blocks
  /-- The exits have no phis. -/
  outer_exit : f.phis p.outer.exit = []
  inner_exit : f.phis p.inner.exit = []
  innerBlocks_eq : p.innerBlocks = inner.blocks

/-- An accepted nest. -/
structure Nest (tt : TypeTable) (f : Func) (outer inner : NaturalLoop) (p : Plan) : Prop
    extends Shape f outer inner p where
  wellFormed : f.WellFormed
  /-- The outer loop runs at least once. -/
  trips : ∃ n, p.outer.tripCount? tt f (.ofGraph (.ofFunc f)) outer = some (.constant (n + 1))
  /-- The inner loop uses its own values and those from outside the nest. -/
  operands : ∀ b ∈ inner.blocks, ∀ i ∈ f.body b, ∀ v ∈ (f.op i).operands,
    definedIn f inner v = true ∨ outer.Invariant f v
  /-- Its values are used inside only. -/
  uses : ∀ b ∈ inner.blocks, ∀ i ∈ f.body b, ∀ c ∈ f.layout, c ∉ inner.blocks →
    ∀ u ∈ f.body c, Operand.inst i ∉ (f.op u).operands
  /-- The accesses of the inner loop and of the rest of the outer one. -/
  no_own_reads : readsOwnWrites (MemAccess.ofBlocks f inner.blocks) = false
  no_conflict : ∀ a ∈ MemAccess.ofBlocks f inner.blocks,
    ∀ b ∈ MemAccess.ofBlocks f (outer.blocks.filter fun b => !inner.contains b),
    (a.kind.writes || b.kind.writes) = true → a.place.root.mayAlias b.place.root = false

/-! ## Inverting the plan -/

theorem forAll_eq_ok {α : Type} {check : α → Except FusionRejection Unit} :
    ∀ {as : List α}, forAll check as = .ok () ↔ ∀ a ∈ as, check a = .ok ()
  | [] => by simp [forAll]
  | a :: as => by
    simp only [forAll, bind_eq_ok_iff, List.mem_cons, forall_eq_or_imp, forAll_eq_ok]
    exact ⟨fun ⟨_, h, hs⟩ => ⟨h, hs⟩, fun ⟨h, hs⟩ => ⟨(), h, hs⟩⟩

variable {tt : TypeTable} {f : Func} {outer inner : NaturalLoop} {p : Plan}

theorem checkExit_eq_ok {b : BlockId} {u : Unit} : checkExit f b = .ok u ↔ f.phis b = [] := by
  unfold checkExit
  split <;> simp_all

theorem checkTrips_eq_ok {c : CountedLoop} {l : NaturalLoop} {dom : DomTree} {u : Unit} :
    checkTrips tt f dom c l = .ok u ↔
      ∃ n, c.tripCount? tt f dom l = some (.constant (n + 1)) := by
  rw [checkTrips]
  split
  · rename_i n hn
    simp [hn]
  · rename_i hno
    simp only [reduceCtorEq, false_iff, not_exists]
    exact fun n hn => hno n hn

theorem checkInst_eq_ok {dom : DomTree} {i : InstId} : checkInst f dom outer inner i = .ok () ↔
    (∀ callee args, f.op i ≠ .call callee args) ∧
    (∀ v ∈ (f.op i).operands, definedIn f inner v = true ∨ outer.isInvariant f dom v = true) ∧
      f.usedOutside inner.contains i = false := by
  rw [checkInst]
  split
  · rename_i callee args hop
    simp [hop]
  · rename_i hop
    have hcall : ∀ callee args, f.op i ≠ .call callee args := fun callee args heq =>
      hop callee args heq
    rw [and_iff_right hcall]
    split
    · rename_i hops
      simp only [reduceCtorEq, false_iff, not_and, Bool.not_eq_false]
      intro hall
      obtain ⟨v, hv, hno⟩ := List.any_eq_true.mp hops
      rcases hall v hv with hd | hi <;> simp_all
    · rename_i hops
      have hall : ∀ v ∈ (f.op i).operands,
          definedIn f inner v = true ∨ outer.isInvariant f dom v = true := by
        intro v hv
        simp only [List.any_eq_true, not_exists, not_and, Bool.and_eq_true, Bool.not_eq_true',
          Bool.not_eq_false] at hops
        cases hd : definedIn f inner v with
        | true => exact .inl rfl
        | false => exact .inr (hops v hv hd)
      rw [and_iff_right hall]
      split <;> simp_all

theorem checkPair_eq_ok {a b : MemAccess} : checkPair f a b = .ok () ↔
    ((a.kind.writes || b.kind.writes) = true → a.place.root.mayAlias b.place.root = false) := by
  rw [checkPair]
  split <;> simp_all

theorem checkMemory_eq_ok : checkMemory f outer inner = .ok () ↔
    (∀ a ∈ MemAccess.ofBlocks f (outer.blocks.filter fun b => !inner.contains b),
      a.kind ≠ .readWrite) ∧
    readsOwnWrites (MemAccess.ofBlocks f inner.blocks) = false ∧
    ∀ a ∈ MemAccess.ofBlocks f inner.blocks,
    ∀ b ∈ MemAccess.ofBlocks f (outer.blocks.filter fun b => !inner.contains b),
    (a.kind.writes || b.kind.writes) = true → a.place.root.mayAlias b.place.root = false := by
  simp only [checkMemory]
  split
  · rename_i call hcall
    simp only [reduceCtorEq, false_iff, not_and]
    intro hnone
    have hkind : call.kind = .readWrite := by simpa using List.find?_some hcall
    exact absurd hkind (hnone call (List.mem_of_find?_eq_some hcall))
  · rename_i hcall
    have hnone : ∀ a ∈ MemAccess.ofBlocks f (outer.blocks.filter fun b => !inner.contains b),
        a.kind ≠ .readWrite := by
      intro a ha heq
      exact List.find?_eq_none.mp hcall a ha (by simp [heq])
    rw [and_iff_right hnone]
    split
    · rename_i hown
      simp [hown]
    · rename_i hown
      rw [and_iff_right (by simpa using hown)]
      simp only [forAll_eq_ok, checkPair_eq_ok]

/-- The checks of a plan. -/
theorem plan_eq_ok {g : FlowGraph} {dom : DomTree} : plan tt f g dom outer inner = .ok p ↔
    CountedLoop.recognize f g dom outer = .ok p.outer ∧
    CountedLoop.recognize f g dom inner = .ok p.inner ∧
    checkTrips tt f dom p.outer outer = .ok () ∧ checkExit f p.outer.exit = .ok () ∧
    checkExit f p.inner.exit = .ok () ∧
    forAll (checkInst f dom outer inner) (inner.blocks.flatMap f.body) = .ok () ∧
    checkMemory f outer inner = .ok () ∧ p.innerBlocks = inner.blocks := by
  rw [plan]
  constructor
  · intro h
    cases ho : CountedLoop.recognize f g dom outer with
    | error e =>
      simp only [ho] at h
      cases h
    | ok co =>
      cases hi : CountedLoop.recognize f g dom inner with
      | error e =>
        simp only [ho, hi] at h
        cases h
      | ok ci =>
        simp only [ho, hi, bind_eq_ok_iff] at h
        obtain ⟨_, hco, _, hci, _, htrips, _, hxo, _, hxi, _, hinsts, _, hmem, hp⟩ := h
        cases hco
        cases hci
        cases hp
        exact ⟨rfl, rfl, htrips, hxo, hxi, hinsts, hmem, rfl⟩
  · rintro ⟨ho, hi, htrips, hxo, hxi, hinsts, hmem, hblocks⟩
    simp only [ho, hi, bind_eq_ok_iff]
    exact ⟨_, rfl, _, rfl, _, htrips, _, hxo, _, hxi, _, hinsts, _, hmem, hblocks ▸ rfl⟩

/-- The shape of what a plan was made for. -/
theorem shape_of_plan {o i : LoopId} (hf : f.Framed) (ho : o ∈ (LoopForest.ofFunc f).ids)
    (hi : i ∈ (LoopForest.ofFunc f).ids) (hne : i ≠ o)
    (hmem : ((LoopForest.ofFunc f).loop i).header ∈ ((LoopForest.ofFunc f).loop o).blocks)
    (hp : plan tt f (.ofFunc f) (.ofGraph (.ofFunc f)) ((LoopForest.ofFunc f).loop o)
      ((LoopForest.ofFunc f).loop i) = .ok p) :
    Shape f ((LoopForest.ofFunc f).loop o) ((LoopForest.ofFunc f).loop i) p := by
  have hg := FlowGraph.coherent_ofFunc f
  obtain ⟨hout, hsub⟩ := LoopForest.surrounds_of_header_mem hg hi ho hne hmem
  obtain ⟨hro, hri, _, hxo, hxi, _, _, hblocks⟩ := plan_eq_ok.mp hp
  exact ⟨hf, LoopForest.isLoop_loop hg ho, LoopForest.isLoop_loop hg hi,
    CountedLoop.isCounted_of_recognize hro, CountedLoop.isCounted_of_recognize hri, hsub, hout,
    checkExit_eq_ok.mp hxo, checkExit_eq_ok.mp hxi, hblocks⟩

/-- What a plan was made for. -/
theorem nest_of_plan {o i : LoopId} (hv : f.verify tt = .ok ()) (ho : o ∈ (LoopForest.ofFunc f).ids)
    (hi : i ∈ (LoopForest.ofFunc f).ids) (hne : i ≠ o)
    (hmem : ((LoopForest.ofFunc f).loop i).header ∈ ((LoopForest.ofFunc f).loop o).blocks)
    (hp : plan tt f (.ofFunc f) (.ofGraph (.ofFunc f)) ((LoopForest.ofFunc f).loop o)
      ((LoopForest.ofFunc f).loop i) = .ok p) :
    Nest tt f ((LoopForest.ofFunc f).loop o) ((LoopForest.ofFunc f).loop i) p := by
  have hlo := LoopForest.isLoop_loop (FlowGraph.coherent_ofFunc f) ho
  have hd := Func.isDeclaration_of_live (CountedLoop.live_of_mem hlo hlo.header_mem)
  have hf := Func.wellFormed_of_verify hd hv
  obtain ⟨_, _, htrips, _, _, hinsts, hmemory, _⟩ := plan_eq_ok.mp hp
  obtain ⟨_, hown, hconf⟩ := checkMemory_eq_ok.mp hmemory
  have hinst : ∀ b ∈ ((LoopForest.ofFunc f).loop i).blocks, ∀ k ∈ f.body b, _ := fun b hb k hk =>
    (checkInst_eq_ok.mp (forAll_eq_ok.mp hinsts k (List.mem_flatMap.mpr ⟨b, hb, hk⟩))).2
  refine ⟨shape_of_plan hf.framed ho hi hne hmem hp, hf, checkTrips_eq_ok.mp htrips,
    fun b hb k hk v hv => ?_, fun b hb k hk c hc hcout u hu => ?_, hown, hconf⟩
  · rcases (hinst b hb k hk).1 v hv with h | h
    · exact .inl h
    · exact .inr (NaturalLoop.isInvariant_iff.mp h)
  · exact hf.not_usedOutside (hinst b hb k hk).2 hc hcout hu

/-! ## The shape of a nest -/

namespace Shape

variable (h : Shape f outer inner p)

include h

theorem header_ne : inner.header ≠ outer.header := fun heq =>
  h.header_out (heq ▸ h.inner_loop.header_mem)

/-- The inner preheader leads to one block, the outer header to two. -/
theorem preheader_ne : p.inner.preheader ≠ outer.header := by
  intro heq
  have hs := h.inner_counted.preheader_succ
  rw [heq] at hs
  have h₁ := (CountedLoop.header_successors h.outer_counted).mpr (.inl rfl)
  have h₂ := (CountedLoop.header_successors h.outer_counted).mpr (.inr rfl)
  rw [hs, List.mem_singleton] at h₁ h₂
  exact CountedLoop.bodyEntry_ne_exit h.outer_counted (h₁.trans h₂.symm)

theorem preheader_reachable : (FlowGraph.ofFunc f).Reachable p.inner.preheader :=
  CountedLoop.preheader_reachable h.framed.entry_predecessors h.inner_loop h.inner_counted

theorem preheader_edge : (FlowGraph.ofFunc f).Edge p.inner.preheader inner.header := by
  obtain ⟨hlive, hs⟩ := (f.mem_predecessors _ _).mp h.inner_counted.preheader_mem
  exact (FlowGraph.edge_ofFunc f _ _).mpr
    ⟨hlive, CountedLoop.live_of_mem h.inner_loop h.inner_loop.header_mem, hs⟩

theorem preheader_mem : p.inner.preheader ∈ outer.blocks :=
  h.outer_loop.mem_of_edge (h.subset _ h.inner_loop.header_mem) h.header_ne h.preheader_edge
    h.preheader_reachable

/-- The inner exit is not the outer header, which is also entered from outside. -/
theorem innerExit_ne : p.inner.exit ≠ outer.header := by
  intro heq
  have hmem := h.inner_counted.exit_pred p.outer.preheader (heq ▸ h.outer_counted.preheader_mem)
  exact h.outer_counted.preheader_out (h.subset _ hmem)

theorem latch_not_mem : p.outer.latch ∉ inner.blocks := by
  intro hmem
  have he := (CountedLoop.latch_edge h.outer_loop h.outer_counted).1
  rcases CountedLoop.mem_of_successor h.inner_counted hmem
    ((FlowGraph.edge_ofFunc f _ _).mp he).2.2 with hin | ⟨_, heq⟩
  · exact h.header_out hin
  · exact h.innerExit_ne heq.symm

theorem latch_ne_preheader : p.outer.latch ≠ p.inner.preheader := by
  intro heq
  have he := (CountedLoop.latch_edge h.outer_loop h.outer_counted).1
  have hs := ((FlowGraph.edge_ofFunc f _ _).mp he).2.2
  rw [heq, h.inner_counted.preheader_succ, List.mem_singleton] at hs
  exact h.header_ne hs.symm

/-- From the inner loop, the outer latch is reached through the inner exit. -/
theorem innerExit_mem : p.inner.exit ∈ outer.blocks := by
  obtain ⟨q, hq, hv⟩ := h.outer_loop.via_to_latch (h.subset _ h.inner_loop.header_mem) h.header_ne
  rw [h.outer_counted.latches_eq, List.mem_singleton] at hq
  subst hq
  -- Going back from the latch, some block is the first inside the inner loop.
  refine Classical.byContradiction fun hx => h.latch_not_mem ?_
  refine hv.rec_on h.inner_loop.header_mem fun x y he _ hy hin => ?_
  rcases CountedLoop.mem_of_successor h.inner_counted hin
    ((FlowGraph.edge_ofFunc f _ _).mp he).2.2 with hmem | ⟨_, heq⟩
  · exact hmem
  · exact absurd (heq ▸ hy.2) hx

/-- The inner loop is entered from its preheader. -/
theorem eq_preheader {a b : BlockId} (ha : (FlowGraph.ofFunc f).Reachable a)
    (hout : a ∉ inner.blocks) (hb : b ∈ inner.blocks) (hs : b ∈ f.successors a) :
    a = p.inner.preheader ∧ b = inner.header :=
  CountedLoop.eq_preheader_of_edge h.inner_loop h.inner_counted ha hout hb hs

theorem not_dominates_header : ¬ (FlowGraph.ofFunc f).Dominates p.inner.preheader outer.header :=
  fun hd => h.preheader_ne (hd.antisymm (h.outer_loop.dominates h.preheader_mem)
    h.outer_loop.reachable)

end Shape

/-! ## Complete iterations -/

/-- A path from the header of a loop to a latch, through the loop and past the header only at
its start. -/
def CompleteIteration (f : Func) (l : NaturalLoop) (latch : BlockId) (trail : List BlockId) : Prop :=
  (FlowGraph.ofFunc f).Path l.header latch trail ∧
    ∀ b ∈ trail.tail, b ∈ l.blocks ∧ b ≠ l.header

/-- The trail follows the edge from one block to another. -/
def Follows (trail : List BlockId) (a b : BlockId) : Prop :=
  ∃ pre post, trail = pre ++ a :: b :: post

theorem follows_of_path {g : FlowGraph} {a b x y : BlockId} {trail : List BlockId}
    (hp : g.Path a b trail) (hx : x ∈ trail) (hxb : x ≠ b) (hs : ∀ z, g.Edge x z → z = y) :
    Follows trail x y := by
  induction hp with
  | here _ => exact absurd (List.mem_singleton.mp hx) hxb
  | @step a c b trail he hp ih =>
    rcases List.mem_cons.mp hx with rfl | hx
    · obtain rfl := hs c he
      cases hp with
      | here _ => exact ⟨[], [], rfl⟩
      | step _ _ => exact ⟨[], _, rfl⟩
    · obtain ⟨pre, post, heq⟩ := ih hx hxb
      exact ⟨a :: pre, post, by rw [heq]; rfl⟩

/-- Every complete iteration of the outer loop enters the inner loop exactly when the inner
preheader dominates the outer latch. -/
theorem Nest.enters_iff_dominates (h : Nest tt f outer inner p) :
    (∀ trail, CompleteIteration f outer p.outer.latch trail →
      Follows trail p.inner.preheader inner.header) ↔
    (FlowGraph.ofFunc f).Dominates p.inner.preheader p.outer.latch := by
  constructor
  · intro hall
    by_contra hn
    -- A path to the latch around the preheader holds an iteration around it, from its last
    -- visit of the outer header on.
    obtain ⟨e, he, trail, hp, hok⟩ := FlowGraph.not_dominates_iff.mp hn
    have hdom := (CountedLoop.latch_edge h.outer_loop h.outer_counted).2
    rcases hp.last (hdom e trail he hp) with heq | ⟨c, hc, t, ht, hokt⟩
    · have hp' : (FlowGraph.ofFunc f).Path outer.header p.outer.latch [outer.header] :=
        heq ▸ .here h.outer_loop.reachable.live
      obtain ⟨pre, post, hf⟩ := hall [outer.header] ⟨hp', fun _ hb => absurd hb List.not_mem_nil⟩
      have := congrArg List.length hf
      simp at this
      omega
    · have hmem := h.outer_loop.path_mem ht (h.outer_loop.reachable.edge hc)
        (fun x hx => (hokt x hx).1) (CountedLoop.latch_mem h.outer_loop h.outer_counted)
      obtain ⟨pre, post, hf⟩ := hall (outer.header :: t)
        ⟨.step hc ht, fun b hb => ⟨hmem b hb, (hokt b hb).1⟩⟩
      have hpre : p.inner.preheader ∈ outer.header :: t := by
        rw [hf]
        simp
      rcases List.mem_cons.mp hpre with heq | hin
      · exact h.preheader_ne heq
      · exact hok _ (hokt _ hin).2 rfl
  · rintro hd trail ⟨hp, _⟩
    -- The preheader does not dominate the outer header, so it lies on the way from there.
    obtain ⟨e, he, t, ht, hok⟩ := FlowGraph.not_dominates_iff.mp h.not_dominates_header
    have hmem : p.inner.preheader ∈ trail := by
      rcases hp.via_ne p.inner.preheader with hin | hv
      · exact hin
      · exact absurd hd (FlowGraph.not_dominates_iff.mpr ⟨e, he, .trans ⟨t, ht, hok⟩ hv⟩)
    refine follows_of_path hp hmem (Ne.symm h.latch_ne_preheader) fun z hz => ?_
    have hs := ((FlowGraph.edge_ofFunc f _ _).mp hz).2.2
    rw [h.inner_counted.preheader_succ, List.mem_singleton] at hs
    exact hs

/-! ## Accepted pairs -/

/-- In every pair of nested loops that is accepted, all complete iterations of the outer loop
enter the inner one exactly when the inner preheader dominates the outer latch. -/
theorem iterations_enter_iff {o i : LoopId} (hv : f.verify tt = .ok ())
    (ho : o ∈ (LoopForest.ofFunc f).ids) (hi : i ∈ (LoopForest.ofFunc f).ids) (hne : i ≠ o)
    (hmem : ((LoopForest.ofFunc f).loop i).header ∈ ((LoopForest.ofFunc f).loop o).blocks)
    (hp : plan tt f (.ofFunc f) (.ofFunc f) ((LoopForest.ofFunc f).loop o)
      ((LoopForest.ofFunc f).loop i) = .ok p) :
    (∀ trail, CompleteIteration f ((LoopForest.ofFunc f).loop o) p.outer.latch trail →
      Follows trail p.inner.preheader ((LoopForest.ofFunc f).loop i).header) ↔
    (DomTree.ofFunc f).dominates p.inner.preheader p.outer.latch = true :=
  (nest_of_plan hv ho hi hne hmem hp).enters_iff_dominates.trans DomTree.dominates_ofGraph.symm

/-- The types of `fillNest`. -/
def fillTypes : TypeTable :=
  ⟨#[⟨none, .void⟩, ⟨none, .scalar .f32⟩, ⟨none, .scalar .i64⟩, ⟨none, .scalar .bool⟩,
    ⟨none, .pointer 1⟩]⟩

/-- Two nested loops of two iterations each.  The inner one stores ones to the first parameter.
The body of the outer one ends in `enter`. -/
def fillNest (enter : Op) : Func where
  name := "fill"
  params := #[⟨"p", 4, true⟩, ⟨"c", 3, false⟩]
  ret := 0
  blocks := #[⟨"entry", [0], false⟩, ⟨"outer.header", [1, 2, 3], false⟩, ⟨"outer.body", [4], false⟩,
    ⟨"inner.preheader", [5], false⟩, ⟨"inner.header", [6, 7, 8], false⟩,
    ⟨"inner.latch", [9, 10, 11, 12], false⟩, ⟨"inner.exit", [13], false⟩,
    ⟨"outer.latch", [14, 15], false⟩, ⟨"outer.exit", [16], false⟩]
  insts := #[⟨.br 1, 0, none, some 0⟩,
    ⟨.phi [(.const 0, 0), (.inst 14, 7)], 2, none, some 1⟩,
    ⟨.icmp .ult (.inst 1) (.const 2), 3, none, some 1⟩, ⟨.condBr (.inst 2) 2 8, 0, none, some 1⟩,
    ⟨enter, 0, none, some 2⟩, ⟨.br 4, 0, none, some 3⟩,
    ⟨.phi [(.const 0, 3), (.inst 11, 5)], 2, none, some 4⟩,
    ⟨.icmp .ult (.inst 6) (.const 2), 3, none, some 4⟩, ⟨.condBr (.inst 7) 5 6, 0, none, some 4⟩,
    ⟨.gep (.param 0) (.inst 6), 4, none, some 5⟩, ⟨.store (.const 3) (.inst 9), 0, none, some 5⟩,
    ⟨.binary .add (.inst 6) (.const 1), 2, none, some 5⟩, ⟨.br 4, 0, none, some 5⟩,
    ⟨.br 7, 0, none, some 6⟩, ⟨.binary .add (.inst 1) (.const 1), 2, none, some 7⟩,
    ⟨.br 1, 0, none, some 7⟩, ⟨.ret none, 0, none, some 8⟩]
  constants := #[⟨2, .int 0⟩, ⟨2, .int 1⟩, ⟨2, .int 2⟩, ⟨1, .f32 ⟨0x3f800000⟩⟩]
  layout := [0, 1, 2, 3, 4, 5, 6, 7, 8]

/-- What is planned for it. -/
def fillPlan : Plan where
  outer := ⟨0, 1, 7, 8, [2, 3, 4, 5, 6], 2, 1, .const 0, .const 2, 1, 2, 14⟩
  inner := ⟨3, 4, 5, 6, [], 5, 6, .const 0, .const 2, 1, 7, 11⟩
  innerBlocks := [4, 5]

/-- The body of the outer loop goes to the inner one in each iteration. -/
abbrev straightNest : Func := fillNest (.br 3)

/-- The body of the outer loop goes to the inner one if the second parameter is true. -/
abbrev guardedNest : Func := fillNest (.condBr (.param 1) 3 7)

theorem iterations_enter_straightNest :
    (∀ trail, CompleteIteration straightNest ((LoopForest.ofFunc straightNest).loop 0) 7 trail →
      Follows trail 3 ((LoopForest.ofFunc straightNest).loop 1).header) ↔
    (DomTree.ofFunc straightNest).dominates 3 7 = true :=
  iterations_enter_iff (f := straightNest) (p := fillPlan) (o := 0) (i := 1)
    (by cbv : straightNest.verify fillTypes = .ok ()) (by decide) (by decide) (by decide) (by decide +kernel) (by cbv)

/-- A pair is accepted although an iteration of the outer loop need not enter the inner one.
After the move, a run stores what the original run did not. -/
theorem guardedNest_accepted :
    guardedNest.verify fillTypes = .ok () ∧
    plan fillTypes guardedNest (.ofFunc guardedNest) (.ofFunc guardedNest)
      ((LoopForest.ofFunc guardedNest).loop 0) ((LoopForest.ofFunc guardedNest).loop 1) =
      .ok fillPlan ∧
    (DomTree.ofFunc guardedNest).dominates fillPlan.inner.preheader fillPlan.outer.latch = false ∧
    ((⟨fillTypes, #[]⟩ : Program).run guardedNest [.ptr ⟨0, 0⟩, .bool false]
      ⟨#[#[0, 0, 0, 0, 0, 0, 0, 0]], 0, 0⟩ 100).memory.regions = #[#[0, 0, 0, 0, 0, 0, 0, 0]] ∧
    ((⟨fillTypes, #[]⟩ : Program).run (apply guardedNest fillPlan) [.ptr ⟨0, 0⟩, .bool false]
      ⟨#[#[0, 0, 0, 0, 0, 0, 0, 0]], 0, 0⟩ 100).memory.regions =
      #[#[0, 0, 128, 63, 0, 0, 128, 63]] :=
  ⟨by cbv, by cbv, by decide +kernel, by decide +kernel, by decide +kernel⟩

end Fusion

end LoopNest
