import LoopNest.Proofs.Loop.Affine
import LoopNest.Proofs.Loop.Kept
import LoopNest.Proofs.Vectorize.Follows

/-!
# Loops that vectorizing another loop leaves alone

A loop that is rejected must not be accepted after another loop was vectorized.  `Untouched` lists
what stays of it: its code, the edges at its border, and what is invariant in it.  What is used
after it may be used at another place, but it is still used.  The loop uses known operands only
(`NaturalLoop.Within`), and nothing is asked of other values.

Each check of the decision is compared with the one before: the shape (`Untouched.kept`), the trip
count, the accesses and the body.  The types are looked up in a table that may have grown
(`Untouched.follows_plan`).
-/

namespace LoopNest

open Func

/-- The code of the loop and what it uses are known. -/
def NaturalLoop.Within (known : Operand → Prop) (f : Func) (l : NaturalLoop) : Prop :=
  ∀ b ∈ l.blocks, ∀ i ∈ f.body b, known (.inst i) ∧ ∀ v ∈ (f.op i).operands, known v

namespace Vectorize

/-- The second function has the code of the loop as the first one has it. -/
structure SameCode (f g : Func) (l : NaturalLoop) : Prop extends Func.Grown f g where
  body_eq : ∀ b ∈ l.blocks, g.body b = f.body b
  op_eq : ∀ b ∈ l.blocks, ∀ i ∈ f.body b, g.op i = f.op i

/-- The loop is a loop of both functions, and a plan for it in the second one is as good as a plan
in the first. -/
structure Untouched (known : Operand → Prop) (f g : Func) (l : NaturalLoop) : Prop
    extends SameCode f g l where
  owner_iff : ∀ b ∈ l.blocks, ∀ i, g.owner i = some b ↔ f.owner i = some b
  predecessors_eq : g.predecessors l.header = f.predecessors l.header
  /-- The blocks that lead to the header lead where they led. -/
  entered : ∀ b ∈ f.predecessors l.header, g.successors b = f.successors b
  dedicated : ∀ e ∈ l.exits f, (∀ b ∈ g.predecessors e, b ∈ l.blocks) →
    ∀ b ∈ f.predecessors e, b ∈ l.blocks
  exit_phis : ∀ e ∈ l.exits f, g.phis e = f.phis e
  /-- What is used outside is still used outside. -/
  used : ∀ b ∈ l.blocks, ∀ i ∈ f.body b, f.usedOutside l.contains i = true →
    g.usedOutside l.contains i = true
  unmarked : (g.block l.header).vectorized = false → (f.block l.header).vectorized = false
  invariant_eq : ∀ v, known v → l.isInvariant g (.ofGraph (.ofFunc g)) v =
    l.isInvariant f (.ofGraph (.ofFunc f)) v

namespace SameCode

variable {known : Operand → Prop} {f g : Func} {l : NaturalLoop} (h : SameCode f g l)

include h

theorem trans {k : Func} (h' : SameCode g k l) : SameCode f k l where
  toGrown := h.toGrown.trans h'.toGrown
  body_eq b hb := (h'.body_eq b hb).trans (h.body_eq b hb)
  op_eq b hb i hi := (h'.op_eq b hb i (h.body_eq b hb ▸ hi)).trans (h.op_eq b hb i hi)

theorem within (hw : l.Within known f) : l.Within known g := by
  intro b hb i hi
  rw [h.body_eq b hb] at hi
  rw [h.op_eq b hb i hi]
  exact hw b hb i hi

end SameCode

namespace Untouched

variable {known : Operand → Prop} {f g : Func} {l : NaturalLoop} {loop : CountedLoop}
  {config : VectorConfig} {b : BlockId} {i : InstId} (h : Untouched known f g l)

include h

theorem successors_eq (hb : b ∈ l.blocks) : g.successors b = f.successors b :=
  successors_congr (h.body_eq b hb) (h.op_eq b hb)

theorem exits_eq : l.exits g = l.exits f := by
  have hall : l.blocks.flatMap g.successors = l.blocks.flatMap f.successors :=
    List.flatMap_congr fun b hb => h.successors_eq hb
  rw [NaturalLoop.exits, NaturalLoop.exits, hall]

theorem exitingBlocks_eq : l.exitingBlocks g = l.exitingBlocks f :=
  List.filter_congr fun b hb => by rw [h.successors_eq hb]

theorem phis_eq (hb : b ∈ l.blocks) : g.phis b = f.phis b :=
  phis_congr (h.body_eq b hb) fun i hi => by rw [h.op_eq b hb i hi]

theorem preheader?_eq : l.preheader? g (.ofFunc g) = l.preheader? f (.ofFunc f) := by
  rw [NaturalLoop.preheader?, NaturalLoop.preheader?, FlowGraph.predecessors_ofFunc,
    FlowGraph.predecessors_ofFunc, h.predecessors_eq]
  split
  · rename_i p hp
    have hmem : p ∈ f.predecessors l.header :=
      (List.mem_filter.mp (hp ▸ List.mem_singleton.mpr rfl)).1
    rw [h.entered p hmem]
  · rfl

omit h in
theorem refl (known : Operand → Prop) (f : Func) (l : NaturalLoop) : Untouched known f f l where
  toSameCode := ⟨.refl f, fun _ _ => rfl, fun _ _ _ _ => rfl⟩
  owner_iff _ _ _ := Iff.rfl
  predecessors_eq := rfl
  entered _ _ := rfl
  dedicated _ _ h := h
  exit_phis _ _ := rfl
  used _ _ _ _ h := h
  unmarked h := h
  invariant_eq _ _ := rfl

/-- Two changes after each other. -/
theorem trans {k : Func} (h' : Untouched known g k l) : Untouched known f k l := by
  have hmem {b : BlockId} (hb : b ∈ l.blocks) {i : InstId} (hi : i ∈ f.body b) : i ∈ g.body b :=
    h.body_eq b hb ▸ hi
  have hexits {e : BlockId} (he : e ∈ l.exits f) : e ∈ l.exits g := h.exits_eq ▸ he
  refine ⟨h.toSameCode.trans h'.toSameCode, ?_, ?_, ?_, ?_, ?_, ?_, ?_, ?_⟩
  · exact fun b hb i => (h'.owner_iff b hb i).trans (h.owner_iff b hb i)
  · exact h'.predecessors_eq.trans h.predecessors_eq
  · exact fun b hb => (h'.entered b (h.predecessors_eq ▸ hb)).trans (h.entered b hb)
  · exact fun e he hk => h.dedicated e he (h'.dedicated e (hexits he) hk)
  · exact fun e he => (h'.exit_phis e (hexits he)).trans (h.exit_phis e he)
  · exact fun b hb i hi huse => h'.used b hb i (hmem hb hi) (h.used b hb i hi huse)
  · exact fun hk => h.unmarked (h'.unmarked hk)
  · exact fun v hv => (h'.invariant_eq v hv).trans (h.invariant_eq v hv)

section

variable (hf : f.Closed known) (hl : IsLoop (.ofFunc f) l) (hw : l.Within known f)

include hf hl hw

/-- The shape of the loop. -/
theorem kept : l.Kept known f g l := by
  have hheader := hl.header_mem
  have hg := h.toGrown.closed hf
  have huses := h.within hw l.header hheader
  constructor
  case header_eq => rfl
  case mem_iff => exact fun _ => Iff.rfl
  case latches_eq => rfl
  case preheader_eq => exact h.preheader?_eq
  case exiting_eq => exact h.exitingBlocks_eq
  case exits =>
    refine fun e he => ⟨h.exits_eq.symm ▸ he, fun hded => ?_⟩
    simp only [NaturalLoop.isDedicatedExit, FlowGraph.predecessors_ofFunc, List.all_eq_true,
      NaturalLoop.contains, List.contains_eq_mem, decide_eq_true_eq] at hded ⊢
    exact h.dedicated e he hded
  case branch_eq =>
    rw [terminator?_congr (h.body_eq _ hheader) (h.op_eq _ hheader)]
    cases ht : f.terminator? l.header with
    | none => rfl
    | some t => simp only [Option.map_some, h.op_eq _ hheader t (mem_body_of_terminator ht).1]
  case phis_eq => exact h.phis_eq hheader
  case incoming_eq =>
    intro i hi q
    rw [incoming?, incoming?, h.op_eq _ hheader i (mem_body_of_phis hi)]
  case op_eq =>
    intro b hb i hown
    have hold := (h.owner_iff b hb i).mp hown
    refine ⟨hold, fun hterm hphi => ?_⟩
    rcases h.op_stays i (owner_lt hold) with heq | ⟨_, hcontrol⟩
    · exact heq.symm
    · rw [hterm, hphi] at hcontrol
      cases hcontrol
  case phi_uses => exact fun i hi => (huses i (mem_body_of_phis hi)).2
  case branch_uses => exact fun t ht => (huses t (mem_body_of_terminator ht).1).2
  case uses => exact hg.operands
  case literal => exact fun v hv n hn => h.intLiteral?_eq hf hv ▸ hn
  case invariant => exact fun v hv hinv => h.invariant_eq v hv ▸ hinv

theorem recognize_eq
    (hc : CountedLoop.recognize g (.ofFunc g) (.ofGraph (.ofFunc g)) l = .ok loop) :
    CountedLoop.recognize f (.ofFunc f) (.ofGraph (.ofFunc f)) l = .ok loop := by
  have hbody := (CountedLoop.isCounted_of_recognize hc).body_eq
  rw [(h.kept hf hl hw).recognize hl hc, ← hbody]

end

/-! ## The checks -/

section

variable (hf : f.Closed known) (hl : IsLoop (.ofFunc f) l) (hw : l.Within known f)
  (hc : loop.IsCounted f l)

include hl hc

theorem checkStructure_eq_ok
    (hcheck : checkStructure ⟨g, .ofGraph (.ofFunc g), l, loop, config⟩ = .ok ()) :
    checkStructure ⟨f, .ofGraph (.ofFunc f), l, loop, config⟩ = .ok () := by
  have hheader : headerIsControl ⟨g, .ofGraph (.ofFunc g), l, loop, config⟩ =
      headerIsControl ⟨f, .ofGraph (.ofFunc f), l, loop, config⟩ := by
    simp only [headerIsControl, h.body_eq _ (hc.header_eq ▸ hl.header_mem)]
  have hlatch : latchIsControl ⟨g, .ofGraph (.ofFunc g), l, loop, config⟩ =
      latchIsControl ⟨f, .ofGraph (.ofFunc f), l, loop, config⟩ := by
    simp only [latchIsControl, h.body_eq _ (CountedLoop.latch_mem hl hc)]
  have hexit : g.phis loop.exit = f.phis loop.exit := by
    refine h.exit_phis _ (NaturalLoop.mem_exits.mpr ⟨⟨_, hl.header_mem, ?_⟩, hc.exit_out⟩)
    exact (CountedLoop.header_successors hc).mpr (.inr rfl)
  have hbodies : l.blocks.flatMap g.body = l.blocks.flatMap f.body :=
    List.flatMap_congr fun b hb => h.body_eq b hb
  unfold checkStructure at hcheck ⊢
  simp only [hheader, hlatch, hexit, hbodies] at hcheck ⊢
  split at hcheck
  · cases hcheck
  rw [if_neg ‹_›]
  split at hcheck
  · cases hcheck
  rw [if_neg ‹_›]
  split at hcheck
  · cases hcheck
  rw [if_neg ‹_›]
  split at hcheck
  · cases hcheck
  rw [if_neg ‹_›]
  split at hcheck
  · cases hcheck
  · rename_i hnone
    have hold : (l.blocks.flatMap f.body).find? (f.usedOutside l.contains) = none := by
      refine List.find?_eq_none.mpr fun i hi huse => ?_
      obtain ⟨b, hb, hib⟩ := List.mem_flatMap.mp hi
      exact List.find?_eq_none.mp hnone i hi (h.used b hb i hib huse)
    rw [hold]

omit h

include hw

theorem known_start : known loop.start := by
  obtain ⟨incoming, hop, hin⟩ := mem_of_incoming? hc.start_eq
  have hmem : loop.induction ∈ f.phis l.header := by simp [hc.phis_eq]
  exact (hw _ hl.header_mem _ (mem_body_of_phis hmem)).2 _ (hop ▸ List.mem_map_of_mem hin)

include hf

theorem known_bound : known loop.bound := by
  obtain ⟨t, ht, hop⟩ := hc.exitBranch
  have hcond : known (.inst loop.cond) :=
    (hw _ hl.header_mem t (mem_body_of_terminator ht).1).2 _ (hop ▸ List.mem_singleton.mpr rfl)
  refine hf.operands loop.cond hcond ?_ ?_ _ ?_ <;> simp [hc.cond_op, Op.isPhi, Op.isTerminator,
    Op.operands]

include h

theorem vectorEnd_eq {base tt tt' : TypeTable} (htys : ∀ v, known v → f.tyOf v < base.size)
    (ht : base.Extends tt) (ht' : base.Extends tt') :
    vectorEnd ⟨g, .ofGraph (.ofFunc g), l, loop, config⟩ tt' =
      vectorEnd ⟨f, .ofGraph (.ofFunc f), l, loop, config⟩ tt := by
  have hstart := known_start hl hw hc
  have hbound := known_bound hf hl hw hc
  have hscalar :
      tt'.elementScalar? (g.tyOf loop.start) = tt.elementScalar? (f.tyOf loop.start) := by
    have hlt := htys _ hstart
    rw [h.tyOf_eq hf hstart, ht.elementScalar?_eq hlt, ht'.elementScalar?_eq hlt]
  simp only [vectorEnd, CountedLoop.tripCount?, h.intLiteral?_eq hf hstart,
    h.intLiteral?_eq hf hbound, hscalar, h.invariant_eq _ hstart, h.invariant_eq _ hbound]

omit hl hc in
/-- The accesses in blocks of the loop. -/
theorem ofBlocks_eq {bs : List BlockId} (hbs : ∀ b ∈ bs, b ∈ l.blocks) :
    MemAccess.ofBlocks g bs = MemAccess.ofBlocks f bs := by
  have hall : bs.flatMap g.body = bs.flatMap f.body :=
    List.flatMap_congr fun b hb => h.body_eq b (hbs b hb)
  rw [MemAccess.ofBlocks, MemAccess.ofBlocks, hall]
  refine List.filterMap_congr fun i hi => ?_
  obtain ⟨b, hb, hi⟩ := List.mem_flatMap.mp hi
  have hreads := (hw b (hbs b hb) i hi).2
  rw [MemAccess.ofInst?, MemAccess.ofInst?, h.op_eq b (hbs b hb) i hi]
  cases hop : f.op i with
  | load p => simp only [h.place_eq hf (hreads p (by simp [hop, Op.operands]))]
  | store v p => simp only [h.place_eq hf (hreads p (by simp [hop, Op.operands]))]
  | _ => rfl

omit hl in
theorem checkMemory_eq_ok
    (hcheck : checkMemory ⟨g, .ofGraph (.ofFunc g), l, loop, config⟩ = .ok ()) :
    checkMemory ⟨f, .ofGraph (.ofFunc f), l, loop, config⟩ = .ok () := by
  have hbody (b : BlockId) (hb : b ∈ loop.body) : b ∈ l.blocks :=
    (List.mem_filter.mp (hc.body_eq ▸ hb)).1
  unfold checkMemory at hcheck ⊢
  rw [h.ofBlocks_eq hf hw hbody] at hcheck
  split at hcheck
  · cases hcheck
  · rename_i hnone
    rw [hnone]

theorem sameUse {base : TypeTable} (htys : ∀ v, known v → f.tyOf v < base.size) (hb : b ∈ l.blocks)
    (hi : i ∈ f.body b) : SameUse base ⟨f, .ofGraph (.ofFunc f), l, loop, config⟩
      ⟨g, .ofGraph (.ofFunc g), l, loop, config⟩ i := by
  obtain ⟨hself, hreads⟩ := hw b hb i hi
  have hlt := hf.lt hself
  have hty : f.tyOf (.inst i) = (f.inst i).ty := by rw [tyOf, operandTy_inst hlt]
  constructor
  case op_eq => exact h.op_eq b hb i hi
  case ty_eq => exact (lt_of_operandTy (h.operandTy_eq _ _ (operandTy_inst hlt))).2
  case ty_lt => exact hty ▸ htys _ hself
  case tyOf_eq => exact fun v hv => h.tyOf_eq hf (hreads v hv)
  case tyOf_lt => exact fun v hv => htys _ (hreads v hv)
  case owner_iff => exact fun j _ => h.owner_iff _ (hc.header_eq ▸ hl.header_mem) j
  case stride_eq => exact h.stride?_eq hf h.invariant_eq hself

end

/-- A loop that could be vectorized after the change could be vectorized before. -/
theorem follows_plan (hf : f.Closed known) (hl : IsLoop (.ofFunc f) l) (hw : l.Within known f)
    {base : TypeTable} (htys : ∀ v, known v → f.tyOf v < base.size) (config : VectorConfig) :
    Follows base (fun _ _ => True)
      (plan config f (.ofFunc f) (.ofGraph (.ofFunc f)) l)
      (plan config g (.ofFunc g) (.ofGraph (.ofFunc g)) l) := by
  unfold plan
  by_cases hmark : (g.block l.header).vectorized = true
  · rw [if_pos hmark]
    exact follows_reject
  rw [if_neg hmark, if_neg (by simpa using h.unmarked (by simpa using hmark))]
  cases hrec : CountedLoop.recognize g (.ofFunc g) (.ofGraph (.ofFunc g)) l with
  | error e => exact follows_reject
  | ok loop => ?_
  have hrec := h.recognize_eq hf hl hw hrec
  have hc := CountedLoop.isCounted_of_recognize hrec
  rw [hrec]
  dsimp only
  refine Follows.bind (r := fun _ _ => True) (follows_ofExcept fun x hx => ?_) fun _ _ _ => ?_
  · exact ⟨(), h.checkStructure_eq_ok hl hc hx, trivial⟩
  refine follows_types.bind fun tt tt' htt => ?_
  rw [h.vectorEnd_eq hf hl hw hc htys htt.1 htt.2]
  refine Follows.bind (r := fun _ _ => True) (follows_ofExcept fun x hx => ⟨x, hx, trivial⟩) ?_
  rintro ⟨stop, epilogue⟩ ⟨stop', epilogue'⟩ _
  refine Follows.bind (r := fun _ _ => True) (follows_ofExcept fun x hx => ?_) fun _ _ _ => ?_
  · exact ⟨(), h.checkMemory_eq_ok hf hw hc hx, trivial⟩
  rw [h.body_eq _ hc.bodyEntry_mem]
  have hlower : Follows base (fun _ _ => True)
      (lowerBody ⟨f, .ofGraph (.ofFunc f), l, loop, config⟩ [(loop.iv, .index 1)]
        (f.body loop.bodyEntry).dropLast)
      (lowerBody ⟨g, .ofGraph (.ofFunc g), l, loop, config⟩ [(loop.iv, .index 1)]
        (f.body loop.bodyEntry).dropLast) :=
    follows_lowerBody (by rfl) fun i hi =>
      h.sameUse hf hl hw hc htys hc.bodyEntry_mem (List.mem_of_mem_dropLast hi)
  refine hlower.bind fun _ _ _ => ?_
  exact (follows_intern _).bind fun _ _ _ => (follows_intern _).bind fun _ _ _ => follows_pure trivial

end Untouched

end Vectorize

end LoopNest
