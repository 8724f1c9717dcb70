import LoopNest.Proofs.Func.Insert
import LoopNest.Proofs.Loop.Counted
import LoopNest.Proofs.Vectorize.Typed

/-!
# Planned loops

`Planned` lists what is known of a loop that is going to be vectorized: its shape, that nothing in
it is used after it, and how its body is carried over.  `planned_of_plan` reads this off the
decision.

The types of the body have to be scalar (`Func.Guarded`).  The pass makes loops with vectors itself,
and it may look at the function again afterwards, but their headers are marked.  Also loops have to
be entered at their headers only (`Func.SingleEntry`).  Code that can be reached has to be like
that anyway.
-/

namespace LoopNest

namespace Func

/-- No instruction of a block takes or gives a vector. -/
def ScalarBlock (tt : TypeTable) (f : Func) (b : BlockId) : Prop :=
  ∀ i ∈ f.body b, tt.lanes? (f.inst i).ty = none ∧
    ∀ v ∈ (f.op i).operands, tt.lanes? (f.tyOf v) = none

/-- A loop whose header is not marked goes on from there without vectors. -/
def Guarded (tt : TypeTable) (f : Func) : Prop :=
  ∀ l, IsLoop (.ofFunc f) l → (f.block l.header).vectorized = false →
    ∀ b ∈ l.blocks, b ∈ f.successors l.header → f.ScalarBlock tt b

/-- Loops are entered at their headers only, also from blocks that are never reached. -/
def SingleEntry (f : Func) : Prop :=
  ∀ l, IsLoop (.ofFunc f) l → ∀ b ∈ l.blocks, b ≠ l.header → ∀ a ∈ f.predecessors b, a ∈ l.blocks

variable {tt tt' : TypeTable} {f : Func} {b : BlockId}

/-- The condition can be read off the forest. -/
theorem guarded_iff : f.Guarded tt ↔ ∀ i ∈ (LoopForest.forest (.ofFunc f)).ids,
    (f.block ((LoopForest.forest (.ofFunc f)).loop i).header).vectorized = false →
    ∀ b ∈ ((LoopForest.forest (.ofFunc f)).loop i).blocks,
      b ∈ f.successors ((LoopForest.forest (.ofFunc f)).loop i).header → f.ScalarBlock tt b := by
  have hg := FlowGraph.coherent_ofFunc f
  refine ⟨fun h i hi => h _ (LoopForest.isLoop_loop hg hi), fun h l hl hmark b hb hs => ?_⟩
  obtain ⟨i, hi, heq, hmem⟩ := LoopForest.exists_of_isLoop hg hl
  exact h i hi (heq ▸ hmark) b ((hmem b).mpr hb) (heq ▸ hs)

theorem singleEntry_iff : f.SingleEntry ↔ ∀ i ∈ (LoopForest.forest (.ofFunc f)).ids,
    ∀ b ∈ ((LoopForest.forest (.ofFunc f)).loop i).blocks,
      b ≠ ((LoopForest.forest (.ofFunc f)).loop i).header →
      ∀ a ∈ f.predecessors b, a ∈ ((LoopForest.forest (.ofFunc f)).loop i).blocks := by
  have hg := FlowGraph.coherent_ofFunc f
  refine ⟨fun h i hi => h _ (LoopForest.isLoop_loop hg hi), fun h l hl b hb hne a ha => ?_⟩
  obtain ⟨i, hi, heq, hmem⟩ := LoopForest.exists_of_isLoop hg hl
  exact (hmem a).mp (h i hi b ((hmem b).mpr hb) (heq ▸ hne) a ha)

instance (tt : TypeTable) (f : Func) (b : BlockId) : Decidable (f.ScalarBlock tt b) := by
  unfold ScalarBlock
  infer_instance

instance (tt : TypeTable) (f : Func) : Decidable (f.Guarded tt) :=
  decidable_of_iff _ guarded_iff.symm

instance (f : Func) : Decidable f.SingleEntry := decidable_of_iff _ singleEntry_iff.symm

theorem lanes_extends {t : TyId} (ht : tt.Extends tt') (hlt : t < tt.size) :
    tt'.lanes? t = tt.lanes? t := by
  unfold TypeTable.lanes?
  rw [ht.shape_eq_of_lt hlt]

end Func

namespace Vectorize

/-- The shape of a loop that is going to be vectorized. -/
structure Shape (f : Func) (l : NaturalLoop) (p : VectorPlan) : Prop where
  isLoop : IsLoop (.ofFunc f) l
  counted : p.loop.IsCounted f l
  header_body : ∃ t, f.body l.header = [p.loop.induction, p.loop.cond, t]
  latch_body : ∃ t, f.body p.loop.latch = [p.loop.next, t]
  /-- There is one more block. -/
  single : p.loop.body.length = 1
  exit_phis : f.phis p.loop.exit = []
  unmarked : (f.block l.header).vectorized = false

/-- A loop that is going to be vectorized, with its uses and types. -/
structure Planned (tt : TypeTable) (f : Func) (l : NaturalLoop) (p : VectorPlan) : Prop
    extends Shape f l p where
  /-- Nothing is used outside. -/
  uses : ∀ b ∈ l.blocks, ∀ i ∈ f.body b, ∀ c ∈ f.layout, c ∉ l.blocks → ∀ u ∈ f.body c,
    Operand.inst i ∉ (f.op u).operands
  ivTy_eq : p.ivTy = f.tyOf p.loop.iv
  boolTy_eq : tt.lookup (Shape.scalar .bool).unnamed = some p.boolTy
  voidTy_eq : tt.lookup Shape.void.unnamed = some p.voidTy

variable {tt tt' : TypeTable} {f : Func} {l : NaturalLoop} {p : VectorPlan} {config : VectorConfig}

/-- What the shape that vectorizing starts from is like. -/
theorem checkStructure_eq_ok {c : Context} (h : checkStructure c = .ok ()) :
    c.loop.step = 1 ∧ c.loop.body.length = 1 ∧
      (∃ t, c.func.body c.loop.header = [c.loop.induction, c.loop.cond, t]) ∧
      (∃ t, c.func.body c.loop.latch = [c.loop.next, t]) ∧
      c.func.phis c.loop.exit = [] ∧
      ∀ b ∈ c.natural.blocks, ∀ i ∈ c.func.body b,
        c.func.usedOutside c.natural.contains i = false := by
  unfold checkStructure at h
  split at h
  · cases h
  split at h
  · cases h
  split at h
  · cases h
  split at h
  · cases h
  rename_i hstep hlength hcontrol hexit
  split at h
  · cases h
  rename_i hfind
  rw [Bool.not_eq_false, Bool.and_eq_true] at hcontrol
  obtain ⟨hheader, hlatch⟩ := hcontrol
  refine ⟨by simpa using hstep, by simpa using hlength, ?_, ?_, by simpa using hexit,
    fun b hb i hi => ?_⟩
  · unfold headerIsControl at hheader
    split at hheader
    · rename_i i j t hbody
      simp only [Bool.and_eq_true, beq_iff_eq] at hheader
      obtain ⟨rfl, rfl⟩ := hheader
      exact ⟨t, hbody⟩
    · cases hheader
  · unfold latchIsControl at hlatch
    split at hlatch
    · rename_i n t hbody
      obtain rfl := beq_iff_eq.mp hlatch
      exact ⟨t, hbody⟩
    · cases hlatch
  · have := List.find?_eq_none.mp hfind i (List.mem_flatMap.mpr ⟨b, hb, hi⟩)
    simpa using this

/-- The checks that a plan has passed, and the types that it interned. -/
theorem plan_eq_ok {g : FlowGraph} {dom : DomTree}
    (h : plan config f g dom l tt = (.ok p, tt')) :
    (f.block l.header).vectorized = false ∧ CountedLoop.recognize f g dom l = .ok p.loop ∧
    checkStructure ⟨f, dom, l, p.loop, config⟩ = .ok () ∧
    checkMemory ⟨f, dom, l, p.loop, config⟩ = .ok () ∧
    (∃ tt₁, lowerBody ⟨f, dom, l, p.loop, config⟩ [(p.loop.iv, .index 1)]
      (f.body p.loop.bodyEntry).dropLast tt = (.ok p.steps, tt₁) ∧ tt₁.Extends tt') ∧
    p.ivTy = f.tyOf p.loop.iv ∧ tt'.lookup (Shape.scalar .bool).unnamed = some p.boolTy ∧
    tt'.lookup Shape.void.unnamed = some p.voidTy := by
  unfold plan at h
  split at h
  · exact (reject_eq_ok.mp h).elim
  rename_i hmark
  cases hrec : CountedLoop.recognize f g dom l with
  | error e => simp only [hrec, reject_eq_ok] at h
  | ok loop =>
    simp only [hrec] at h
    obtain ⟨_, _, hstep, h⟩ := bind_eq_ok.mp h
    obtain ⟨hcheck, rfl⟩ := ofExcept_eq_ok.mp hstep
    obtain ⟨_, _, hstep, h⟩ := bind_eq_ok.mp h
    obtain ⟨rfl, rfl⟩ := types_eq_ok.mp hstep
    obtain ⟨⟨stop, epilogue⟩, _, hstep, h⟩ := bind_eq_ok.mp h
    obtain ⟨_, rfl⟩ := ofExcept_eq_ok.mp hstep
    obtain ⟨_, _, hstep, h⟩ := bind_eq_ok.mp h
    obtain ⟨hmemory, rfl⟩ := ofExcept_eq_ok.mp hstep
    obtain ⟨steps, tt₁, hbody, h⟩ := bind_eq_ok.mp h
    obtain ⟨boolTy, tt₂, hbool, h⟩ := bind_eq_ok.mp h
    obtain ⟨voidTy, tt₃, hvoid, h⟩ := bind_eq_ok.mp h
    obtain ⟨rfl, rfl⟩ := pure_eq_ok.mp h
    obtain ⟨hext₂, hlook₂⟩ := lookup_of_intern hbool
    obtain ⟨hext₃, hlook₃⟩ := lookup_of_intern hvoid
    exact ⟨by simpa using hmark, rfl, hcheck, hmemory, ⟨tt₁, hbody, hext₂.trans hext₃⟩, rfl,
      hext₃.lookup_eq hlook₂, hlook₃⟩

/-- The shape of an accepted loop, whatever its types are. -/
theorem shape_of_plan (hl : IsLoop (.ofFunc f) l)
    (h : plan config f (.ofFunc f) (.ofGraph (.ofFunc f)) l tt = (.ok p, tt')) : Shape f l p := by
  obtain ⟨hmark, hrec, hcheck, _⟩ := plan_eq_ok h
  have hc := CountedLoop.isCounted_of_recognize hrec
  obtain ⟨_, hsingle, hheader, hlatch, hexit, _⟩ := checkStructure_eq_ok hcheck
  exact ⟨hl, hc, hc.header_eq ▸ hheader, hlatch, hsingle, hexit, hmark⟩

/-- What a plan was made for. -/
theorem planned_of_plan (hs : f.Sound tt) (hl : IsLoop (.ofFunc f) l)
    (h : plan config f (.ofFunc f) (.ofGraph (.ofFunc f)) l tt = (.ok p, tt')) :
    tt.Extends tt' ∧ Planned tt' f l p ∧
      LowersAll tt' ⟨f, .ofGraph (.ofFunc f), l, p.loop, config⟩ [(p.loop.iv, .index 1)]
        (f.body p.loop.bodyEntry).dropLast p.steps := by
  obtain ⟨_, _, hcheck, _, ⟨tt₁, hbody, hext⟩, hiv, hbool, hvoid⟩ := plan_eq_ok h
  obtain ⟨hext₁, hlow⟩ := lowersAll_of_lowerBody hbody
  obtain ⟨_, _, _, _, _, huses⟩ := checkStructure_eq_ok hcheck
  exact ⟨hext₁.trans hext, ⟨shape_of_plan hl h,
    fun b hb i hi c hlive hout u hu => hs.wellFormed.not_usedOutside (huses b hb i hi) hlive hout hu,
    hiv, hbool, hvoid⟩, hlow.mono hext⟩

end Vectorize

end LoopNest
