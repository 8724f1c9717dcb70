import LoopNest.Proofs.Func.Rooted
import LoopNest.Proofs.Vectorize.Filled
import LoopNest.Proofs.Vectorize.Swept

/-!
# The entry while a loop is vectorized

Vectorizing a counted loop adds code before the terminator of the preheader, opens blocks before the
old header and fills them one after the other, and none of their terminators leads to the entry.  The
blocks that are erased are those of the loop, and the entry is not in a loop.  So the function keeps
its root (`keepsRoot_apply`), also when the verifier would refuse it.
-/

namespace LoopNest

open Func

namespace Vectorize

variable {base f g : Func} {e b : BlockId} {pending : BlockId → Prop} {p : VectorPlan}

/-! ## The end of the vector loop -/

theorem rooted_emitEnd (hf : Rooted base e pending f) (p : VectorPlan) (width : Int64) :
    Rooted base e pending (emitEnd f p width).2 := by
  unfold emitEnd
  split
  · exact hf.addConstant _ _
  · exact (((((((hf.addConstant _ _).addConstant _ _).insertBeforeTerminator _ _).insertBeforeTerminator
      _ _).insertBeforeTerminator _ _).insertBeforeTerminator _ _).insertBeforeTerminator
      _ _).insertBeforeTerminator _ _

theorem layout_emitEnd (f : Func) (p : VectorPlan) (width : Int64) :
    (emitEnd f p width).2.layout = f.layout := by
  unfold emitEnd
  split
  · rfl
  · simp only [computeEnd, addBefore, layout_insertBeforeTerminator, layout_addConstant]

/-! ## The blocks of the vector loop -/

theorem name_addBlocks (f : Func) (p : VectorPlan) : (addBlocks f p).2.name = f.name := by
  unfold addBlocks
  dsimp only
  split <;> rfl

/-- Adding to the body of the vector loop appends code to it. -/
def Extended (body : BlockId) (f : Func) (s : BodyState) : Prop :=
  s.func.name = f.name ∧ ∃ code, Appends body code f s.func

theorem Extended.append {s : BodyState} (hs : Extended b f s) (hb : b < f.blocks.size) (d : Draft) :
    (s.func.appendInst b d).2.name = f.name ∧ ∃ code, Appends b code f (s.func.appendInst b d).2 := by
  obtain ⟨hname, code, happ⟩ := hs
  exact ⟨hname, _, happ.trans (appends_appendInst _ (happ.blocks_size_eq.symm ▸ hb) d)⟩

theorem extended_splats (hb : b < f.blocks.size) (name : String) :
    ∀ (splats : List (Operand × TyId)) {s : BodyState}, Extended b f s →
      Extended b f (splats.foldl (fun s (v, t) => s.splat b name v t) s)
  | [], _, hs => hs
  | (v, t) :: splats, s, hs => by
    refine extended_splats hb name splats ?_
    change Extended b f (s.splat b name v t)
    unfold BodyState.splat
    split
    · exact hs
    · exact hs.append hb _

theorem extended_steps (hb : b < f.blocks.size) (name : String) :
    ∀ (steps : List (InstId × Lowering)) {s : BodyState}, Extended b f s →
      Extended b f (steps.foldl (fun s (i, lowering) => s.step b name i lowering) s)
  | [], _, hs => hs
  | (_, .scalar) :: steps, _, hs => extended_steps hb name steps (hs.append hb _)
  | (_, .widen _ splats) :: steps, _, hs =>
    extended_steps hb name steps ((extended_splats hb name splats hs).append hb _)

/-- Filling the body appends code and a branch to the latch. -/
theorem extended_fillBody {k : VectorBlocks} (hb : k.body < f.blocks.size) (iv : InstId) :
    (fillBody f p k iv).name = f.name ∧ ∃ code jump, Appends k.body (code ++ [jump]) f
      (fillBody f p k iv) ∧ (fillBody f p k iv).op jump = .br k.latch := by
  obtain ⟨hname, code, happ⟩ := extended_steps hb p.base p.steps
    (s := ⟨f, [(p.loop.iv, .inst iv)], []⟩) ⟨rfl, [], .refl f k.body⟩
  unfold fillBody
  dsimp only
  generalize p.steps.foldl _ _ = s at hname happ ⊢
  refine ⟨hname, code, s.func.insts.size, ?_, ?_⟩
  · exact happ.trans (appends_appendInst _ (happ.blocks_size_eq.symm ▸ hb) _)
  · exact (holds_appendInst s.func k.body _).op_eq

/-! ## Vectorizing -/

theorem rooted_fillHeader {k : VectorBlocks} (stop : Operand) (hf : Rooted base e pending f)
    (hb : k.header < f.blocks.size) (hbody : k.body ≠ e) (hleave : k.middle.getD p.loop.exit ≠ e) :
    Rooted base e (fun c => pending c ∧ c ≠ k.header) (fillHeader f p k stop).2 := by
  obtain ⟨_, happ, _, _, hbranch⟩ := appends_fillHeader (p := p) hb stop
  refine hf.fill [f.insts.size, f.insts.size + 1] happ rfl ?_ ?_
  · rw [hbranch.op_eq]
    rfl
  · rw [hbranch.op_eq]
    simpa [Op.targets] using ⟨hbody.symm, hleave.symm⟩

theorem rooted_fillBody {k : VectorBlocks} {iv : InstId} (hf : Rooted base e pending f)
    (hb : k.body < f.blocks.size) (hlatch : k.latch ≠ e) :
    Rooted base e (fun c => pending c ∧ c ≠ k.body) (fillBody f p k iv) := by
  obtain ⟨hname, code, jump, happ, hop⟩ := extended_fillBody (p := p) hb iv
  refine hf.fill code happ hname ?_ ?_
  · rw [hop]
    rfl
  · rw [hop]
    simpa [Op.targets] using hlatch.symm

theorem rooted_fillLatch {k : VectorBlocks} {iv : InstId} (width : Int64)
    (hf : Rooted base e pending f) (hb : k.latch < f.blocks.size) (hheader : k.header ≠ e) :
    Rooted base e (fun c => pending c ∧ c ≠ k.latch) (fillLatch f p k iv width) := by
  have hb' : k.latch < (f.addConstant p.ivTy (.int width)).2.blocks.size := hb
  obtain ⟨happ, _, hback⟩ := appends_two hb' ⟨.binary .add (.inst iv) (.const f.constants.size),
    p.ivTy, some (p.base ++ ".vec.next")⟩ ⟨.br k.header, p.voidTy, none⟩
  refine ((hf.addConstant p.ivTy (.int width)).fill [f.insts.size] happ rfl ?_
    ?_).setIncoming iv k.latch (.inst f.insts.size)
  · rw [hback.op_eq]
    rfl
  · rw [hback.op_eq]
    simpa [Op.targets] using hheader.symm

theorem rooted_keepEpilogue {m : BlockId} {stop : Operand} (hf : Rooted base e pending f)
    (hb : m < f.blocks.size) (hheader : p.loop.header ≠ e) :
    Rooted base e (fun c => pending c ∧ c ≠ m) (keepEpilogue f p m stop) := by
  have hop := (holds_appendInst f m ⟨.br p.loop.header, p.voidTy, none⟩).op_eq
  have hfill := hf.fill [] (appends_appendInst f hb ⟨.br p.loop.header, p.voidTy, none⟩)
    rfl (by rw [hop]; rfl) (by rw [hop]; simpa [Op.targets] using hheader.symm)
  exact ((hfill.renamePredecessor _ _ _).setIncoming _ _ _).modifyBlock _ fun _ => rfl

theorem layout_keepEpilogue (f : Func) (p : VectorPlan) (m : BlockId) (stop : Operand) :
    (keepEpilogue f p m stop).layout = f.layout :=
  layout_modifyOps _ _ (f.appendInst m ⟨.br p.loop.header, p.voidTy, none⟩).2

theorem rooted_eraseAll : ∀ (bs : List BlockId) {f : Func}, (∀ b ∈ bs, b ≠ e) →
    Rooted base e pending f → Rooted base e pending (bs.foldl eraseBlock f)
  | [], _, _, hf => hf
  | b :: bs, _, hbs, hf => rooted_eraseAll bs (fun c hc => hbs c (List.mem_cons_of_mem b hc))
    (hf.eraseBlock (hbs b List.mem_cons_self))

/-- Filling the blocks of the vector loop. -/
def fillBlocks (f : Func) (p : VectorPlan) (k : VectorBlocks) (stop : Operand) (width : Int64) :
    Func :=
  let (iv, f) := fillHeader f p k stop
  mark (fillLatch (fillBody f p k iv) p k iv width) k.header

/-- The vector loop, before it is joined to the old one. -/
def vectorLoop (config : VectorConfig) (f : Func) (p : VectorPlan) : VectorBlocks × Func :=
  let width := Int64.ofNat config.width
  let (stop, f) := emitEnd f p width
  let (k, f) := addBlocks f p
  (k, fillBlocks (f.retarget p.loop.preheader p.loop.header k.header) p k stop width)

theorem apply_eq (config : VectorConfig) (f : Func) (p : VectorPlan) :
    apply config f p =
      match (vectorLoop config f p).1.middle with
      | some middle => keepEpilogue (vectorLoop config f p).2 p middle
          (emitEnd f p (Int64.ofNat config.width)).1
      | none => (p.loop.header :: p.loop.latch :: p.loop.body).foldl eraseBlock
          (vectorLoop config f p).2 := rfl

/-- Filling leaves the layout alone and gives three of the blocks their terminators. -/
theorem rooted_fillBlocks {k : VectorBlocks} (p : VectorPlan) (stop : Operand) (width : Int64)
    (hlt : ∀ c ∈ [k.header, k.body, k.latch], c < f.blocks.size) :
    (fillBlocks f p k stop width).layout = f.layout ∧
    (fillBlocks f p k stop width).blocks.size = f.blocks.size ∧
    ∀ base e pending, Rooted base e pending f → (∀ c ∈ [k.header, k.body, k.latch], c ≠ e) →
      k.middle.getD p.loop.exit ≠ e →
      Rooted base e (fun c => pending c ∧ c ∉ [k.header, k.body, k.latch])
        (fillBlocks f p k stop width) := by
  simp only [List.forall_mem_cons, List.not_mem_nil, false_implies, implies_true,
    and_true] at hlt ⊢
  obtain ⟨hheader, hbody, hlatch⟩ := hlt
  unfold fillBlocks
  dsimp only
  obtain ⟨_, happ₁, _⟩ := appends_fillHeader (p := p) hheader stop
  have hroot₁ := fun base e pending (hf : Rooted base e pending f) =>
    rooted_fillHeader (p := p) stop hf hheader
  generalize fillHeader f p k stop = x at happ₁ hroot₁ ⊢
  obtain ⟨iv, f₁⟩ := x
  dsimp only at happ₁ hroot₁ ⊢
  have hbody₁ : k.body < f₁.blocks.size := happ₁.blocks_size_eq ▸ hbody
  obtain ⟨_, code, jump, happ₂, _⟩ := extended_fillBody (p := p) hbody₁ iv
  have hlatch₂ : k.latch < (fillBody f₁ p k iv).blocks.size := by
    rwa [happ₂.blocks_size_eq, happ₁.blocks_size_eq]
  obtain ⟨g, _, happ₃, _, _, _, _, heq⟩ := appends_fillLatch (p := p) iv hlatch₂ width
  refine ⟨?_, ?_, fun base e pending hf hne hleave => ?_⟩
  · rw [heq]
    exact happ₃.layout_eq.trans (happ₂.layout_eq.trans happ₁.layout_eq)
  · have hmark : ∀ h : Func, (mark h k.header).blocks.size = h.blocks.size := fun h => by
      simp [mark, modifyBlock]
    rw [heq, hmark]
    exact happ₃.blocks_size_eq.trans (happ₂.blocks_size_eq.trans happ₁.blocks_size_eq)
  · obtain ⟨hne₁, hne₂, hne₃⟩ := hne
    refine Rooted.mono ((rooted_fillLatch width (rooted_fillBody (hroot₁ _ _ _ hf hne₂ hleave) hbody₁ hne₃)
      hlatch₂ hne₁).modifyBlock k.header fun _ => rfl) fun c _ hp => ?_
    obtain ⟨⟨⟨hp, h₁⟩, h₂⟩, h₃⟩ := hp
    simpa [h₁, h₂, h₃] using hp

/-- The vector loop is complete but for the block in the middle, and all live blocks stay. -/
theorem rooted_vectorLoop (config : VectorConfig) (f : Func) (p : VectorPlan) :
    (∀ c ∈ f.layout, c ∈ (vectorLoop config f p).2.layout) ∧
    (∀ c ∈ (vectorLoop config f p).1.all, c < (vectorLoop config f p).2.blocks.size) ∧
    ∀ base e, Rooted base e (fun _ => False) f → p.loop.header ≠ e → p.loop.exit ≠ e →
      Rooted base e (fun c => (vectorLoop config f p).1.middle = some c)
        (vectorLoop config f p).2 := by
  unfold vectorLoop
  dsimp only
  have hroot₁ := fun base e (hf : Rooted base e (fun _ => False) f) =>
    rooted_emitEnd hf p (Int64.ofNat config.width)
  have hlayout₁ := layout_emitEnd f p (Int64.ofNat config.width)
  generalize emitEnd f p (Int64.ofNat config.width) = x at hroot₁ hlayout₁ ⊢
  obtain ⟨stop, f₁⟩ := x
  dsimp only at hroot₁ hlayout₁ ⊢
  obtain ⟨heq, hopens⟩ := addBlocks_eq f₁ p
  have hname := name_addBlocks f₁ p
  generalize addBlocks f₁ p = x at heq hopens hname ⊢
  obtain ⟨k, f₂⟩ := x
  dsimp only at heq hopens hname ⊢
  have hlt : ∀ c ∈ k.all, c < (f₂.retarget p.loop.preheader p.loop.header k.header).blocks.size :=
    fun c hc => by
      rw [(f₂.relinked_retarget _ _ _).blocks_eq, hopens.size_eq, heq]
      exact lt_of_mem_freshBlocks (heq ▸ hc)
  have hmem : ∀ c ∈ [k.header, k.body, k.latch], c ∈ k.all := fun c hc =>
    List.mem_append_left _ hc
  obtain ⟨hlayout, hsize, hroot⟩ := rooted_fillBlocks p stop (Int64.ofNat config.width)
    fun c hc => hlt c (hmem c hc)
  refine ⟨fun c hc => ?_, fun c hc => ?_, fun base e hf hheader hexit => ?_⟩
  · rw [hlayout, layout_retarget, hopens.mem_layout, hlayout₁]
    exact .inr hc
  · rw [hsize]
    exact hlt c hc
  · have hne : ∀ c ∈ k.all, c ≠ e := fun c hc => by
      have hle := le_of_mem_freshBlocks (heq ▸ hc)
      exact Nat.ne_of_gt (Nat.lt_of_lt_of_le (hroot₁ _ _ hf).entry_lt hle)
    have hleave : k.middle.getD p.loop.exit ≠ e := by
      cases hm : k.middle with
      | none => exact hexit
      | some m => exact hne m (List.mem_append_right _ (by simp [hm]))
    refine (hroot _ _ _ (((hroot₁ _ _ hf).opens hopens hname hheader).retarget p.loop.preheader p.loop.header
      (hne _ (hmem _ List.mem_cons_self))) (fun c hc => hne c (hmem c hc)) hleave).mono
      fun c _ ⟨hall, hnot⟩ => ?_
    simpa using (List.mem_append.mp hall).resolve_left hnot

/-- Vectorizing a counted loop keeps the root. -/
theorem keepsRoot_apply (config : VectorConfig) {l : NaturalLoop} (hl : IsLoop (.ofFunc f) l)
    (hc : p.loop.IsCounted f l) : f.KeepsRoot (apply config f p) := by
  have hblocks : ∀ b ∈ p.loop.header :: p.loop.latch :: p.loop.body, b ∈ l.blocks := by
    intro b hb
    rcases List.mem_cons.mp hb with rfl | hb
    · exact hc.header_eq ▸ hl.header_mem
    rcases List.mem_cons.mp hb with rfl | hb
    · exact CountedLoop.latch_mem hl hc
    · rw [hc.body_eq] at hb
      exact (List.mem_filter.mp hb).1
  have hlive := CountedLoop.live_of_mem hl hl.header_mem
  obtain ⟨hph, hs⟩ := (f.mem_predecessors _ _).mp hc.preheader_mem
  rw [apply_eq]
  refine ⟨fun _ => ?_, fun base e hf => ?_⟩
  · obtain ⟨hstay, _, _⟩ := rooted_vectorLoop config f p
    split
    · refine List.ne_nil_of_mem (a := p.loop.preheader) ?_
      rw [layout_keepEpilogue]
      exact hstay _ hph
    · refine List.ne_nil_of_mem (a := p.loop.preheader) (((erasedAll_foldl _ _).mem_layout _).mpr
        ⟨hstay _ hph, fun hmem => hc.preheader_out (hblocks _ hmem)⟩)
  · have hpreds : ∀ e', f.entry? = some e' → f.predecessors e' = [] := fun e' he' => by
      cases hf.entry_eq.symm.trans he'
      exact hf.predecessors_entry
    have hheader : p.loop.header ≠ e := hc.header_eq ▸ hf.ne_entry hph hs
    have hexit : p.loop.exit ≠ e :=
      hf.ne_entry hlive ((CountedLoop.header_successors hc).mpr (.inr rfl))
    obtain ⟨_, hlt, hroot⟩ := rooted_vectorLoop config f p
    split
    · rename_i m hm
      refine (rooted_keepEpilogue (hroot _ _ hf hheader hexit) (hlt m ?_) hheader).mono
        fun c _ ⟨hcm, hne⟩ => ?_
      · exact List.mem_append_right _ (by simp [hm])
      · exact hne (Option.some.inj (hcm.symm.trans hm))
    · rename_i hm
      refine rooted_eraseAll _ (fun b hb => ?_) ((hroot _ _ hf hheader hexit).mono fun c _ hcm => ?_)
      · rintro rfl
        exact CountedLoop.entry_not_mem hpreds hl hc hf.entry_eq (hblocks b hb)
      · rw [hm] at hcm
        cases hcm

end Vectorize

end LoopNest
