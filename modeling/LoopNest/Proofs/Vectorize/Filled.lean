import LoopNest.Proofs.Vectorize.Copied

/-!
# The blocks of a vector loop

A vector loop gets new blocks, which the preheader then leads to (`Entered`), and which are filled
one after the other (`Filled`).  `NewLoop` lists what they hold in the end, `Made` compares the new
body with the old one, and `Added` adds that the old blocks are still there.

None of this asks for types.  What the types of the new body are depends on those of the old one;
`Emission` keeps the function into which the body was put, for whoever wants to know.
-/

namespace LoopNest

open Func

namespace Vectorize

variable {f g h : Func} {l : NaturalLoop} {p : VectorPlan}

/-- An instruction with an operation and a type, in a block. -/
structure Holds (g : Func) (i : InstId) (op : Op) (t : TyId) (b : BlockId) : Prop where
  op_eq : g.op i = op
  ty_eq : (g.inst i).ty = t
  owner_eq : g.owner i = some b

theorem Holds.of_inst {i : InstId} {op : Op} {t : TyId} {b : BlockId} {name : Option String}
    (h : g.inst i = ⟨op, t, name, some b⟩) : Holds g i op t b :=
  ⟨congrArg Inst.op h, congrArg Inst.ty h, congrArg Inst.owner h⟩

/-- An instruction that makes no slot brings its own type only. -/
theorem Holds.mem_tys {i : InstId} {op : Op} {t : TyId} {b : BlockId} {old new : List TyId}
    (hi : Holds g i op t b) (ht : t ∈ new) (hop : ∀ u a, op ≠ .alloca u a) :
    ((g.inst i).ty ∈ old ∨ (g.inst i).ty ∈ new) ∧
      ∀ u a, g.op i = .alloca u a → u ∈ old ∨ u ∈ new :=
  ⟨.inr (hi.ty_eq ▸ ht), fun u a h => absurd (hi.op_eq.symm.trans h) (hop u a)⟩

theorem Holds.congr {i : InstId} {op : Op} {t : TyId} {b : BlockId} (hi : Holds g i op t b)
    (heq : h.inst i = g.inst i) : Holds h i op t b := by
  obtain ⟨hop, hty, hown⟩ := hi
  refine ⟨?_, ?_, ?_⟩
  · rw [ Func.op, heq]
    exact hop
  · rw [heq]
    exact hty
  · rw [owner, heq]
    exact hown

theorem holds_appendInst (f : Func) (b : BlockId) (d : Draft) :
    Holds (f.appendInst b d).2 f.insts.size d.op d.ty b :=
  .of_inst (by rw [inst_appendInst, if_pos rfl])

theorem appends_two {b : BlockId} (hb : b < f.blocks.size) (d₁ d₂ : Draft) :
    Appends b [f.insts.size, f.insts.size + 1] f ((f.appendInst b d₁).2.appendInst b d₂).2 ∧
    Holds ((f.appendInst b d₁).2.appendInst b d₂).2 f.insts.size d₁.op d₁.ty b ∧
    Holds ((f.appendInst b d₁).2.appendInst b d₂).2 (f.insts.size + 1) d₂.op d₂.ty b := by
  have h₁ := f.appends_appendInst hb d₁
  have hold₁ := holds_appendInst f b d₁
  have hsize := f.insts_size_appendInst b d₁
  generalize (f.appendInst b d₁).2 = f₁ at h₁ hold₁ hsize ⊢
  have h₂ := f₁.appends_appendInst (h₁.blocks_size_eq ▸ hb) d₂
  have hold₂ := holds_appendInst f₁ b d₂
  rw [hsize] at h₂ hold₂
  exact ⟨h₁.trans h₂, hold₁.congr (h₂.inst_eq _ (hsize ▸ Nat.lt_succ_self _)), hold₂⟩

theorem appends_three {b : BlockId} (hb : b < f.blocks.size) (d₁ d₂ d₃ : Draft) :
    Appends b [f.insts.size, f.insts.size + 1, f.insts.size + 2] f
      (((f.appendInst b d₁).2.appendInst b d₂).2.appendInst b d₃).2 ∧
    Holds (((f.appendInst b d₁).2.appendInst b d₂).2.appendInst b d₃).2 f.insts.size d₁.op d₁.ty b ∧
    Holds (((f.appendInst b d₁).2.appendInst b d₂).2.appendInst b d₃).2 (f.insts.size + 1) d₂.op
      d₂.ty b ∧
    Holds (((f.appendInst b d₁).2.appendInst b d₂).2.appendInst b d₃).2 (f.insts.size + 2) d₃.op
      d₃.ty b := by
  obtain ⟨h₁, hold₁, hold₂⟩ := appends_two hb d₁ d₂
  have hsize : ((f.appendInst b d₁).2.appendInst b d₂).2.insts.size = f.insts.size + 2 := by simp
  generalize ((f.appendInst b d₁).2.appendInst b d₂).2 = f₂ at h₁ hold₁ hold₂ hsize ⊢
  have h₃ := f₂.appends_appendInst (h₁.blocks_size_eq ▸ hb) d₃
  have hold₃ := holds_appendInst f₂ b d₃
  have hlt : ∀ i ∈ [f.insts.size, f.insts.size + 1], i < f₂.insts.size := fun i hi =>
    ((h₁.mem_code i).mp hi).2
  rw [hsize] at h₃ hold₃
  exact ⟨h₁.trans h₃, hold₁.congr (h₃.inst_eq _ (hlt _ (by simp))),
    hold₂.congr (h₃.inst_eq _ (hlt _ (by simp))), hold₃⟩

/-! ## The blocks of the vector loop -/

/-- The blocks of a vector loop. -/
def VectorBlocks.all (k : VectorBlocks) : List BlockId := [k.header, k.body, k.latch] ++ k.middle.toList

theorem VectorBlocks.ne_of_nodup {k : VectorBlocks} (h : k.all.Nodup) :
    k.header ≠ k.body ∧ k.header ≠ k.latch ∧ k.body ≠ k.latch ∧
      ∀ m, k.middle = some m → m ≠ k.header ∧ m ≠ k.body ∧ m ≠ k.latch := by
  unfold VectorBlocks.all at h
  cases hm : k.middle with
  | none =>
    simp only [hm, Option.toList_none, List.append_nil, List.nodup_cons, List.mem_cons,
      List.not_mem_nil, or_false, not_or] at h
    exact ⟨h.1.1, h.1.2, h.2.1, nofun⟩
  | some m =>
    simp only [hm, Option.toList_some, List.cons_append, List.nil_append, List.nodup_cons, List.mem_cons,
      List.not_mem_nil, or_false, not_or] at h
    refine ⟨h.1.1, h.1.2.1, h.2.1.1, fun m' hm' => ?_⟩
    cases hm'
    exact ⟨Ne.symm h.1.2.2, Ne.symm h.2.1.2, Ne.symm h.2.2.1⟩

/-- The next free blocks of a function. -/
def freshBlocks (f : Func) (p : VectorPlan) : VectorBlocks :=
  ⟨f.blocks.size, f.blocks.size + 1, f.blocks.size + 2,
    if p.epilogue then some (f.blocks.size + 3) else none⟩

theorem le_of_mem_freshBlocks {b : BlockId} (hb : b ∈ (freshBlocks f p).all) : f.blocks.size ≤ b := by
  simp only [freshBlocks, VectorBlocks.all, List.mem_append, List.mem_cons, List.not_mem_nil, or_false,
    Option.mem_toList] at hb
  rcases hb with (rfl | rfl | rfl) | hb
  · exact Nat.le_refl _
  · exact Nat.le_add_right _ _
  · exact Nat.le_add_right _ _
  · split at hb
    · cases hb
      exact Nat.le_add_right _ _
    · cases hb

theorem lt_of_mem_freshBlocks {b : BlockId} (hb : b ∈ (freshBlocks f p).all) :
    b < f.blocks.size + (freshBlocks f p).all.length := by
  simp only [freshBlocks, VectorBlocks.all, List.mem_append, List.mem_cons, List.not_mem_nil, or_false,
    Option.mem_toList] at hb
  rcases hb with (rfl | rfl | rfl) | hb
  · exact Nat.lt_add_of_pos_right (by simp [VectorBlocks.all])
  · exact Nat.add_lt_add_left (by simp [VectorBlocks.all]) _
  · exact Nat.add_lt_add_left (by simp [VectorBlocks.all]) _
  · split at hb
    · rename_i he
      cases hb
      exact Nat.add_lt_add_left (by simp [VectorBlocks.all, freshBlocks, he]) _
    · cases hb

theorem nodup_freshBlocks (f : Func) (p : VectorPlan) : (freshBlocks f p).all.Nodup := by
  unfold freshBlocks VectorBlocks.all
  split <;> simp

theorem ne_of_mem_freshBlocks (hf : f.Framed) {b d : BlockId} (hb : b ∈ f.layout)
    (hd : d ∈ (freshBlocks f p).all) : b ≠ d := by
  rintro rfl
  obtain ⟨t, ht⟩ := hf.ends b hb
  exact absurd (lt_blocks_size (mem_body_of_terminator ht).1) (Nat.not_lt.mpr (le_of_mem_freshBlocks hd))

theorem addBlocks_eq (f : Func) (p : VectorPlan) :
    (addBlocks f p).1 = freshBlocks f p ∧
    Opens p.loop.header (addBlocks f p).1.all f (addBlocks f p).2 := by
  obtain ⟨f₁, h₁⟩ : ∃ g, (f.addBlockBefore (p.base ++ ".vec.header") p.loop.header).2 = g := ⟨_, rfl⟩
  obtain ⟨f₂, h₂⟩ : ∃ g, (f₁.addBlockBefore (p.base ++ ".vec.body") p.loop.header).2 = g := ⟨_, rfl⟩
  obtain ⟨f₃, h₃⟩ : ∃ g, (f₂.addBlockBefore (p.base ++ ".vec.latch") p.loop.header).2 = g := ⟨_, rfl⟩
  have hopen₁ := f.opens_addBlockBefore (p.base ++ ".vec.header") p.loop.header
  have hopen₂ := f₁.opens_addBlockBefore (p.base ++ ".vec.body") p.loop.header
  have hopen₃ := f₂.opens_addBlockBefore (p.base ++ ".vec.latch") p.loop.header
  have hopen₄ := f₃.opens_addBlockBefore (p.base ++ ".vec.middle") p.loop.header
  rw [h₁] at hopen₁
  rw [h₂] at hopen₂
  rw [h₃] at hopen₃
  have hopen := (hopen₁.trans hopen₂).trans hopen₃
  have hsize₁ : f₁.blocks.size = f.blocks.size + 1 := hopen₁.size_eq
  have hsize₂ : f₂.blocks.size = f.blocks.size + 2 := (hopen₁.trans hopen₂).size_eq
  have hsize₃ : f₃.blocks.size = f.blocks.size + 3 := hopen.size_eq
  have heq : addBlocks f p = if p.epilogue then
      (⟨f.blocks.size, f₁.blocks.size, f₂.blocks.size, some f₃.blocks.size⟩,
        (f₃.addBlockBefore (p.base ++ ".vec.middle") p.loop.header).2)
      else (⟨f.blocks.size, f₁.blocks.size, f₂.blocks.size, none⟩, f₃) := by
    subst h₁ h₂ h₃
    rfl
  rw [heq, freshBlocks]
  split
  · rw [hsize₁, hsize₂] at hopen
    rw [hsize₃] at hopen₄
    rw [hsize₁, hsize₂, hsize₃]
    exact ⟨rfl, hopen.trans hopen₄⟩
  · rw [hsize₁, hsize₂] at hopen
    rw [hsize₁, hsize₂]
    exact ⟨rfl, hopen⟩

/-- The blocks and instructions of a vector loop. -/
structure VectorLoop where
  /-- The blocks. -/
  blocks : VectorBlocks
  /-- The induction phi. -/
  iv : InstId
  /-- The exit test. -/
  cond : InstId
  /-- The branch of the header. -/
  branch : InstId
  /-- The widened body. -/
  code : List InstId
  /-- The branch of the body. -/
  jump : InstId
  /-- The sum in the latch. -/
  next : InstId
  /-- The branch of the latch. -/
  back : InstId
  /-- What the latch adds. -/
  step : ConstId
  /-- The number that it is. -/
  width : Int64
  /-- Where the loop ends. -/
  stop : Operand

/-- What the blocks of a vector loop hold. -/
structure NewLoop (p : VectorPlan) (n : VectorLoop) (g : Func) : Prop where
  header_body : g.body n.blocks.header = [n.iv, n.cond, n.branch]
  body_body : g.body n.blocks.body = n.code ++ [n.jump]
  latch_body : g.body n.blocks.latch = [n.next, n.back]
  iv : Holds g n.iv (.phi [(p.loop.start, p.loop.preheader), (.inst n.next, n.blocks.latch)]) p.ivTy
    n.blocks.header
  cond : Holds g n.cond (.icmp .ult (.inst n.iv) n.stop) p.boolTy n.blocks.header
  branch : Holds g n.branch
    (.condBr (.inst n.cond) n.blocks.body (n.blocks.middle.getD p.loop.exit)) p.voidTy n.blocks.header
  plain : ∀ i ∈ n.code, (g.op i).isPhi = false ∧ (g.op i).isTerminator = false
  owner_eq : ∀ i ∈ n.code, g.owner i = some n.blocks.body
  jump : Holds g n.jump (.br n.blocks.latch) p.voidTy n.blocks.body
  next : Holds g n.next (.binary .add (.inst n.iv) (.const n.step)) p.ivTy n.blocks.latch
  back : Holds g n.back (.br n.blocks.header) p.voidTy n.blocks.latch
  step_eq : g.constants[n.step]? = some ⟨p.ivTy, .int n.width⟩

theorem NewLoop.step_ty {n : VectorLoop} (h : NewLoop p n g) :
    g.operandTy (.const n.step) = .ok p.ivTy := by
  simp [operandTy, h.step_eq]

/-- The new body, compared with the old one. -/
structure Made (p : VectorPlan) (n : VectorLoop) (f g : Func) : Prop where
  tys : ∀ t ∈ g.tys, t ∈ f.tys ∨ t ∈ p.tys
  operands : ∀ i ∈ n.code, ∀ w ∈ (g.op i).operands,
    Sourced n.iv f (p.steps.map Prod.fst) n.code w
  /-- What nothing stands for is used. -/
  used : ∀ s ∈ p.steps, ∀ v ∈ (f.op s.1).operands, v ≠ p.loop.iv →
    (∀ s' ∈ p.steps, v ≠ .inst s'.1) → ∃ i ∈ n.code, v ∈ (g.op i).operands

/-- The function into which the body was put, and what was put there. -/
structure Emission (p : VectorPlan) (n : VectorLoop) (f base g : Func) : Prop where
  below : f.Below base
  tys : ∀ t ∈ base.tys, t ∈ f.tys ∨ t ∈ p.tys
  body_lt : n.blocks.body < base.blocks.size
  iv_ty : base.operandTy (.inst n.iv) = .ok p.ivTy
  appends : Appends n.blocks.body (n.code ++ [n.jump]) base (fillBody base p n.blocks n.iv)
  keepsTypes : (fillBody base p n.blocks n.iv).KeepsTypes g
  op_eq : ∀ i ∈ n.code, g.op i = (fillBody base p n.blocks n.iv).op i
  ty_eq : ∀ i ∈ n.code, (g.inst i).ty = ((fillBody base p n.blocks n.iv).inst i).ty

theorem Emission.congr {n : VectorLoop} {base : Func} (he : Emission p n f base g)
    (hk : g.KeepsTypes h) (hop : ∀ i ∈ n.code, h.op i = g.op i)
    (hty : ∀ i ∈ n.code, (h.inst i).ty = (g.inst i).ty) : Emission p n f base h where
  below := he.below
  tys := he.tys
  body_lt := he.body_lt
  iv_ty := he.iv_ty
  appends := he.appends
  keepsTypes := he.keepsTypes.trans hk
  op_eq i hi := (hop i hi).trans (he.op_eq i hi)
  ty_eq i hi := (hty i hi).trans (he.ty_eq i hi)

/-- The comparison goes on where the code stays. -/
theorem Made.congr {n : VectorLoop} (hm : Made p n f g) (hop : ∀ i ∈ n.code, h.op i = g.op i)
    (htys : ∀ t ∈ h.tys, t ∈ g.tys ∨ t ∈ p.tys) : Made p n f h := by
  refine ⟨fun t ht => ?_, fun i hi w hw => hm.operands i hi w (hop i hi ▸ hw),
    fun s hs v hv hiv hno => ?_⟩
  · exact (htys t ht).elim (hm.tys t) .inr
  · obtain ⟨i, hi, hvi⟩ := hm.used s hs v hv hiv hno
    exact ⟨i, hi, (hop i hi).symm ▸ hvi⟩

/-- The comparison is about the old body only. -/
theorem Made.of_steps {n : VectorLoop} {base : Func} (hm : Made p n base g)
    (hop : ∀ s ∈ p.steps, base.op s.1 = f.op s.1) (htys : ∀ t ∈ base.tys, t ∈ f.tys ∨ t ∈ p.tys) :
    Made p n f g := by
  refine ⟨fun t ht => ?_, fun i hi w hw => (hm.operands i hi w hw).imp_right ?_,
    fun s hs v hv => hm.used s hs v (hop s hs ▸ hv)⟩
  · exact (hm.tys t ht).elim (htys t) .inr
  · rintro ⟨j, hj, hw⟩
    obtain ⟨s, hs, rfl⟩ := List.mem_map.mp hj
    exact ⟨_, hj, hop s hs ▸ hw⟩

/-! ## Filling the blocks -/

theorem VectorPlan.mem_tys_of_control {t : TyId} (ht : t = p.ivTy ∨ t = p.boolTy ∨ t = p.voidTy) :
    t ∈ p.tys := by
  simp only [VectorPlan.tys, List.mem_cons]
  tauto

theorem appends_fillHeader {k : VectorBlocks} (hk : k.header < f.blocks.size) (stop : Operand) :
    (fillHeader f p k stop).1 = f.insts.size ∧
    Appends k.header [f.insts.size, f.insts.size + 1, f.insts.size + 2] f (fillHeader f p k stop).2 ∧
    Holds (fillHeader f p k stop).2 f.insts.size
      (.phi [(p.loop.start, p.loop.preheader), (p.loop.start, k.latch)]) p.ivTy k.header ∧
    Holds (fillHeader f p k stop).2 (f.insts.size + 1) (.icmp .ult (.inst f.insts.size) stop) p.boolTy
      k.header ∧
    Holds (fillHeader f p k stop).2 (f.insts.size + 2)
      (.condBr (.inst (f.insts.size + 1)) k.body (k.middle.getD p.loop.exit)) p.voidTy k.header := by
  obtain ⟨d₁, hd₁⟩ : ∃ d : Draft, d = ⟨.phi [(p.loop.start, p.loop.preheader),
    (p.loop.start, k.latch)], p.ivTy, some (p.base ++ ".vec.iv")⟩ := ⟨_, rfl⟩
  obtain ⟨d₂, hd₂⟩ : ∃ d : Draft, d = ⟨.icmp .ult (.inst f.insts.size) stop, p.boolTy,
    some (p.base ++ ".vec.cond")⟩ := ⟨_, rfl⟩
  obtain ⟨d₃, hd₃⟩ : ∃ d : Draft, d = ⟨.condBr (.inst (f.appendInst k.header d₁).2.insts.size) k.body
    (k.middle.getD p.loop.exit), p.voidTy, none⟩ := ⟨_, rfl⟩
  have heq : fillHeader f p k stop = (f.insts.size,
      (((f.appendInst k.header d₁).2.appendInst k.header d₂).2.appendInst k.header d₃).2) := by
    subst hd₃ hd₂ hd₁
    rfl
  obtain ⟨happ, h₁, h₂, h₃⟩ := appends_three hk d₁ d₂ d₃
  rw [heq]
  rw [insts_size_appendInst] at hd₃
  subst hd₃ hd₂ hd₁
  exact ⟨rfl, happ, h₁, h₂, h₃⟩

/-- The header brings types of the plan only. -/
theorem mem_tys_fillHeader {k : VectorBlocks} (hk : k.header < f.blocks.size) (stop : Operand) :
    ∀ t ∈ (fillHeader f p k stop).2.tys, t ∈ f.tys ∨ t ∈ p.tys := by
  obtain ⟨-, happ, hphi, hcond, hbranch⟩ := appends_fillHeader (p := p) hk stop
  refine happ.forall_mem_tys (fun t ht => .inl ht) fun i hi => ?_
  simp only [List.mem_cons, List.not_mem_nil, or_false] at hi
  rcases hi with rfl | rfl | rfl
  · exact hphi.mem_tys (VectorPlan.mem_tys_of_control (.inl rfl)) (by simp)
  · exact hcond.mem_tys (VectorPlan.mem_tys_of_control (.inr (.inl rfl))) (by simp)
  · exact hbranch.mem_tys (VectorPlan.mem_tys_of_control (.inr (.inr rfl))) (by simp)

/-- The body of the vector loop. -/
theorem appends_fillBody {k : VectorBlocks} (iv : InstId) (hk : k.body < f.blocks.size)
    (hfit : ∀ s ∈ p.steps, Fits f s.1 s.2) :
    ∃ code jump, Appends k.body (code ++ [jump]) f (fillBody f p k iv) ∧
      Holds (fillBody f p k iv) jump (.br k.latch) p.voidTy k.body ∧
      (∀ i ∈ code, ((fillBody f p k iv).op i).isPhi = false ∧
        ((fillBody f p k iv).op i).isTerminator = false) ∧
      ∀ n : VectorLoop, n.code = code → n.iv = iv → Made p n f (fillBody f p k iv) := by
  have hnil : Copies p.loop.induction iv p.tys k.body f (p.steps.map Prod.fst) []
      ⟨f, [(p.loop.iv, .inst iv)], []⟩ [] := .nil
  obtain ⟨done, code, hmem, _, hdone, h⟩ := Copies.steps hk p.base hnil fun s hs =>
      ⟨List.mem_map_of_mem hs, hfit s hs, fun t ht => by
        simp only [VectorPlan.tys, List.mem_cons, List.mem_flatMap]
        exact .inr (.inr (.inr ⟨s, hs, ht⟩))⟩
  have hfill : fillBody f p k iv =
      ((p.steps.foldl (fun s x => s.step k.body p.base x.1 x.2)
        (⟨f, [(p.loop.iv, .inst iv)], []⟩ : BodyState)).func.appendInst k.body
          ⟨.br k.latch, p.voidTy, none⟩).2 := rfl
  rw [hfill]
  generalize p.steps.foldl (fun s x => s.step k.body p.base x.1 x.2)
    (⟨f, [(p.loop.iv, .inst iv)], []⟩ : BodyState) = s at h ⊢
  have happ := s.func.appends_appendInst (h.appends.blocks_size_eq ▸ hk)
    ⟨.br k.latch, p.voidTy, none⟩
  have hold := holds_appendInst s.func k.body ⟨.br k.latch, p.voidTy, none⟩
  dsimp only at hold ⊢
  generalize (s.func.appendInst k.body ⟨.br k.latch, p.voidTy, none⟩).2 = g at happ hold ⊢
  have hcode {i : InstId} (hi : i ∈ code) : g.op i = s.func.op i :=
    happ.op_eq ((h.appends.mem_code i).mp hi).2
  refine ⟨code, s.func.insts.size, h.appends.trans happ, hold, fun i hi => ?_, ?_⟩
  · rw [hcode hi]
    exact h.plain i hi
  rintro n rfl rfl
  constructor
  case tys =>
    refine happ.forall_mem_tys h.tys fun i hi => ?_
    rw [List.mem_singleton.mp hi]
    exact hold.mem_tys (VectorPlan.mem_tys_of_control (.inr (.inr rfl))) (by simp)
  case operands => exact fun i hi w hw => h.operands i hi w (hcode hi ▸ hw)
  case used =>
    intro x hx v hv hiv hno
    have hnone : s.renamed.lookup v = none := by
      cases hlook : s.renamed.lookup v with
      | none => rfl
      | some w =>
        -- Only the induction value and the instructions of the old body are renamed.
        rcases (h.renamed v w hlook).2 with heq | ⟨j, hj, heq⟩
        · exact absurd heq hiv
        · obtain ⟨y, hy, rfl⟩ := (hdone j hj).resolve_left List.not_mem_nil
          exact absurd heq (hno y hy)
    obtain ⟨i, hi, hvi⟩ := h.used x.1 (hmem x hx) v hv hnone
    exact ⟨i, hi, (hcode hi).symm ▸ hvi⟩

/-- The latch of the vector loop. -/
theorem appends_fillLatch {k : VectorBlocks} (iv : InstId) (hk : k.latch < f.blocks.size)
    (width : Int64) :
    ∃ g, f.Below g ∧ Appends k.latch [f.insts.size, f.insts.size + 1] (f.addConstant p.ivTy (.int width)).2 g ∧
      Holds g f.insts.size (.binary .add (.inst iv) (.const f.constants.size)) p.ivTy k.latch ∧
      Holds g (f.insts.size + 1) (.br k.header) p.voidTy k.latch ∧
      g.constants[f.constants.size]? = some ⟨p.ivTy, .int width⟩ ∧
      (∀ t ∈ g.tys, t ∈ f.tys ∨ t ∈ p.tys) ∧
      fillLatch f p k iv width = g.setIncoming iv k.latch (.inst f.insts.size) := by
  obtain ⟨happ, hnext, hback⟩ := appends_two (f := (f.addConstant p.ivTy (.int width)).2) hk
    ⟨.binary .add (.inst iv) (.const f.constants.size), p.ivTy, some (p.base ++ ".vec.next")⟩
    ⟨.br k.header, p.voidTy, none⟩
  refine ⟨_, (f.below_addConstant _ _).trans happ.toBelow, happ, hnext, hback,
    happ.toBelow.constant_eq _ _ (by simp), ?_, rfl⟩
  have hiv : p.ivTy ∈ p.tys := VectorPlan.mem_tys_of_control (.inl rfl)
  refine happ.forall_mem_tys (forall_mem_tys_addConstant (fun t ht => .inl ht) (.inr hiv) _)
    fun i hi => ?_
  simp only [List.mem_cons, List.not_mem_nil, or_false] at hi
  rcases hi with rfl | rfl
  · exact hnext.mem_tys hiv (by simp)
  · exact hback.mem_tys (VectorPlan.mem_tys_of_control (.inr (.inr rfl))) (by simp)

/-! ## The old blocks -/

/-- Types stay when operations change but slots do not. -/
theorem forall_mem_tys_of_same {P : TyId → Prop} (hret : g.ret = f.ret) (hparams : g.params = f.params)
    (hconst : g.constants = f.constants) (hsize : g.insts.size = f.insts.size)
    (hty : ∀ i, (g.inst i).ty = (f.inst i).ty)
    (hslot : ∀ i t a, g.op i = .alloca t a → f.op i = .alloca t a) (hf : ∀ t ∈ f.tys, P t) :
    ∀ t ∈ g.tys, P t := by
  obtain ⟨h₁, h₂, h₃, h₄⟩ := forall_mem_tys.mp hf
  refine forall_mem_tys.mpr ⟨hret ▸ h₁, hparams ▸ h₂, hconst ▸ h₃, fun i hi => ?_⟩
  obtain ⟨hlt, halloca⟩ := h₄ i (hsize ▸ hi)
  exact ⟨hty i ▸ hlt, fun t a hop => halloca t a (hslot i t a hop)⟩

theorem alloca_of_retarget {o : Op} {a b : BlockId} {t : TyId} {k : Nat}
    (h : o.retarget a b = .alloca t k) : o = .alloca t k := by
  cases o with
  | alloca _ _ => exact h
  | _ => cases h

theorem inst_retarget {b s t : BlockId} {j : InstId} (hj : j < f.insts.size) :
    (f.retarget b s t).inst j = { f.inst j with
      op := if f.terminator? b = some j then (f.op j).retarget s t else f.op j } := by
  unfold retarget
  cases ht : f.terminator? b with
  | none => rfl
  | some i =>
    simp only [modifyOp]
    rw [inst_modifyInst]
    by_cases hij : i = j
    · subst hij
      simp [hj, op]
    · simp [hij, op]

theorem body_mark (b c : BlockId) : (mark f b).body c = f.body c := by
  unfold mark
  rw [body_modifyBlock]
  split <;> rfl

theorem vectorized_mark {b : BlockId} (hb : b < f.blocks.size) (c : BlockId) :
    ((mark f b).block c).vectorized = (decide (c = b) || (f.block c).vectorized) := by
  unfold mark
  rw [vectorized_modifyBlock]
  by_cases hcb : c = b
  · subst hcb
    simp [hb]
  · rw [if_neg fun h => hcb h.1.symm]
    simp [hcb]

/-- The preheader leads to new blocks. -/
structure Entered (l : NaturalLoop) (p : VectorPlan) (k : VectorBlocks) (f g : Func) : Prop where
  mem_layout : ∀ b, b ∈ g.layout ↔ b ∈ k.all ∨ b ∈ f.layout
  entry_eq : ∀ e, f.entry? = some e → l.header ≠ e → g.entry? = some e
  filter_eq : ∀ q : BlockId → Bool, (∀ b ∈ k.all, q b = false) →
    g.layout.filter q = f.layout.filter q
  ret_eq : g.ret = f.ret
  params_eq : g.params = f.params
  constants_eq : g.constants = f.constants
  size_eq : g.insts.size = f.insts.size
  blocks_size_eq : g.blocks.size = f.blocks.size + k.all.length
  body_eq : ∀ b, g.body b = f.body b
  vectorized_eq : ∀ b, (g.block b).vectorized = (f.block b).vectorized
  inst_eq : ∀ i < f.insts.size, g.inst i = { f.inst i with
    op := if f.terminator? p.loop.preheader = some i then (f.op i).retarget l.header k.header
      else f.op i }

theorem entered_retarget {k : VectorBlocks} (hheader : p.loop.header = l.header)
    (hopens : Opens p.loop.header k.all f g) :
    Entered l p k f (g.retarget p.loop.preheader p.loop.header k.header) := by
  have hrel := g.relinked_retarget p.loop.preheader p.loop.header k.header
  have hinst : ∀ i, g.inst i = f.inst i := fun i => by rw [inst, hopens.insts_eq, inst]
  have hop : ∀ i, g.op i = f.op i := fun i => by rw [op, hinst, op]
  have hterm : g.terminator? p.loop.preheader = f.terminator? p.loop.preheader := by
    unfold terminator?
    simp only [hopens.body_eq, hop]
  have hout : (g.retarget p.loop.preheader p.loop.header k.header).layout = g.layout ∧
      (g.retarget p.loop.preheader p.loop.header k.header).ret = g.ret := by
    unfold retarget
    split <;> exact ⟨rfl, rfl⟩
  refine ⟨fun b => ?_, fun e he hne => ?_, fun q hq => ?_, ?_, ?_, ?_, ?_, ?_, fun b => ?_,
    fun b => ?_, fun i hi => ?_⟩
  · rw [hout.1]
    exact hopens.mem_layout b
  · rw [ Func.entry?, hout.1]
    exact hopens.entry_eq e he (hheader ▸ hne)
  · rw [hout.1]
    exact hopens.filter_eq q hq
  · rw [hout.2, hopens.ret_eq]
  · rw [hrel.params_eq, hopens.params_eq]
  · rw [hrel.constants_eq, hopens.constants_eq]
  · rw [hrel.size_eq, hopens.insts_eq]
  · rw [hrel.blocks_eq, hopens.size_eq]
  · rw [hrel.body_eq, hopens.body_eq]
  · rw [block, hrel.blocks_eq]
    exact hopens.vectorized_eq b
  · rw [inst_retarget (hopens.insts_eq ▸ hi), hinst, hop, hterm, hheader]

theorem Entered.keepsTypes {k : VectorBlocks} (he : Entered l p k f g) : f.KeepsTypes g := by
  refine keepsTypes_of he.params_eq he.ret_eq (Nat.le_of_eq he.size_eq.symm) (fun i hi => ?_)
    fun c x hx => he.constants_eq ▸ hx
  rw [he.inst_eq i hi]

theorem Entered.op_of_ne {k : VectorBlocks} (he : Entered l p k f g) {i : InstId}
    (hi : i < f.insts.size) (ht : f.terminator? p.loop.preheader ≠ some i) : g.op i = f.op i := by
  rw [op, he.inst_eq i hi, if_neg ht]

/-- What can be carried over still can be. -/
theorem Entered.fits {k : VectorBlocks} (he : Entered l p k f g) {i : InstId} {low : Lowering}
    (hfit : Fits f i low) : Fits g i low ∧ g.op i = f.op i := by
  have hop : g.op i = f.op i := he.op_of_ne hfit.lt fun ht => by
    have hterm := (mem_body_of_terminator ht).2
    rw [hfit.not_isTerminator] at hterm
    cases hterm
  refine ⟨⟨he.size_eq ▸ hfit.lt, ?_, ?_, fun t splats hl e hmem => ?_⟩, hop⟩
  · rw [hop, hfit.not_isPhi]
  · rw [hop, hfit.not_isTerminator]
  · rw [hop]
    exact hfit.splats t splats hl e hmem

theorem Entered.forall_mem_tys {k : VectorBlocks} (he : Entered l p k f g) {P : TyId → Prop}
    (hf : ∀ t ∈ f.tys, P t) : ∀ t ∈ g.tys, P t := by
  obtain ⟨h₁, h₂, h₃, h₄⟩ := Func.forall_mem_tys.mp hf
  refine Func.forall_mem_tys.mpr ⟨he.ret_eq ▸ h₁, he.params_eq ▸ h₂, he.constants_eq ▸ h₃,
    fun i hi => ?_⟩
  rw [he.size_eq] at hi
  rw [op, he.inst_eq i hi]
  refine ⟨(h₄ i hi).1, fun t a hop => (h₄ i hi).2 t a ?_⟩
  dsimp only at hop
  split at hop
  · exact alloca_of_retarget hop
  · exact hop

/-- Setting what a phi with two entries takes from the second block. -/
theorem setIncoming_second {i : InstId} {u v w : Operand} {a b d : BlockId} {t : TyId}
    (hi : Holds f i (.phi [(u, a), (v, b)]) t d) (hab : a ≠ b) :
    Holds (f.setIncoming i b w) i (.phi [(u, a), (w, b)]) t d ∧
      ∀ j, j ≠ i → (f.setIncoming i b w).inst j = f.inst j := by
  have hlt := owner_lt hi.owner_eq
  refine ⟨⟨?_, ?_, ?_⟩, fun j hj => ?_⟩
  · rw [setIncoming, op_modifyOp _ hlt, if_pos rfl, hi.op_eq]
    simp [hab]
  · rw [setIncoming, ty_modifyOp]
    exact hi.ty_eq
  · rw [setIncoming, owner_modifyOp]
    exact hi.owner_eq
  · rw [setIncoming, modifyOp, inst_modifyInst, if_neg fun h => hj h.1.symm]

/-- The blocks of the vector loop are filled.  The phi has yet to get its entry for the latch. -/
structure Filled (p : VectorPlan) (n : VectorLoop) (f g : Func) : Prop where
  below : f.Below g
  layout_eq : g.layout = f.layout
  blocks_size_eq : g.blocks.size = f.blocks.size
  vectorized_eq : ∀ b, (g.block b).vectorized = (f.block b).vectorized
  body_eq : ∀ b, g.body b =
    if b = n.blocks.latch then [n.next, n.back] else
    if b = n.blocks.body then n.code ++ [n.jump] else
    if b = n.blocks.header then [n.iv, n.cond, n.branch] else f.body b
  iv : Holds g n.iv (.phi [(p.loop.start, p.loop.preheader), (p.loop.start, n.blocks.latch)]) p.ivTy
    n.blocks.header
  iv_le : f.insts.size ≤ n.iv
  cond : Holds g n.cond (.icmp .ult (.inst n.iv) n.stop) p.boolTy n.blocks.header
  branch : Holds g n.branch
    (.condBr (.inst n.cond) n.blocks.body (n.blocks.middle.getD p.loop.exit)) p.voidTy n.blocks.header
  plain : ∀ i ∈ n.code, (g.op i).isPhi = false ∧ (g.op i).isTerminator = false
  owner_eq : ∀ i ∈ n.code, g.owner i = some n.blocks.body
  jump : Holds g n.jump (.br n.blocks.latch) p.voidTy n.blocks.body
  next : Holds g n.next (.binary .add (.inst n.iv) (.const n.step)) p.ivTy n.blocks.latch
  back : Holds g n.back (.br n.blocks.header) p.voidTy n.blocks.latch
  step_eq : g.constants[n.step]? = some ⟨p.ivTy, .int n.width⟩
  mem_new : ∀ i, f.insts.size ≤ i → i < g.insts.size →
    ∃ b ∈ [n.blocks.header, n.blocks.body, n.blocks.latch], i ∈ g.body b
  made : Made p n f g
  emission : ∃ base, Emission p n f base g

/-- Three different empty blocks are filled. -/
theorem filled_of_fill {k : VectorBlocks} {stop : Operand} {iv : InstId} (width : Int64)
    (hfit : ∀ s ∈ p.steps, Fits f s.1 s.2)
    (hlive : ∀ b ∈ [k.header, k.body, k.latch], b < f.blocks.size ∧ f.body b = [])
    (hnodup : [k.header, k.body, k.latch].Nodup) (hfill : fillHeader f p k stop = (iv, g)) :
    ∃ n : VectorLoop, ∃ h, n.blocks = k ∧ n.stop = stop ∧ n.iv = iv ∧ n.width = width ∧
      Filled p n f h ∧
      fillLatch (fillBody g p k iv) p k iv width = h.setIncoming iv k.latch (.inst n.next) := by
  obtain ⟨hheader, hheader'⟩ := hlive k.header (by simp)
  obtain ⟨hbody, hbody'⟩ := hlive k.body (by simp)
  obtain ⟨hlatch, hlatch'⟩ := hlive k.latch (by simp)
  obtain ⟨hhb, hhl, hbl⟩ : k.header ≠ k.body ∧ k.header ≠ k.latch ∧ k.body ≠ k.latch := by
    simpa [and_assoc] using hnodup
  -- The header.
  obtain ⟨hiv, happ₁, hphi, hcond, hbranch⟩ := appends_fillHeader (p := p) hheader stop
  have htys₁ := mem_tys_fillHeader (p := p) hheader stop
  rw [hfill] at hiv happ₁ hphi hcond hbranch htys₁
  dsimp only at hiv happ₁ hphi hcond hbranch htys₁
  rw [← hiv] at hphi hcond hbranch
  have hivty : g.operandTy (.inst iv) = .ok p.ivTy := by
    rw [operandTy_inst (owner_lt hphi.owner_eq), hphi.ty_eq]
  have hop₁ {s : InstId × Lowering} (hs : s ∈ p.steps) : g.op s.1 = f.op s.1 :=
    happ₁.op_eq (hfit s hs).lt
  have hfit₁ : ∀ s ∈ p.steps, Fits g s.1 s.2 := fun s hs => by
    obtain ⟨hlt, hphi, hterm, hsplats⟩ := hfit s hs
    rw [← hop₁ hs] at hphi hterm hsplats
    exact ⟨Nat.lt_of_lt_of_le hlt happ₁.size_le, hphi, hterm, hsplats⟩
  -- The body.
  have hbody₁ : k.body < g.blocks.size := happ₁.blocks_size_eq ▸ hbody
  obtain ⟨code, jump, happ₂, hjump, hplain, hmade⟩ := appends_fillBody iv hbody₁ hfit₁
  obtain ⟨f₂, hf₂⟩ : ∃ h, fillBody g p k iv = h := ⟨_, rfl⟩
  rw [hf₂] at happ₂ hjump hplain hmade ⊢
  -- The latch.
  obtain ⟨f₃, hbelow₃, happ₃, hnext, hback, hstep, htys₃, heq⟩ := appends_fillLatch (f := f₂) (p := p)
    (k := k) iv (happ₂.blocks_size_eq ▸ happ₁.blocks_size_eq ▸ hlatch) width
  have hstays₁ := happ₂.toBelow.trans hbelow₃
  have hlt : ∀ {i}, i ∈ code → i < f₂.insts.size := fun hi =>
    ((happ₂.mem_code _).mp (List.mem_append_left _ hi)).2
  have hinst : ∀ {i}, i ∈ code → f₃.inst i = f₂.inst i := fun hi => hbelow₃.inst_eq _ (hlt hi)
  have hmade₁ := hmade ⟨k, iv, iv + 1, iv + 2, code, jump, f₂.insts.size, f₂.insts.size + 1,
    f₂.constants.size, width, stop⟩ rfl rfl
  have hbodies : ∀ b, f₃.body b = if b = k.latch then [f₂.insts.size, f₂.insts.size + 1] else
      if b = k.body then code ++ [jump] else
      if b = k.header then [iv, iv + 1, iv + 2] else f.body b := fun b => by
    rw [happ₃.body_eq]
    simp only [body_addConstant]
    rw [happ₂.body_eq, happ₂.body_eq, happ₁.body_eq, happ₁.body_eq, happ₁.body_eq, if_neg hbl.symm,
      if_neg hhl.symm, if_neg hhb.symm, hheader', hbody', hlatch', ← hiv]
    rfl
  refine ⟨⟨k, iv, iv + 1, iv + 2, code, jump, f₂.insts.size, f₂.insts.size + 1, f₂.constants.size,
    width, stop⟩, f₃, rfl, rfl, rfl, rfl, ?_, heq⟩
  constructor
  case below => exact happ₁.toBelow.trans hstays₁
  case layout_eq => exact happ₃.layout_eq.trans (happ₂.layout_eq.trans happ₁.layout_eq)
  case blocks_size_eq =>
    exact happ₃.blocks_size_eq.trans (happ₂.blocks_size_eq.trans happ₁.blocks_size_eq)
  case vectorized_eq =>
    exact fun b => (happ₃.vectorized_eq b).trans ((happ₂.vectorized_eq b).trans (happ₁.vectorized_eq b))
  case body_eq => exact hbodies
  case iv => exact hphi.congr (hstays₁.inst_eq _ (owner_lt hphi.owner_eq))
  case iv_le => exact Nat.le_of_eq hiv.symm
  case cond => exact hcond.congr (hstays₁.inst_eq _ (owner_lt hcond.owner_eq))
  case branch => exact hbranch.congr (hstays₁.inst_eq _ (owner_lt hbranch.owner_eq))
  case plain =>
    intro i hi
    rw [op, hinst hi]
    exact hplain i hi
  case owner_eq =>
    intro i hi
    rw [owner, hinst hi]
    exact happ₂.owner_eq i (List.mem_append_left _ hi)
  case jump => exact hjump.congr (hbelow₃.inst_eq _ (owner_lt hjump.owner_eq))
  case next => exact hnext
  case back => exact hback
  case step_eq => exact hstep
  case mem_new =>
    intro i hle hlt
    by_cases h₁ : i < g.insts.size
    · refine ⟨k.header, by simp, ?_⟩
      rw [hbodies, if_neg hhl, if_neg hhb, if_pos rfl, hiv]
      exact (happ₁.mem_code i).mpr ⟨hle, h₁⟩
    · by_cases h₂ : i < f₂.insts.size
      · refine ⟨k.body, by simp, ?_⟩
        rw [hbodies, if_neg hbl, if_pos rfl]
        exact (happ₂.mem_code i).mpr ⟨Nat.le_of_not_lt h₁, h₂⟩
      · refine ⟨k.latch, by simp, ?_⟩
        rw [hbodies, if_pos rfl]
        exact (happ₃.mem_code i).mpr ⟨Nat.le_of_not_lt h₂, hlt⟩
  case made =>
    exact (hmade₁.congr (fun i hi => congrArg Inst.op (hinst hi)) htys₃).of_steps
      (fun s hs => hop₁ hs) htys₁
  case emission =>
    refine ⟨g, happ₁.toBelow, htys₁, hbody₁, hivty, ?_, ?_, fun i hi => ?_, fun i hi => ?_⟩
    · rw [hf₂]
      exact happ₂
    · rw [hf₂]
      exact hbelow₃.keepsTypes
    · rw [hf₂]
      exact congrArg Inst.op (hinst hi)
    · rw [hf₂]
      exact congrArg Inst.ty (hinst hi)

/-- A function with a vector loop, which the preheader leads to. -/
structure Added (l : NaturalLoop) (p : VectorPlan) (n : VectorLoop) (f g : Func) : Prop where
  newLoop : NewLoop p n g
  blocks_eq : n.blocks = freshBlocks f p
  mem_layout : ∀ b, b ∈ g.layout ↔ b ∈ n.blocks.all ∨ b ∈ f.layout
  entry_eq : ∀ e, f.entry? = some e → l.header ≠ e → g.entry? = some e
  filter_eq : ∀ q : BlockId → Bool, (∀ b ∈ n.blocks.all, q b = false) →
    g.layout.filter q = f.layout.filter q
  ret_eq : g.ret = f.ret
  params_eq : g.params = f.params
  constant_eq : ∀ (c : Nat) x, f.constants[c]? = some x → g.constants[c]? = some x
  size_le : f.insts.size ≤ g.insts.size
  blocks_size_eq : g.blocks.size = f.blocks.size + n.blocks.all.length
  body_eq : ∀ b, b ≠ n.blocks.header → b ≠ n.blocks.body → b ≠ n.blocks.latch → g.body b = f.body b
  /-- The preheader leads to the vector loop. -/
  inst_eq : ∀ i < f.insts.size, g.inst i = { f.inst i with
    op := if f.terminator? p.loop.preheader = some i then (f.op i).retarget l.header n.blocks.header
      else f.op i }
  mem_new : ∀ i, f.insts.size ≤ i → i < g.insts.size →
    ∃ b ∈ [n.blocks.header, n.blocks.body, n.blocks.latch], i ∈ g.body b
  vectorized_eq : ∀ b, (g.block b).vectorized = (decide (b = n.blocks.header) || (f.block b).vectorized)
  made : Made p n f g
  emission : ∃ k base, Entered l p n.blocks f k ∧ Emission p n k base g

/-- The phi gets its entry for the latch, and the header its mark. -/
theorem Filled.added {n : VectorLoop} (hfill : Filled p n g h) (hent : Entered l p n.blocks f g)
    (hfit : ∀ s ∈ p.steps, Fits f s.1 s.2) (hk : n.blocks = freshBlocks f p)
    (hne : p.loop.preheader ≠ n.blocks.latch) :
    Added l p n f (mark (h.setIncoming n.iv n.blocks.latch (.inst n.next)) n.blocks.header) := by
  obtain ⟨hiv, hinst⟩ := setIncoming_second (w := .inst n.next) hfill.iv hne
  have hsize : (h.setIncoming n.iv n.blocks.latch (.inst n.next)).insts.size = h.insts.size := by
    simp [setIncoming]
  have hty : ∀ i, ((h.setIncoming n.iv n.blocks.latch (.inst n.next)).inst i).ty = (h.inst i).ty :=
    fun i => by simp [setIncoming]
  -- The mark changes neither instructions nor bodies.
  obtain ⟨k, hkeq⟩ : ∃ k, mark (h.setIncoming n.iv n.blocks.latch (.inst n.next)) n.blocks.header = k :=
    ⟨_, rfl⟩
  rw [hkeq]
  have hinst' : ∀ i, k.inst i = (h.setIncoming n.iv n.blocks.latch (.inst n.next)).inst i := fun i => by
    subst hkeq
    rfl
  have hsame : ∀ i, (h.op i).isPhi = false → k.inst i = h.inst i := fun i hi => by
    rw [hinst', hinst i fun heq => ?_]
    rw [heq, hfill.iv.op_eq] at hi
    cases hi
  have hbody : ∀ b, k.body b = h.body b := fun b => by
    subst hkeq
    exact body_mark _ _
  obtain ⟨hret, hparams, hconsts, hlayout⟩ : k.ret = h.ret ∧ k.params = h.params ∧
      k.constants = h.constants ∧ k.layout = h.layout := by
    subst hkeq
    exact ⟨rfl, rfl, rfl, rfl⟩
  have hsizek : k.insts.size = h.insts.size := by
    subst hkeq
    exact hsize
  have htyk : ∀ i, (k.inst i).ty = (h.inst i).ty := fun i => by rw [hinst', hty]
  have hkeeps : h.KeepsTypes k := keepsTypes_of hparams hret (Nat.le_of_eq hsizek.symm)
    (fun i _ => htyk i) fun c x hx => hconsts ▸ hx
  have hcode : ∀ i ∈ n.code, k.inst i = h.inst i := fun i hi => hsame i (hfill.plain i hi).1
  have htys : ∀ t ∈ k.tys, t ∈ h.tys := by
    refine forall_mem_tys_of_same hret hparams hconsts hsizek htyk (fun i t a hop => ?_) fun _ ht => ht
    by_cases hi : i = n.iv
    · rw [op, hinst', hi] at hop
      have := hiv.op_eq
      rw [op, hop] at this
      cases this
    · rw [op, hinst', hinst i hi] at hop
      exact hop
  obtain ⟨hhb, hhl, hbl, _⟩ := VectorBlocks.ne_of_nodup (hk ▸ nodup_freshBlocks f p)
  have hnewLoop : NewLoop p n k := by
    constructor
    case header_body => rw [hbody, hfill.body_eq, if_neg hhl, if_neg hhb, if_pos rfl]
    case body_body => rw [hbody, hfill.body_eq, if_neg hbl, if_pos rfl]
    case latch_body => rw [hbody, hfill.body_eq, if_pos rfl]
    case iv => exact hiv.congr (hinst' _)
    case cond => exact hfill.cond.congr (hsame _ (by rw [hfill.cond.op_eq]; rfl))
    case branch => exact hfill.branch.congr (hsame _ (by rw [hfill.branch.op_eq]; rfl))
    case plain =>
      intro i hi
      rw [op, hcode i hi]
      exact hfill.plain i hi
    case owner_eq =>
      intro i hi
      rw [owner, hcode i hi]
      exact hfill.owner_eq i hi
    case jump => exact hfill.jump.congr (hsame _ (by rw [hfill.jump.op_eq]; rfl))
    case next => exact hfill.next.congr (hsame _ (by rw [hfill.next.op_eq]; rfl))
    case back => exact hfill.back.congr (hsame _ (by rw [hfill.back.op_eq]; rfl))
    case step_eq => exact hconsts ▸ hfill.step_eq
  have hfits := fun s hs => hent.fits (hfit s hs)
  constructor
  case newLoop => exact hnewLoop
  case blocks_eq => exact hk
  case mem_layout =>
    intro b
    rw [hlayout, hfill.layout_eq]
    exact hent.mem_layout b
  case entry_eq =>
    intro e he hne
    rw [ Func.entry?, hlayout, hfill.layout_eq]
    exact hent.entry_eq e he hne
  case filter_eq =>
    intro q hq
    rw [hlayout, hfill.layout_eq]
    exact hent.filter_eq q hq
  case ret_eq => rw [hret, hfill.below.ret_eq, hent.ret_eq]
  case params_eq => rw [hparams, hfill.below.params_eq, hent.params_eq]
  case constant_eq =>
    intro c x hx
    rw [hconsts]
    exact hfill.below.constant_eq c x (hent.constants_eq ▸ hx)
  case size_le =>
    rw [hsizek, ← hent.size_eq]
    exact hfill.below.size_le
  case blocks_size_eq =>
    rw [← hent.blocks_size_eq, ← hfill.blocks_size_eq]
    subst hkeq
    exact Array.size_modify
  case body_eq =>
    intro b hb₁ hb₂ hb₃
    rw [hbody, hfill.body_eq, if_neg hb₃, if_neg hb₂, if_neg hb₁, hent.body_eq]
  case inst_eq =>
    intro i hi
    have hold : i < g.insts.size := hent.size_eq ▸ hi
    rw [hinst', hinst i (Nat.ne_of_lt (Nat.lt_of_lt_of_le hold hfill.iv_le)), hfill.below.inst_eq i hold]
    exact hent.inst_eq i hi
  case mem_new =>
    intro i hle hlt
    obtain ⟨b, hb, hi⟩ := hfill.mem_new i (hent.size_eq ▸ hle) (hsizek ▸ hlt)
    exact ⟨b, hb, hbody b ▸ hi⟩
  case vectorized_eq =>
    intro b
    have hlt : n.blocks.header < h.blocks.size := by
      rw [hfill.blocks_size_eq, hent.blocks_size_eq, hk]
      exact Nat.lt_add_of_pos_right (by simp [VectorBlocks.all])
    have := vectorized_mark (f := h.setIncoming n.iv n.blocks.latch (.inst n.next)) hlt b
    rw [hkeq] at this
    rw [this, ← hent.vectorized_eq, ← hfill.vectorized_eq]
    rfl
  case made =>
    refine (hfill.made.congr (fun i hi => congrArg Inst.op (hcode i hi)) fun t ht =>
      .inl (htys t ht)).of_steps (fun s hs => (hfits s hs).2) ?_
    exact hent.forall_mem_tys fun t ht => .inl ht
  case emission =>
    obtain ⟨base, hem⟩ := hfill.emission
    exact ⟨g, base, hent, hem.congr hkeeps (fun i hi => congrArg Inst.op (hcode i hi)) fun i _ => htyk i⟩

end Vectorize

end LoopNest
