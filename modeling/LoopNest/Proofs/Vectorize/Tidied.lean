import LoopNest.Proofs.Func.Without
import LoopNest.Proofs.Vectorize.Rooted

/-!
# Vectorizing a function without some blocks

A plan can be carried out in a function and in the same function without some blocks.  The results
are again alike (`tidied_apply`): the edits are the same, and none of them is at a block that
one of the functions does not have.
-/

namespace LoopNest

open Func

namespace Vectorize

variable {α : Type} {D : List BlockId} {P : Constant → Prop} {f g : Func} {p : VectorPlan}
  {b : BlockId} {i : InstId} {k : VectorBlocks}

/-- An instruction that is neither a phi nor a call. -/
structure Plain (f : Func) (i : InstId) : Prop where
  lt : i < f.insts.size
  not_isPhi : (f.op i).isPhi = false
  not_isCall : (f.op i).isCall = false

theorem isCall_mapOperands (k : Operand → Operand) (o : Op) : (o.mapOperands k).isCall = o.isCall := by
  cases o <;> rfl

theorem isCall_retarget (a b : BlockId) (o : Op) : (o.retarget a b).isCall = o.isCall := by
  cases o <;> rfl

theorem Plain.of_inst (h : Plain f i) (hsize : f.insts.size ≤ g.insts.size)
    (heq : g.inst i = f.inst i) : Plain g i := by
  refine ⟨Nat.lt_of_lt_of_le h.lt hsize, ?_, ?_⟩
  · rw [op, heq]
    exact h.not_isPhi
  · rw [op, heq]
    exact h.not_isCall

/-- What the same edits lead to in both functions. -/
structure Twins (D : List BlockId) (P : Constant → Prop) (f : Func) (x y : α × Func) : Prop where
  fst_eq : y.1 = x.1
  tidied : Tidied D P x.2 y.2
  size_eq : x.2.blocks.size = f.blocks.size
  plain : ∀ i, Plain f i → Plain x.2 i

theorem Twins.exists {x y : α × Func} (h : Twins D P f x y) : ∃ a f' g', x = (a, f') ∧ y = (a, g') ∧
    Tidied D P f' g' ∧ f'.blocks.size = f.blocks.size ∧ ∀ i, Plain f i → Plain f' i :=
  ⟨x.1, x.2, y.2, rfl, Prod.ext h.fst_eq rfl, h.tidied, h.size_eq, h.plain⟩

theorem Twins.of {x y : α × Func} {f' : Func} (h : Twins D P f' x y)
    (hsize : f'.blocks.size = f.blocks.size) (hplain : ∀ i, Plain f i → Plain f' i) :
    Twins D P f x y :=
  ⟨h.fst_eq, h.tidied, h.size_eq.trans hsize, fun i hi => h.plain i (hplain i hi)⟩

section

variable (h : Tidied D P f g)

include h

theorem twins_addConstant {t : TyId} {l : Literal} (hl : P ⟨t, l⟩) :
    Twins D P f (f.addConstant t l) (g.addConstant t l) :=
  ⟨(h.addConstant hl).1, (h.addConstant hl).2, rfl, fun _ hi => hi.of_inst (Nat.le_refl _) rfl⟩

theorem twins_appendInst (hb : b < f.blocks.size) (hout : b ∉ D) {d : Draft}
    (hd : ∀ incoming, d.op = .phi incoming → ∀ e ∈ incoming, e.2 ∉ D)
    (hcall : d.op.isCall = false) :
    Twins D P f (f.appendInst b d) (g.appendInst b d) := by
  obtain ⟨heq, ht⟩ := h.appendInst hb hout hd hcall
  exact ⟨heq, ht, by simp, fun i hi => hi.of_inst (by simp) (by simp [Nat.ne_of_lt hi.lt])⟩

/-! ## The end of the vector loop -/

theorem twins_addBefore (hb : b < f.blocks.size) (hout : b ∉ D) {op : Op} (hphi : op.isPhi = false)
    (hcall : op.isCall = false) (ty : TyId) (name : String) :
    Twins D P f (addBefore f b op ty name) (addBefore g b op ty name) := by
  have hd : ∀ incoming, op = .phi incoming → ∀ e ∈ incoming, e.2 ∉ D := by
    rintro incoming rfl
    cases hphi
  obtain ⟨heq, ht⟩ := h.insertBeforeTerminator (d := ⟨op, ty, some name⟩) hb hout hd hcall
  refine ⟨congrArg Operand.inst heq, ht, f.blocks_size_insertBeforeTerminator b _, fun i hi => ?_⟩
  refine hi.of_inst ?_ ?_
  · simp [addBefore]
  · simp [addBefore, Nat.ne_of_lt hi.lt]

variable (hb : p.loop.preheader < f.blocks.size) (hout : p.loop.preheader ∉ D)
  (hP : ∀ v, P ⟨p.ivTy, .int v⟩) (width : Int64)

include hb hout hP

theorem twins_computeEnd : Twins D P f (computeEnd f p width) (computeEnd g p width) := by
  have hadd {f' g' : Func} (h : Tidied D P f' g') (hs : f'.blocks.size = f.blocks.size) {o : Op}
      (hphi : o.isPhi = false) (hcall : o.isCall = false) (ty : TyId) (name : String) :=
    twins_addBefore h (hs.symm ▸ hb) hout hphi hcall ty name
  unfold computeEnd
  dsimp only
  obtain ⟨zero, f₁, g₁, hx, hy, h₁, hs₁, hp₁⟩ := (twins_addConstant h (hP 0)).exists
  rw [hx, hy]
  dsimp only
  obtain ⟨w, f₂, g₂, hx, hy, h₂, hs₂, hp₂⟩ := ((twins_addConstant h₁ (hP width)).of hs₁ hp₁).exists
  rw [hx, hy]
  dsimp only
  obtain ⟨entered, f₃, g₃, hx, hy, h₃, hs₃, hp₃⟩ := ((hadd h₂ hs₂ rfl rfl p.boolTy
    (p.base ++ ".vec.entered") (o := .icmp .ult p.loop.start p.loop.bound)).of hs₂ hp₂).exists
  rw [hx, hy]
  dsimp only
  obtain ⟨span, f₄, g₄, hx, hy, h₄, hs₄, hp₄⟩ := ((hadd h₃ hs₃ rfl rfl p.ivTy
    (p.base ++ ".vec.span") (o := .binary .sub p.loop.bound p.loop.start)).of hs₃ hp₃).exists
  rw [hx, hy]
  dsimp only
  obtain ⟨trip, f₅, g₅, hx, hy, h₅, hs₅, hp₅⟩ := ((hadd h₄ hs₄ rfl rfl p.ivTy
    (p.base ++ ".vec.trip") (o := .select entered span zero)).of hs₄ hp₄).exists
  rw [hx, hy]
  dsimp only
  obtain ⟨rem, f₆, g₆, hx, hy, h₆, hs₆, hp₆⟩ := ((hadd h₅ hs₅ rfl rfl p.ivTy
    (p.base ++ ".vec.rem") (o := .binary .urem trip w)).of hs₅ hp₅).exists
  rw [hx, hy]
  dsimp only
  obtain ⟨main, f₇, g₇, hx, hy, h₇, hs₇, hp₇⟩ := ((hadd h₆ hs₆ rfl rfl p.ivTy
    (p.base ++ ".vec.main") (o := .binary .sub trip rem)).of hs₆ hp₆).exists
  rw [hx, hy]
  dsimp only
  exact (hadd h₇ hs₇ rfl rfl p.ivTy _).of hs₇ hp₇

theorem twins_emitEnd : Twins D P f (emitEnd f p width) (emitEnd g p width) := by
  unfold emitEnd
  split
  · exact twins_addConstant h (hP _)
  · exact twins_computeEnd h hb hout hP width

end

/-! ## The new blocks -/

theorem tidied_addBlocks (h : Tidied D P f g) (hout : p.loop.header ∉ D) :
    Tidied D P (addBlocks f p).2 (addBlocks g p).2 := by
  have hadd {f' g' : Func} (h : Tidied D P f' g') (name : String) :=
    (h.addBlockBefore hout name).2
  have h₃ := hadd (hadd (hadd h (p.base ++ ".vec.header")) (p.base ++ ".vec.body"))
    (p.base ++ ".vec.latch")
  unfold addBlocks
  dsimp only
  split
  · exact hadd h₃ (p.base ++ ".vec.middle")
  · exact h₃

theorem twins_fillHeader (h : Tidied D P f g) (hb : k.header < f.blocks.size) (hout : k.header ∉ D)
    (hph : p.loop.preheader ∉ D) (hlatch : k.latch ∉ D) (stop : Operand) :
    Twins D P f (fillHeader f p k stop) (fillHeader g p k stop) := by
  unfold fillHeader
  dsimp only
  obtain ⟨iv, f₁, g₁, hx, hy, h₁, hs₁, hp₁⟩ := (twins_appendInst h hb hout (d := ⟨.phi
    [(p.loop.start, p.loop.preheader), (p.loop.start, k.latch)], p.ivTy, some (p.base ++ ".vec.iv")⟩)
    (fun incoming heq e he => by
      cases heq
      rcases List.mem_cons.mp he with rfl | he
      · exact hph
      · exact List.mem_singleton.mp he ▸ hlatch) rfl).exists
  rw [hx, hy]
  dsimp only
  obtain ⟨cond, f₂, g₂, hx, hy, h₂, hs₂, hp₂⟩ := ((twins_appendInst h₁ (hs₁.symm ▸ hb) hout
    (d := ⟨.icmp .ult (.inst iv) stop, p.boolTy, some (p.base ++ ".vec.cond")⟩) nofun rfl).of
    hs₁ hp₁).exists
  rw [hx, hy]
  dsimp only
  obtain ⟨_, f₃, g₃, hx, hy, h₃, hs₃, hp₃⟩ := ((twins_appendInst h₂ (hs₂.symm ▸ hb) hout
    (d := ⟨.condBr (.inst cond) k.body (k.middle.getD p.loop.exit), p.voidTy, none⟩) nofun rfl).of
    hs₂ hp₂).exists
  rw [hx, hy]
  exact ⟨rfl, h₃, hs₃, hp₃⟩

/-! ## The body -/

/-- States of the new body that only differ in the blocks that are missing. -/
structure TwinStates (D : List BlockId) (P : Constant → Prop) (f : Func) (s t : BodyState) : Prop where
  renamed_eq : t.renamed = s.renamed
  splatted_eq : t.splatted = s.splatted
  tidied : Tidied D P s.func t.func
  size_eq : s.func.blocks.size = f.blocks.size
  plain : ∀ i, Plain f i → Plain s.func i

namespace TwinStates

variable {s t : BodyState} (h : TwinStates D P f s t) (hb : b < f.blocks.size) (hout : b ∉ D)

include h

theorem rename_eq (v : Operand) : t.rename v = s.rename v := by
  rw [BodyState.rename, BodyState.rename, h.renamed_eq]

theorem widened_eq (splats : List (Operand × TyId)) (v : Operand) :
    t.widened splats v = s.widened splats v := by
  rw [BodyState.widened, BodyState.widened, h.splatted_eq, h.rename_eq]

include hb hout

theorem splat (name : String) (v : Operand) (ty : TyId) :
    TwinStates D P f (s.splat b name v ty) (t.splat b name v ty) := by
  unfold BodyState.splat
  rw [h.splatted_eq, h.rename_eq]
  split
  · exact h
  · obtain ⟨i, f₁, g₁, hx, hy, h₁, hs₁, hp₁⟩ := ((twins_appendInst h.tidied (h.size_eq.symm ▸ hb) hout
      (d := ⟨.splat (s.rename v), ty, some (name ++ ".splat")⟩) nofun rfl).of h.size_eq h.plain).exists
    rw [hx, hy]
    exact ⟨h.renamed_eq, rfl, h₁, hs₁, hp₁⟩

omit h in
theorem splats (name : String) : ∀ (splats : List (Operand × TyId)) {s t : BodyState},
    TwinStates D P f s t → TwinStates D P f
      (splats.foldl (fun s (v, t) => s.splat b name v t) s)
      (splats.foldl (fun s (v, t) => s.splat b name v t) t)
  | [], _, _, h => h
  | (v, ty) :: rest, _, _, h => splats name rest (h.splat hb hout name v ty)

theorem add {old : InstId} {o : Op} (hphi : o.isPhi = false) (hcall : o.isCall = false) (ty : TyId) :
    TwinStates D P f (s.add b old o ty) (t.add b old o ty) := by
  have hname : (t.func.inst old).name = (s.func.inst old).name := by rw [h.tidied.inst_eq]
  unfold BodyState.add
  dsimp only
  rw [hname]
  obtain ⟨i, f₁, g₁, hx, hy, h₁, hs₁, hp₁⟩ := ((twins_appendInst h.tidied (h.size_eq.symm ▸ hb) hout
    (d := ⟨o, ty, (s.func.inst old).name.map (· ++ ".vec")⟩) (by rintro _ rfl; cases hphi) hcall).of
    h.size_eq h.plain).exists
  rw [hx, hy]
  exact ⟨by rw [h.renamed_eq], h.splatted_eq, h₁, hs₁, hp₁⟩

theorem step (name : String) (hi : Plain f i) (low : Lowering) :
    TwinStates D P f (s.step b name i low) (t.step b name i low) := by
  have hop {s t : BodyState} (h : TwinStates D P f s t) : t.func.op i = s.func.op i :=
    (h.tidied.alike i).eq_of_not_isPhi (h.plain i hi).not_isPhi
  have hadd {s t : BodyState} (h : TwinStates D P f s t) (k : Operand → Operand) (ty : TyId) :
      TwinStates D P f (s.add b i ((s.func.op i).mapOperands k) ty)
        (t.add b i ((t.func.op i).mapOperands k) ty) := by
    rw [hop h]
    have hplain := h.plain i hi
    refine h.add hb hout ?_ ?_ ty
    · rw [isPhi_mapOperands]
      exact hplain.not_isPhi
    · rw [isCall_mapOperands]
      exact hplain.not_isCall
  cases low with
  | scalar =>
    have hrename : t.rename = s.rename := funext h.rename_eq
    have hty : (t.func.inst i).ty = (s.func.inst i).ty := h.tidied.ty_eq i
    change TwinStates D P f (s.add b i ((s.func.op i).mapOperands s.rename) (s.func.inst i).ty)
      (t.add b i ((t.func.op i).mapOperands t.rename) (t.func.inst i).ty)
    rw [hrename, hty]
    exact hadd h _ _
  | widen ty splats =>
    have h' := TwinStates.splats hb hout name splats h
    unfold BodyState.step
    dsimp only
    rw [show (splats.foldl (fun s (v, t) => s.splat b name v t) t).widened splats = _ from
      funext (h'.widened_eq splats)]
    exact hadd h' _ _

omit h in
theorem steps (name : String) : ∀ (steps : List (InstId × Lowering)) {s t : BodyState},
    (∀ x ∈ steps, Plain f x.1) → TwinStates D P f s t → TwinStates D P f
      (steps.foldl (fun s (i, lowering) => s.step b name i lowering) s)
      (steps.foldl (fun s (i, lowering) => s.step b name i lowering) t)
  | [], _, _, _, h => h
  | (i, low) :: rest, _, _, hplain, h => steps name rest
    (fun x hx => hplain x (List.mem_cons_of_mem _ hx))
    (h.step hb hout name (hplain (i, low) List.mem_cons_self) low)

end TwinStates

theorem tidied_fillBody (h : Tidied D P f g) (hb : k.body < f.blocks.size) (hout : k.body ∉ D)
    (hplain : ∀ x ∈ p.steps, Plain f x.1) (iv : InstId) :
    Tidied D P (fillBody f p k iv) (fillBody g p k iv) := by
  have hs := TwinStates.steps hb hout p.base p.steps hplain
    (s := ⟨f, [(p.loop.iv, .inst iv)], []⟩) (t := ⟨g, [(p.loop.iv, .inst iv)], []⟩)
    ⟨rfl, rfl, h, rfl, fun _ hi => hi⟩
  unfold fillBody
  dsimp only
  exact (twins_appendInst hs.tidied (hs.size_eq.symm ▸ hb) hout (d := ⟨.br k.latch, p.voidTy, none⟩)
    nofun rfl).tidied

/-! ## The rest -/

theorem tidied_fillLatch (h : Tidied D P f g) (hb : k.latch < f.blocks.size) (hout : k.latch ∉ D)
    (hP : ∀ v, P ⟨p.ivTy, .int v⟩) (iv : InstId) (width : Int64) :
    Tidied D P (fillLatch f p k iv width) (fillLatch g p k iv width) := by
  unfold fillLatch
  dsimp only
  obtain ⟨step, f₁, g₁, hx, hy, h₁, hs₁, -⟩ := (twins_addConstant h (hP width)).exists
  rw [hx, hy]
  dsimp only
  obtain ⟨next, f₂, g₂, hx, hy, h₂, hs₂, -⟩ := (twins_appendInst h₁ (hs₁.symm ▸ hb) hout
    (d := ⟨.binary .add (.inst iv) step, p.ivTy, some (p.base ++ ".vec.next")⟩) nofun rfl).exists
  rw [hx, hy]
  dsimp only
  obtain ⟨_, f₃, g₃, hx, hy, h₃, -⟩ := (twins_appendInst h₂ ((hs₂.trans hs₁).symm ▸ hb) hout
    (d := ⟨.br k.header, p.voidTy, none⟩) nofun rfl).exists
  rw [hx, hy]
  exact h₃.setIncoming iv k.latch (.inst next)

theorem tidied_mark (h : Tidied D P f g) (b : BlockId) : Tidied D P (mark f b) (mark g b) :=
  h.modifyBlock b fun _ => rfl

theorem tidied_keepEpilogue (h : Tidied D P f g) (hb : b < f.blocks.size) (hout : b ∉ D)
    (hph : p.loop.preheader ∉ D) (stop : Operand) :
    Tidied D P (keepEpilogue f p b stop) (keepEpilogue g p b stop) := by
  have h₁ := (twins_appendInst h hb hout (d := ⟨.br p.loop.header, p.voidTy, none⟩) nofun rfl).tidied
  exact tidied_mark ((h₁.renamePredecessor hph hout _).setIncoming _ _ _) _

theorem Plain.retarget {c x y : BlockId} (h : Plain f i) : Plain (f.retarget c x y) i := by
  have hop : (f.retarget c x y).op i = (f.op i).retarget x y ∨ (f.retarget c x y).op i = f.op i := by
    rw [op, inst_retarget h.lt]
    dsimp only
    split
    · exact .inl rfl
    · exact .inr rfl
  refine ⟨(f.relinked_retarget c x y).size_eq.symm ▸ h.lt, ?_, ?_⟩
  · rw [(f.relinked_retarget c x y).isPhi_eq]
    exact h.not_isPhi
  · rcases hop with hop | hop
    · rw [hop, isCall_retarget]
      exact h.not_isCall
    · rw [hop]
      exact h.not_isCall

theorem tidied_fillBlocks (h : Tidied D P f g) (hk : ∀ c ∈ k.all, c < f.blocks.size ∧ c ∉ D)
    (hph : p.loop.preheader ∉ D) (hP : ∀ v, P ⟨p.ivTy, .int v⟩)
    (hplain : ∀ x ∈ p.steps, Plain f x.1) (stop : Operand) (width : Int64) :
    Tidied D P (fillBlocks f p k stop width) (fillBlocks g p k stop width) := by
  obtain ⟨hheader, hheader'⟩ := hk k.header (by simp [VectorBlocks.all])
  obtain ⟨hbody, hbody'⟩ := hk k.body (by simp [VectorBlocks.all])
  obtain ⟨hlatch, hlatch'⟩ := hk k.latch (by simp [VectorBlocks.all])
  unfold fillBlocks
  obtain ⟨iv, f₁, g₁, hx, hy, h₁, hs₁, hp₁⟩ :=
    (twins_fillHeader h hheader hheader' hph hlatch' stop).exists
  rw [hx, hy]
  dsimp only
  have hbody₁ : k.body < f₁.blocks.size := hs₁ ▸ hbody
  have h₂ := tidied_fillBody h₁ hbody₁ hbody' (fun x hx => hp₁ _ (hplain x hx)) iv
  obtain ⟨_, code, jump, happ, _⟩ := extended_fillBody (p := p) hbody₁ iv
  refine tidied_mark (tidied_fillLatch h₂ ?_ hlatch' hP iv width) _
  rw [happ.blocks_size_eq, hs₁]
  exact hlatch

section

variable (h : Tidied D P f g) (config : VectorConfig) (hb : p.loop.preheader < f.blocks.size)
  (hph : p.loop.preheader ∈ g.layout) (hheader : p.loop.header ∉ D) (hP : ∀ v, P ⟨p.ivTy, .int v⟩)
  (hplain : ∀ x ∈ p.steps, Plain f x.1)

include h hb hph hheader hP hplain

theorem tidied_vectorLoop : (vectorLoop config g p).1 = (vectorLoop config f p).1 ∧
    (∀ c ∈ (vectorLoop config f p).1.all, c ∉ D) ∧
    Tidied D P (vectorLoop config f p).2 (vectorLoop config g p).2 := by
  have hout : p.loop.preheader ∉ D := (h.mem_layout.mp hph).2
  have hlayout := layout_emitEnd g p (Int64.ofNat config.width)
  unfold vectorLoop
  dsimp only
  obtain ⟨stop, f₁, g₁, hx, hy, h₁, hs₁, hp₁⟩ :=
    (twins_emitEnd h hb hout hP (Int64.ofNat config.width)).exists
  rw [hy] at hlayout
  rw [hx, hy]
  dsimp only at hlayout ⊢
  have h₂ := tidied_addBlocks h₁ hheader
  obtain ⟨heq, hopens⟩ := addBlocks_eq f₁ p
  obtain ⟨heq', hopens'⟩ := addBlocks_eq g₁ p
  generalize addBlocks f₁ p = x at heq hopens h₂ ⊢
  generalize addBlocks g₁ p = y at heq' hopens' h₂ ⊢
  obtain ⟨k, f₂⟩ := x
  obtain ⟨k', g₂⟩ := y
  dsimp only at heq hopens heq' hopens' h₂ ⊢
  have hk : k' = k := by rw [heq, heq', freshBlocks, freshBlocks, h₁.blocks_eq]
  subst hk
  have hfresh : ∀ c ∈ k'.all, c < f₂.blocks.size ∧ c ∉ D := fun c hc => by
    refine ⟨?_, fun hD => ?_⟩
    · rw [hopens.size_eq, heq]
      exact lt_of_mem_freshBlocks (heq ▸ hc)
    · exact absurd (h₁.block_lt c hD) (Nat.not_lt.mpr (le_of_mem_freshBlocks (heq ▸ hc)))
  have hplain₂ : ∀ x ∈ p.steps, Plain f₂ x.1 := fun x hx =>
    (hp₁ _ (hplain x hx)).of_inst (Nat.le_of_eq (congrArg Array.size hopens.insts_eq).symm)
      (by rw [inst, inst, hopens.insts_eq])
  have hph₂ : p.loop.preheader ∈ g₂.layout := (hopens'.mem_layout _).mpr (.inr (hlayout ▸ hph))
  refine ⟨rfl, fun c hc => (hfresh c hc).2, tidied_fillBlocks (h₂.retarget hph₂ _ _) (fun c hc => ?_)
    hout hP (fun x hx => (hplain₂ x hx).retarget) stop _⟩
  rw [(f₂.relinked_retarget _ _ _).blocks_eq]
  exact hfresh c hc

/-- A plan is carried out in a function and in the same function without some blocks. -/
theorem tidied_apply (hold : ∀ b ∈ p.loop.header :: p.loop.latch :: p.loop.body, b ∉ D) :
    Tidied D P (apply config f p) (apply config g p) := by
  have hout : p.loop.preheader ∉ D := (h.mem_layout.mp hph).2
  obtain ⟨hk, hout', ht⟩ := tidied_vectorLoop h config hb hph hheader hP hplain
  have hstop := (twins_emitEnd h hb hout hP (Int64.ofNat config.width)).fst_eq
  obtain ⟨-, hlt, -⟩ := rooted_vectorLoop config f p
  rw [apply_eq, apply_eq, hk, hstop]
  split
  · rename_i m hm
    have hmem : m ∈ (vectorLoop config f p).1.all := List.mem_append_right _ (by simp [hm])
    exact tidied_keepEpilogue ht (hlt m hmem) (hout' m hmem) hout _
  · exact Tidied.eraseAll _ hold ht

end

end Vectorize

end LoopNest
