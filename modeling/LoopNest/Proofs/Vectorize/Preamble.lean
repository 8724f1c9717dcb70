import LoopNest.Proofs.Func.Known
import LoopNest.Proofs.Vectorize.Copied

/-!
# Code before the vector loop

The end of the vector loop is a constant, or it is computed in the preheader.  Either way only the
preheader gets code, and no more is asked for than that the start and the bound exist: the new code
uses operands that exist, and brings types of the plan only (`yields_emitEnd`).
-/

namespace LoopNest

open Func

namespace Vectorize

variable {f g k : Func} {p : VectorPlan} {b : BlockId} {T : List TyId} {t : TyId} {v : Operand}

/-- Code that uses existing operands was added before the terminator of a block. -/
structure Preamble (b : BlockId) (T : List TyId) (f g : Func) : Prop extends Inserts b f g where
  framed : g.Framed
  tys : ∀ t ∈ g.tys, t ∈ f.tys ∨ t ∈ T
  operands : ∀ i, f.insts.size ≤ i → i < g.insts.size → ∀ v ∈ (g.op i).operands, g.Exists v

namespace Preamble

theorem exists_of (h : Preamble b T f g) (hv : f.Exists v) : g.Exists v :=
  h.keepsTypes.exists_of hv

theorem trans (hfg : Preamble b T f g) (hgk : Preamble b T g k) : Preamble b T f k := by
  refine ⟨hfg.toInserts.trans hgk.toInserts, hgk.framed, fun t ht => ?_, fun i hle hlt v hv => ?_⟩
  · exact (hgk.tys t ht).elim (hfg.tys t) .inr
  · by_cases hi : i < g.insts.size
    · rw [hgk.toInserts.op_eq hi] at hv
      exact hgk.exists_of (hfg.operands i hle hi v hv)
    · exact hgk.operands i (Nat.le_of_not_lt hi) hlt v hv

end Preamble

/-- Code that computes an operand. -/
structure Yields (b : BlockId) (T : List TyId) (f : Func) (x : Operand × Func) : Prop where
  preamble : Preamble b T f x.2
  exists_result : x.2.Exists x.1

theorem yields_addConstant (hf : f.Framed) (hb : b ∈ f.layout) (ht : t ∈ T) (lit : Literal) :
    Yields b T f (f.addConstant t lit) := by
  have hi := inserts_addConstant hf hb t lit
  refine ⟨⟨hi, hi.framed hf, forall_mem_tys_addConstant (fun _ ht => .inl ht) (.inr ht) lit,
    fun i hle hlt => absurd hlt (Nat.not_lt.mpr hle)⟩, t, f.operandTy_addConstant t lit⟩

theorem yields_addBefore (hf : f.Framed) (hb : b ∈ f.layout) {op : Op} (ht : t ∈ T) (name : String)
    (hphi : op.isPhi = false) (hterm : op.isTerminator = false) (hslot : ∀ t a, op ≠ .alloca t a)
    (hops : ∀ v ∈ op.operands, f.Exists v) : Yields b T f (addBefore f b op t name) := by
  have hi : Inserts b f (addBefore f b op t name).2 :=
    inserts_insertBeforeTerminator hf hb hphi hterm
  have hnew : (addBefore f b op t name).2.inst f.insts.size = ⟨op, t, some name, some b⟩ := by
    simp [addBefore]
  have hsize : (addBefore f b op t name).2.insts.size = f.insts.size + 1 :=
    f.insts_size_insertBeforeTerminator b ⟨op, t, some name⟩
  have heq {i : InstId} (hle : f.insts.size ≤ i) (hlt : i < (addBefore f b op t name).2.insts.size) :
      i = f.insts.size := Nat.le_antisymm (Nat.le_of_lt_succ (Nat.lt_of_lt_of_eq hlt hsize)) hle
  refine ⟨⟨hi, hi.framed hf, fun u hu => ?_, fun i hle hlt v hv => ?_⟩, t, ?_⟩
  · refine (forall_mem_tys (P := fun u => u ∈ f.tys ∨ u ∈ T)).mpr ?_ u hu
    obtain ⟨hret, hparams, hconsts, hinsts⟩ := forall_mem_tys.mp fun u (hu : u ∈ f.tys) => hu
    refine ⟨.inl hret, fun x hx => .inl (hparams x hx), fun x hx => .inl (hconsts x hx), fun i hlt => ?_⟩
    by_cases hif : i < f.insts.size
    · rw [Func.op, hi.inst_eq i hif]
      exact ⟨.inl (hinsts i hif).1, fun u a hop => .inl ((hinsts i hif).2 u a hop)⟩
    · rw [heq (Nat.le_of_not_lt hif) hlt, Func.op, hnew]
      exact ⟨.inr ht, fun u a hop => absurd hop (hslot u a)⟩
  · rw [heq hle hlt, Func.op, hnew] at hv
    exact hi.keepsTypes.exists_of (hops v hv)
  · have hlt : f.insts.size < (addBefore f b op t name).2.insts.size := hsize ▸ Nat.lt_succ_self _
    rw [addBefore] at hnew hlt ⊢
    exact (operandTy_inst hlt).trans (congrArg (fun x => Except.ok x.ty) hnew)

section

variable (hf : f.Framed) (hb : b ∈ f.layout) (ht : t ∈ T) {x y z : Operand} (hx : f.Exists x)
  (hy : f.Exists y) (name : String)

include hf hb ht hx hy

theorem yields_binary (o : BinaryOp) : Yields b T f (addBefore f b (.binary o x y) t name) := by
  refine yields_addBefore hf hb ht name rfl rfl nofun fun v hv => ?_
  simp only [Op.operands, List.mem_cons, List.not_mem_nil, or_false] at hv
  rcases hv with rfl | rfl
  · exact hx
  · exact hy

theorem yields_icmp (o : IntPredicate) : Yields b T f (addBefore f b (.icmp o x y) t name) := by
  refine yields_addBefore hf hb ht name rfl rfl nofun fun v hv => ?_
  simp only [Op.operands, List.mem_cons, List.not_mem_nil, or_false] at hv
  rcases hv with rfl | rfl
  · exact hx
  · exact hy

theorem yields_select (hz : f.Exists z) : Yields b T f (addBefore f b (.select z x y) t name) := by
  refine yields_addBefore hf hb ht name rfl rfl nofun fun v hv => ?_
  simp only [Op.operands, List.mem_cons, List.not_mem_nil, or_false] at hv
  rcases hv with rfl | rfl | rfl
  · exact hz
  · exact hx
  · exact hy

end

/-- The end of the vector loop is computed in the preheader. -/
theorem yields_computeEnd (hf : f.Framed) (hb : p.loop.preheader ∈ f.layout)
    (hstart : f.Exists p.loop.start) (hbound : f.Exists p.loop.bound) (width : Int64) :
    Yields p.loop.preheader p.tys f (computeEnd f p width) := by
  have hiv : p.ivTy ∈ p.tys := by simp [VectorPlan.tys]
  have hbool : p.boolTy ∈ p.tys := by simp [VectorPlan.tys]
  rw [computeEnd]
  dsimp only
  obtain ⟨h₁, hzero⟩ := yields_addConstant hf hb hiv (.int 0)
  generalize f.addConstant p.ivTy (.int 0) = x at h₁ hzero ⊢
  obtain ⟨zero, f₁⟩ := x
  have hb₁ := h₁.layout_eq ▸ hb
  obtain ⟨h₂, hw⟩ := yields_addConstant h₁.framed hb₁ hiv (.int width)
  dsimp only at h₁ hzero h₂ hw ⊢
  generalize f₁.addConstant p.ivTy (.int width) = x at h₂ hw ⊢
  obtain ⟨w, f₂⟩ := x
  dsimp only at h₂ hw ⊢
  have h₀₂ := h₁.trans h₂
  have hb₂ := h₂.layout_eq ▸ hb₁
  obtain ⟨h₃, hentered⟩ := yields_icmp h₂.framed hb₂ hbool (h₀₂.exists_of hstart)
    (h₀₂.exists_of hbound) (p.base ++ ".vec.entered") .ult
  generalize addBefore f₂ _ _ _ _ = x at h₃ hentered ⊢
  obtain ⟨entered, f₃⟩ := x
  dsimp only at h₃ hentered ⊢
  have h₀₃ := h₀₂.trans h₃
  have hb₃ := h₃.layout_eq ▸ hb₂
  obtain ⟨h₄, hspan⟩ := yields_binary h₃.framed hb₃ hiv (h₀₃.exists_of hbound)
    (h₀₃.exists_of hstart) (p.base ++ ".vec.span") .sub
  generalize addBefore f₃ _ _ _ _ = x at h₄ hspan ⊢
  obtain ⟨span, f₄⟩ := x
  dsimp only at h₄ hspan ⊢
  have h₀₄ := h₀₃.trans h₄
  have hb₄ := h₄.layout_eq ▸ hb₃
  obtain ⟨h₅, htrip⟩ := yields_select h₄.framed hb₄ hiv hspan
    (((h₂.trans h₃).trans h₄).exists_of hzero) (p.base ++ ".vec.trip") (h₄.exists_of hentered)
  generalize addBefore f₄ _ _ _ _ = x at h₅ htrip ⊢
  obtain ⟨trip, f₅⟩ := x
  dsimp only at h₅ htrip ⊢
  have hb₅ := h₅.layout_eq ▸ hb₄
  obtain ⟨h₆, hrem⟩ := yields_binary h₅.framed hb₅ hiv htrip
    (((h₃.trans h₄).trans h₅).exists_of hw) (p.base ++ ".vec.rem") .urem
  generalize addBefore f₅ _ _ _ _ = x at h₆ hrem ⊢
  obtain ⟨rem, f₆⟩ := x
  dsimp only at h₆ hrem ⊢
  have hb₆ := h₆.layout_eq ▸ hb₅
  obtain ⟨h₇, hmain⟩ := yields_binary h₆.framed hb₆ hiv (h₆.exists_of htrip) hrem
    (p.base ++ ".vec.main") .sub
  generalize addBefore f₆ _ _ _ _ = x at h₇ hmain ⊢
  obtain ⟨main, f₇⟩ := x
  dsimp only at h₇ hmain ⊢
  have h₀₇ := ((h₀₄.trans h₅).trans h₆).trans h₇
  have hb₇ := h₇.layout_eq ▸ hb₆
  obtain ⟨h₈, hend⟩ := yields_binary h₇.framed hb₇ hiv (h₀₇.exists_of hstart) hmain
    (p.base ++ ".vec.end") .add
  exact ⟨h₀₇.trans h₈, hend⟩

/-- The end of the vector loop is there, and only the preheader has got code for it. -/
theorem yields_emitEnd (hf : f.Framed) (hb : p.loop.preheader ∈ f.layout)
    (hstart : f.Exists p.loop.start) (hbound : f.Exists p.loop.bound) (width : Int64) :
    Yields p.loop.preheader p.tys f (emitEnd f p width) := by
  rw [emitEnd]
  split
  · exact yields_addConstant hf hb (by simp [VectorPlan.tys]) _
  · exact yields_computeEnd hf hb hstart hbound width

end Vectorize

end LoopNest
