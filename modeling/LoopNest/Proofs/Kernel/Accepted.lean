import LoopNest.Proofs.Builder.Keeps
import LoopNest.Proofs.Kernel.Conv2d
import LoopNest.Proofs.Kernel.MaxPool2d
import LoopNest.Proofs.Kernel.ReluCode
import LoopNest.Proofs.Names

/-!
# Generation all or nothing

A kernel is generated as a whole or not at all (`Generated.Atomic`).  A new function comes behind
the old ones, under a name that none of them has, and the verifier accepts it.  The old types keep
their numbers and meanings.

That the verifier accepts it does not depend on the shape of the tensors: the code of each kernel
keeps to its scope (`Build.Keeps`), and such code is accepted under any name
(`Verify.checkFunc_rename`).
-/

namespace LoopNest

/-! ## Names -/

namespace Program

theorem isSome_funcNamed? {p : Program} {name : String} :
    (p.funcNamed? name).isSome = true ↔ ∃ g ∈ p.funcs, g.name = name := by
  rw [funcNamed?, Array.findIdx?_isSome]
  simp [Array.mem_iff_getElem]

/-- No function of a program has the name that a new one gets. -/
theorem freshFuncName_ne (p : Program) (base : String) {g : Func} (hg : g ∈ p.funcs) :
    g.name ≠ p.freshFuncName base := by
  intro heq
  have hlen : p.funcs.size = (p.funcs.toList.map Func.name).length := by simp
  have hfree : (p.funcNamed? (p.freshFuncName base)).isSome = false := by
    rw [freshFuncName, hlen]
    have hnames : ∀ n, (p.funcNamed? n).isSome = true → n ∈ p.funcs.toList.map Func.name := by
      intro n hn
      obtain ⟨h, hmem, hname⟩ := isSome_funcNamed?.mp hn
      exact List.mem_map.mpr ⟨h, Array.mem_toList_iff.mpr hmem, hname⟩
    exact taken_freshName hnames
  rw [isSome_funcNamed?.mpr ⟨g, hg, heq⟩] at hfree
  cases hfree

end Program

/-! ## A new name -/

namespace Verify

variable (tt : TypeTable) (f : Func) (name : String)

theorem checkSequence_rename (b : BlockId) (what : String) (last : InstId) :
    ∀ (seen : Bool) (is : List InstId), checkSequence { f with name := name } b what last seen is =
      checkSequence f b what last seen is
  | _, [] => rfl
  | seen, i :: is => by
    simp only [checkSequence, checkSequence_rename b what last _ is]
    rfl

theorem checkBlock_rename : checkBlock { f with name := name } = checkBlock f := by
  funext b
  simp only [checkBlock, checkSequence_rename]
  rfl

theorem checkInst_rename : checkInst tt { f with name := name } = checkInst tt f := by
  have hty : checkType tt { f with name := name } = checkType tt f := by
    funext what i
    have hop : Func.operandTy { f with name := name } = f.operandTy := rfl
    rw [checkType, Typing.resultTy_congr hop rfl]
    rfl
  funext g dom b i
  rw [checkInst, hty]
  rfl

/-- Verification does not look at the name. -/
theorem checkFunc_rename : checkFunc tt { f with name := name } = checkFunc tt f := by
  simp only [checkFunc, checkInst_rename, checkBlock_rename]
  rfl

end Verify

theorem Func.verify_rename {tt : TypeTable} {f : Func} (h : f.verify tt = .ok ()) (name : String) :
    Func.verify tt { f with name := name } = .ok () := by
  unfold Func.verify at h ⊢
  rw [Verify.checkFunc_rename]
  split at h
  · rfl
  · cases h

/-! ## Generation -/

/-- A kernel was generated as a whole or not at all. -/
inductive Generated.Atomic (g : Generated) (p : Program) : Prop where
  /-- No function was added. -/
  | failed (e : KernelError) (result_eq : g.result = .error e) (funcs_eq : g.program.funcs = p.funcs)
  /-- A function was added behind the others. -/
  | added (f : Func) (result_eq : g.result = .ok p.funcs.size)
      (funcs_eq : g.program.funcs = p.funcs.push f) (types : p.types.Extends g.program.types)
      (name_ne : ∀ h ∈ p.funcs, h.name ≠ f.name) (verified : f.verify g.program.types = .ok ())

namespace Kernel

variable {p : Program} {name : String} {operands : List TensorOperand} {code : Build Unit}
  {report : Func → String}

/-- The code of a kernel starts in order. -/
theorem fresh_blank (hdist : p.types.Distinct) (hclosed : p.types.Closed)
    (htys : ∀ o ∈ operands, o.ty < p.types.size) : (blank p name operands).Fresh := by
  have hext := p.types.extends_intern .void
  refine ⟨TypeTable.distinct_insert hdist _,
    TypeTable.closed_intern hclosed (by simp [Shape.components]), rfl,
    Func.forall_mem_tys.mpr ⟨TypeTable.lookup_lt (p.types.lookup_insert _), fun x hx => ?_, ?_, ?_⟩⟩
  · obtain ⟨o, ho, rfl⟩ : ∃ o ∈ operands, o.param = x := by
      simpa [blank, Func.declare] using hx
    exact Nat.lt_of_lt_of_le (htys o ho) hext.size_le
  · simp [blank, Func.declare]
  · simp [blank, Func.declare]

/-- Code in scope is generated as a whole or not at all. -/
theorem atomic_generate (hcode : Build.Makes code []) (hdist : p.types.Distinct)
    (hclosed : p.types.Closed) (htys : ∀ o ∈ operands, o.ty < p.types.size) :
    (generate p name operands code report).Atomic p := by
  cases hrun : code (blank p name operands) with
  | mk r s =>
    cases r with
    | error e =>
      rw [generate_of_error hrun]
      exact .failed _ rfl rfl
    | ok u =>
      rw [generate_of_ok hrun]
      have hfresh : (blank p name operands).Fresh := fresh_blank hdist hclosed htys
      have hwritten := hcode.written hrun
      have hΓ : Scope.Typed [] (blank p name operands) := fun t ht => by cases ht
      have hedits := hwritten.edits hfresh.built hΓ
      refine .added _ rfl rfl ((p.types.extends_intern .void).trans hedits.keepsTypes.types)
        (fun h hh => ?_) ?_
      · exact Program.freshFuncName_ne { p with types := s.types } s.func.name hh
      · exact Func.verify_rename (hwritten.verify hfresh hΓ fun i hi => by cases hi) _

theorem atomic_refuse (p : Program) (e : KernelError) : (refuse p e).Atomic p :=
  .failed e rfl rfl

end Kernel

/-! ## Operands and dimensions -/

namespace TensorOperand

theorem ty_lt_of_classify {tt : TypeTable} {name : String} {ty : TyId} {o : TensorOperand}
    (h : classify tt name ty = .ok o) : o.ty < tt.size := by
  obtain ⟨target, htarget, ho⟩ := classify_eq_ok h
  have hty : o.ty = ty := by
    rcases ho with ⟨_, rfl⟩ | ⟨n, rfl⟩ <;> rfl
  rw [hty]
  exact TypeTable.lt_size_of_shape (by rw [htarget]; nofun)

end TensorOperand

namespace Build.Keeps

variable {Γ : Scope} {here : BlockId} {Q : Operand → BlockId → Scope → Prop}

theorem elements {o : TensorOperand} {k : Nat} (hQ : ∀ v, Q v here (.operand v :: Γ)) :
    Keeps (o.elements here k) here Γ Q := by
  refine .forget (.bind (.param fun v => ?_))
  cases ho : o.length with
  | none => exact .pure ⟨_, List.Subset.refl _, hQ v⟩
  | some n =>
    refine .bind (.intern (by simp [Shape.components]) fun t =>
      .bind (.intern (by simp [Shape.components]) fun u => .bitcast fun w => ?_))
    exact ⟨_, List.cons_subset_cons _ fun e he => by simp [he], hQ w⟩

theorem dims {d : Dims} {Q : Operand × Operand → BlockId → Scope → Prop}
    (hQ : ∀ v, Q v here (.operand v.2 :: .operand v.1 :: Γ)) : Keeps (Build.dims d) here Γ Q :=
  .bind (.constant fun h => .bind (.constant fun w => .pure (hQ (h, w))))

end Build.Keeps

/-! ## Code -/

theorem Relu.written_code (pl : Plan) : Build.Makes (code pl) [] := by
  refine .block fun entry => .bind (.elements fun src => .bind (.elements fun dst =>
    .bind (.constant fun zero => .bind (.constant fun n => .bind (.constant fun zeroF => ?_)))))
  refine .bind (.loop (fun body i => ?_) fun l => .ret)
  exact .bind (.gep fun px => .bind (.load fun x => .bind (.fcmp fun positive =>
    .bind (.select fun y => .bind (.gep fun py => .bind (.store (.pure rfl)))))))

namespace MaxPool2d

variable {Γ : Scope} {here : BlockId} {k : Constants} {src slot dst oy ox ky kx : Operand}
  {Q : Unit → BlockId → Scope → Prop}

theorem keeps_tap [Γ.Has (.operand k.stride.1)] [Γ.Has (.operand k.stride.2)]
    [Γ.Has (.operand k.inputWidth)] [Γ.Has (.operand src)] [Γ.Has (.operand slot)]
    [Γ.Has (.operand oy)] [Γ.Has (.operand ox)] [Γ.Has (.operand ky)] [Γ.Has (.operand kx)]
    (hQ : ∀ Γ, Q () here Γ) : Build.Keeps (tap k here src slot oy ox ky kx) here Γ Q := by
  refine .bind (.binary fun oyS => .bind (.binary fun iy => .bind (.binary fun oxS =>
    .bind (.binary fun ix => .bind (.binary fun row => .bind (.binary fun idx => ?_))))))
  exact .bind (.gep fun ptr => .bind (.load fun x => .bind (.load fun cur =>
    .bind (.fcmp fun greater => .bind (.select fun next => .store (hQ _))))))

theorem keeps_writeCell [Γ.Has (.operand k.out.2)] [Γ.Has (.operand dst)] [Γ.Has (.operand slot)]
    [Γ.Has (.operand oy)] [Γ.Has (.operand ox)] (hQ : ∀ Γ, Q () here Γ) :
    Build.Keeps (writeCell k here dst slot oy ox) here Γ Q := by
  exact .bind (.load fun result => .bind (.binary fun row => .bind (.binary fun cell =>
    .bind (.gep fun ptr => .store (hQ _)))))

theorem keeps_constants {pl : Plan} {Q : Constants → BlockId → Scope → Prop}
    (hQ : ∀ k, Q k here (.operand k.negInf :: .operand k.out.2 :: .operand k.out.1 ::
      .operand k.stride.2 :: .operand k.stride.1 :: .operand k.kernel.2 :: .operand k.kernel.1 ::
      .operand k.inputWidth :: .operand k.zero :: Γ)) : Build.Keeps (constants pl) here Γ Q :=
  .bind (.constant fun zero => .bind (.constant fun iw => .bind (.dims fun kernel =>
    .bind (.dims fun stride => .bind (.dims fun out => .bind (.constant fun negInf =>
      .pure (hQ ⟨zero, iw, kernel, stride, out, negInf⟩)))))))

theorem written_code (pl : Plan) : Build.Makes (code pl) [] := by
  refine .internScalar (by decide) fun f32 => .block fun entry => .bind (.elements
    fun src => .bind (.elements fun dst => .bind (.alloca fun slot =>
      .bind (keeps_constants fun k => ?_))))
  refine .bind (.loop (fun body₁ oy => ?_) fun l => .ret)
  refine .bind (.loop (fun body₂ ox => ?_) fun l => .pure rfl)
  refine .bind (.store (.bind (.loop (fun body₃ ky => ?_) fun l =>
    .bind (keeps_writeCell fun Γ => .pure rfl))))
  refine .bind (.loop (fun body₄ kx => ?_) fun l => .pure rfl)
  exact .bind (keeps_tap fun Γ => .pure rfl)

end MaxPool2d

namespace Conv2d

variable {Γ : Scope} {here : BlockId} {k : Constants}
  {src wts dst oy ox ky kx iy ix cell : Operand}

section

variable {Q : Operand → BlockId → Scope → Prop} [Γ.Has (.operand k.input.2)] [Γ.Has (.operand src)]
  [Γ.Has (.operand iy)] [Γ.Has (.operand ix)]

/-- The input is read with padding or without. -/
theorem keeps_load {padded : Bool} [Γ.Has (.operand k.padding.1)] [Γ.Has (.operand k.padding.2)]
    [Γ.Has (.operand k.input.1)] [Γ.Has (.operand k.zero)] [Γ.Has (.operand k.zeroF)]
    (hQ : ∀ v, Q v here (.operand v :: Γ)) :
    Build.Keeps (if padded then loadPadded k here src iy ix else loadPlain k here src iy ix)
      here Γ Q := by
  refine .forget ?_
  cases padded
  · refine .bind (.binary fun row => .bind (.binary fun idx => .bind (.gep fun ptr =>
      .load fun v => ⟨_, ?_, hQ v⟩)))
    exact List.cons_subset_cons _ fun e he => by simp [he]
  · refine .bind (.binary fun y => .bind (.binary fun x => .bind (.icmp fun yIn =>
      .bind (.icmp fun xIn => .bind (.binary fun inside => .bind (.binary fun row =>
        .bind (.binary fun idx => .bind (.select fun safe => .bind (.gep fun ptr =>
          .bind (.load fun raw => .select fun v => ⟨_, ?_, hQ v⟩))))))))))
    exact List.cons_subset_cons _ fun e he => by simp [he]

end

theorem keeps_tap {padded : Bool} {Q : Unit → BlockId → Scope → Prop}
    [Γ.Has (.operand k.stride.1)] [Γ.Has (.operand k.stride.2)] [Γ.Has (.operand k.input.1)]
    [Γ.Has (.operand k.input.2)] [Γ.Has (.operand k.padding.1)] [Γ.Has (.operand k.padding.2)]
    [Γ.Has (.operand k.kernel.2)] [Γ.Has (.operand k.zero)] [Γ.Has (.operand k.zeroF)]
    [Γ.Has (.operand src)] [Γ.Has (.operand wts)] [Γ.Has (.operand dst)] [Γ.Has (.operand oy)]
    [Γ.Has (.operand ox)] [Γ.Has (.operand ky)] [Γ.Has (.operand kx)] [Γ.Has (.operand cell)]
    (hQ : ∀ Γ, Q () here Γ) :
    Build.Keeps (tap k padded here src wts dst oy ox ky kx cell) here Γ Q := by
  refine .bind (.binary fun oyS => .bind (.binary fun iy => .bind (.binary fun oxS =>
    .bind (.binary fun ix => .ite_bind (keeps_load fun x => ?_)))))
  exact .bind (.binary fun wRow => .bind (.binary fun wIdx => .bind (.gep fun wPtr =>
    .bind (.load fun w => .bind (.binary fun prod => .bind (.gep fun accPtr =>
      .bind (.load fun acc => .bind (.binary fun sum => .store (hQ _)))))))))

theorem keeps_constants {pl : Plan} {Q : Constants → BlockId → Scope → Prop}
    (hQ : ∀ k, Q k here (.operand k.zeroF :: .operand k.out.2 :: .operand k.out.1 ::
      .operand k.padding.2 :: .operand k.padding.1 :: .operand k.stride.2 :: .operand k.stride.1 ::
      .operand k.kernel.2 :: .operand k.kernel.1 :: .operand k.input.2 :: .operand k.input.1 ::
      .operand k.zero :: Γ)) : Build.Keeps (constants pl) here Γ Q :=
  .bind (.constant fun zero => .bind (.dims fun input => .bind (.dims fun kernel =>
    .bind (.dims fun stride => .bind (.dims fun padding => .bind (.dims fun out =>
      .bind (.constant fun zeroF =>
        .pure (hQ ⟨zero, input, kernel, stride, padding, out, zeroF⟩))))))))

theorem written_code (pl : Plan) : Build.Makes (code pl) [] := by
  refine .block fun entry => .bind (.elements fun src => .bind (.elements fun wts =>
    .bind (.elements fun dst => .bind (keeps_constants fun k => ?_))))
  refine .bind (.loop (fun body₁ oy => ?_) fun l => .ret)
  refine .bind (.loop (fun body₂ ox => ?_) fun l => .pure rfl)
  refine .bind (.binary fun row => .bind (.binary fun cell => .bind (.gep fun outPtr =>
    .bind (.store (.bind (.loop (fun body₃ ky => ?_) fun l => .pure rfl))))))
  refine .bind (.loop (fun body₄ kx => ?_) fun l => .pure rfl)
  exact .bind (keeps_tap fun Γ => .pure rfl)

end Conv2d

/-! ## Kernels -/

namespace Kernel

variable {p : Program}

/-- For all operands and parameters, each kernel is generated as a whole or not at all. -/
theorem generation_atomic (hdist : p.types.Distinct) (hclosed : p.types.Closed) :
    (∀ input output length, (relu p input output length).Atomic p) ∧
    (∀ input output c, (maxPool2d p input output c).Atomic p) ∧
    ∀ input weight output c, (conv2d p input weight output c).Atomic p := by
  refine ⟨fun input output length => ?_, fun input output c => ?_, fun input weight output c => ?_⟩
  · unfold relu
    cases hpl : Relu.plan p.types input output length with
    | error e => exact atomic_refuse p e
    | ok pl =>
      obtain ⟨hin, hout⟩ := Relu.plan_eq_ok hpl
      refine atomic_generate (Relu.written_code pl) hdist hclosed ?_
      simpa using ⟨TensorOperand.ty_lt_of_classify hin, TensorOperand.ty_lt_of_classify hout⟩
  · unfold maxPool2d
    cases hpl : c.plan p.types input output with
    | error e => exact atomic_refuse p e
    | ok pl =>
      obtain ⟨-, -, hin, hout, -⟩ := MaxPool2d.plan_eq_ok hpl
      refine atomic_generate (MaxPool2d.written_code pl) hdist hclosed ?_
      simpa using ⟨TensorOperand.ty_lt_of_classify hin, TensorOperand.ty_lt_of_classify hout⟩
  · unfold conv2d
    cases hpl : c.plan p.types input weight output with
    | error e => exact atomic_refuse p e
    | ok pl =>
      obtain ⟨-, hin, hweight, hout, -⟩ := Conv2d.plan_eq_ok hpl
      refine atomic_generate (Conv2d.written_code pl) hdist hclosed ?_
      simpa using ⟨TensorOperand.ty_lt_of_classify hin, TensorOperand.ty_lt_of_classify hweight,
        TensorOperand.ty_lt_of_classify hout⟩

/-- A program with a function `relu`. -/
def rectified : Program := (relu pointers 1 1 (some 4)).program

/-- A second rectified linear unit gets another name.  Without a length there is none. -/
theorem generation_atomic_rectified :
    rectified.types.Distinct ∧ rectified.types.Closed ∧
    (relu rectified 1 1 none).result = .error .missingLength ∧
    (relu rectified 1 1 (some 3)).result = .ok 1 ∧
    ((relu rectified 1 1 (some 3)).program.func? 1).map Func.name = some "relu.1" ∧
    (maxPool2d rectified 1 1 ⟨⟨3, 3⟩, ⟨2, 2⟩, ⟨2, 1⟩⟩).result = .ok 1 ∧
    (conv2d rectified 1 1 1 ⟨⟨2, 2⟩, ⟨2, 1⟩, ⟨2, 1⟩, ⟨1, 0⟩⟩).result = .ok 1 ∧
    (∀ input output length, (relu rectified input output length).Atomic rectified) ∧
    (∀ input output c, (maxPool2d rectified input output c).Atomic rectified) ∧
    ∀ input weight output c, (conv2d rectified input weight output c).Atomic rectified := by
  have hdist : rectified.types.Distinct := by decide +kernel
  have hclosed : rectified.types.Closed := by decide +kernel
  exact ⟨hdist, hclosed, by decide +kernel, by decide +kernel, by decide +kernel, by decide +kernel,
    by decide +kernel, generation_atomic hdist hclosed⟩

end Kernel

end LoopNest
