import LoopNest.Kernel.Relu
import LoopNest.Proofs.Builder.Draws
import LoopNest.Proofs.Kernel.Generated
import Mathlib

/-!
# The code of the rectified linear unit, written out

The generated function is the same up to the numbers of its types and to the casts of its operands.
A `Relu.Drawing` holds the numbers, and `Relu.Drawing.func` is the function.  The analyses of the
passes look at its graph and its instructions only, so they can be evaluated.

* Block 0 is the entry, with a cast for each operand that points to an array.
* Block 1 is the header of the loop, block 2 its body and block 3 its latch.
* Block 4 returns.

`Relu.exists_drawing` says that what is generated is drawn like that, and what its types are.
-/

namespace LoopNest

namespace Relu

/-- What the type table decides about the code: the numbers of types. -/
structure Drawing where
  name : String
  input : TyId
  output : TyId
  ret : TyId
  length : Int64
  zeroTy : TyId
  lengthTy : TyId
  zeroF32Ty : TyId
  oneTy : TyId
  enterTy : TyId
  ivTy : TyId
  testTy : TyId
  xAddrTy : TyId
  xTy : TyId
  positiveTy : TyId
  yTy : TyId
  yAddrTy : TyId
  storeTy : TyId
  leaveTy : TyId
  forkTy : TyId
  nextTy : TyId
  backTy : TyId
  retTy : TyId

/-! ## Casts -/

/-- The casts at the start, for the operands that point to arrays. -/
def casts (ti tq : Option TyId) : List Inst :=
  (ti.map fun t => (⟨.bitcast (.param 0), t, some "input.elems", some 0⟩ : Inst)).toList ++
    (tq.map fun t => (⟨.bitcast (.param 1), t, some "output.elems", some 0⟩ : Inst)).toList

/-- The pointer to the elements of the input. -/
def source (ti : Option TyId) : Operand := if ti.isSome then .inst 0 else .param 0

/-- The pointer to the elements of the output. -/
def target (ti tq : Option TyId) : Operand :=
  if tq.isSome then .inst (if ti.isSome then 1 else 0) else .param 1

namespace Drawing

variable (d : Drawing) (ti tq : Option TyId)

/-- The block of an instruction, if that block is kept. -/
def owner (live : Bool) (b : BlockId) : Option BlockId := if live then some b else none

/-- The instructions after `k` casts, in the order in which they are built.  The entry leads to a
block, the loop starts with an entry of its phi, and is kept or erased. -/
def code (k : Nat) (enter : BlockId) (start : Operand × BlockId) (live : Bool) : List Inst :=
  [⟨.br enter, d.enterTy, none, some 0⟩,
    ⟨.phi [start, (.inst (k + 11), 3)], d.ivTy, some "i.iv", owner live 1⟩,
    ⟨.icmp .ult (.inst (k + 1)) (.const 1), d.testTy, some "i.cond", owner live 1⟩,
    ⟨.gep (source ti) (.inst (k + 1)), d.xAddrTy, some "x.addr", owner live 2⟩,
    ⟨.load (.inst (k + 3)), d.xTy, some "x", owner live 2⟩,
    ⟨.fcmp .ogt (.inst (k + 4)) (.const 2), d.positiveTy, some "positive", owner live 2⟩,
    ⟨.select (.inst (k + 5)) (.inst (k + 4)) (.const 2), d.yTy, some "y", owner live 2⟩,
    ⟨.gep (target ti tq) (.inst (k + 1)), d.yAddrTy, some "y.addr", owner live 2⟩,
    ⟨.store (.inst (k + 6)) (.inst (k + 7)), d.storeTy, none, owner live 2⟩,
    ⟨.br 3, d.leaveTy, none, owner live 2⟩,
    ⟨.condBr (.inst (k + 2)) 2 4, d.forkTy, none, owner live 1⟩,
    ⟨.binary .add (.inst (k + 1)) (.const 3), d.nextTy, some "i.next", owner live 3⟩,
    ⟨.br 1, d.backTy, none, owner live 3⟩,
    ⟨.ret none, d.retTy, none, some 4⟩]

/-- The function. -/
def func : Func :=
  let k := (casts ti tq).length
  { name := d.name
    params := #[⟨"input", d.input, true⟩, ⟨"output", d.output, true⟩]
    ret := d.ret
    blocks := #[⟨"entry", List.range (k + 1), false⟩,
      ⟨"i.header", [k + 1, k + 2, k + 10], false⟩,
      ⟨"i.body", [k + 3, k + 4, k + 5, k + 6, k + 7, k + 8, k + 9], false⟩,
      ⟨"i.latch", [k + 11, k + 12], false⟩,
      ⟨"i.exit", [k + 13], false⟩]
    insts := (casts ti tq ++ d.code ti tq k 1 (.const 0, 0) true).toArray
    constants := #[⟨d.zeroTy, .int 0⟩, ⟨d.lengthTy, .int d.length⟩, ⟨d.zeroF32Ty, .f32 .zero⟩,
      ⟨d.oneTy, .int 1⟩]
    layout := [0, 1, 2, 3, 4] }

/-- The types that the machine and the passes look at have the right shapes. -/
structure Typed (tt : TypeTable) : Prop where
  zero : tt.shape d.zeroTy = .scalar .i64
  length : tt.shape d.lengthTy = .scalar .i64
  zeroF32 : tt.shape d.zeroF32Ty = .scalar .f32
  one : tt.shape d.oneTy = .scalar .i64
  iv : tt.shape d.ivTy = .scalar .i64
  xAddr : ∃ u, tt.shape d.xAddrTy = .pointer u ∧ tt.shape u = .scalar .f32
  x : tt.shape d.xTy = .scalar .f32
  positive : tt.shape d.positiveTy = .scalar .bool
  y : tt.shape d.yTy = .scalar .f32
  yAddr : ∃ u, tt.shape d.yAddrTy = .pointer u ∧ tt.shape u = .scalar .f32
  next : tt.shape d.nextTy = .scalar .i64

variable {d}

theorem Typed.extends {tt tt' : TypeTable} (h : d.Typed tt) (he : tt.Extends tt') :
    d.Typed tt' where
  zero := he.shape_eq h.zero (by simp)
  length := he.shape_eq h.length (by simp)
  zeroF32 := he.shape_eq h.zeroF32 (by simp)
  one := he.shape_eq h.one (by simp)
  iv := he.shape_eq h.iv (by simp)
  xAddr := h.xAddr.imp fun _ hu => ⟨he.shape_eq hu.1 (by simp), he.shape_eq hu.2 (by simp)⟩
  x := he.shape_eq h.x (by simp)
  positive := he.shape_eq h.positive (by simp)
  y := he.shape_eq h.y (by simp)
  yAddr := h.yAddr.imp fun _ hu => ⟨he.shape_eq hu.1 (by simp), he.shape_eq hu.2 (by simp)⟩
  next := he.shape_eq h.next (by simp)

end Drawing

/-! ## What the code draws -/

/-- The elements of an operand: the parameter itself, or a cast of it. -/
def withElements (f : Func) (here : BlockId) (name : String) (k : Nat) :
    Option TyId → Operand × Func
  | none => (.param k, f)
  | some t =>
    (.inst f.insts.size, (f.appendInst here ⟨.bitcast (.param k), t, some (name ++ ".elems")⟩).2)

/-- The parameter for an operand is known to point to numbers, unless it points to an array. -/
def Pointed (o : TensorOperand) (k : Nat) (Γ : Traits) : Prop :=
  o.length = none → ∃ t u, .ty (.param k) t ∈ Γ ∧ .shape t (.pointer u) ∈ Γ ∧
    .shape u (.scalar .f32) ∈ Γ

theorem Pointed.mono {o : TensorOperand} {k : Nat} {Γ Γ' : Traits} (h : Pointed o k Γ)
    (hsub : Γ ⊆ Γ') : Pointed o k Γ' := fun hlen => by
  obtain ⟨t, u, ht, hp, hu⟩ := h hlen
  exact ⟨t, u, hsub ht, hsub hp, hsub hu⟩

open Build (Draws)

theorem draws_elements {o : TensorOperand} {f : Func} {here : BlockId} {k : Nat} {Γ : Traits}
    {Q : Operand → Func → Traits → Prop} (ho : Pointed o k Γ)
    (hQ : ∀ cast t u, Q (withElements f here o.name k cast).1 (withElements f here o.name k cast).2
      (.ty (withElements f here o.name k cast).1 t :: .shape t (.pointer u) ::
        .shape u (.scalar .f32) :: Γ)) : (o.elements here k).Draws f Γ Q := by
  refine .forget (.bind (.param ?_))
  cases hlen : o.length with
  | none =>
    obtain ⟨t, u, ht, hp, hu⟩ := ho hlen
    exact .pure ⟨_, by simp [withElements, ht, hp, hu], hQ none t u⟩
  | some n =>
    refine .bind (.intern (by simp) fun u => .bind (.intern (by simp) fun t =>
      .bitcast fun t' => ⟨_, ?_, hQ (some t') t' u⟩))
    exact List.cons_subset_cons _ (List.cons_subset_cons _ fun e he => by simp [he])

/-- The code draws the function. -/
theorem draws_code {pl : Plan} (name : String) (void : TyId) {Γ : Traits}
    (hname : pl.input.name = "input") (hname' : pl.output.name = "output")
    (hin : Pointed pl.input 0 Γ) (hout : Pointed pl.output 1 Γ) :
    (code pl).Draws (.declare name #[pl.input.param, pl.output.param] void) Γ
      fun _ f Γ => ∃ (d : Drawing) (ti tq : Option TyId), f = d.func ti tq ∧
        d.length = .ofNat pl.length ∧ ∀ s : Site, s.HasAll Γ → d.Typed s.types := by
  have hout' : ∀ {e₁ e₂ e₃ : Trait}, Pointed pl.output 1 (e₁ :: e₂ :: e₃ :: Γ) :=
    hout.mono fun e he => by simp [he]
  refine .bind (.block (.bind (draws_elements hin fun ti s u =>
    .bind (draws_elements hout' fun tq s' u' => ?_))))
  refine .bind (.constant fun c₀ => .bind (.constant fun c₁ => .bind (.constant fun c₂ => ?_)))
  refine .bind (.bind (.bind (.boundScalar (.bind (.block (.bind (.block ?_)))))))
  refine .bind (.effect fun t₀ => .bind (.phi fun t₁ => .bind (.icmp fun t₂ => .pure ?_)))
  refine .bind (.bind (.gep fun t₃ => .bind (.load fun t₄ => .bind (.fcmp fun t₅ =>
    .bind (.select fun t₆ => .bind (.gep fun t₇ => .bind (.effect fun t₈ => .pure ?_)))))))
  refine .bind (.block (.bind (.block (.bind (.effect fun t₉ => .bind (.effect fun t₁₀ =>
    .bind (.constant fun c₃ => .bind (.binary fun t₁₁ => .bind (.addIncoming ?_)))))))))
  refine .bind (.effect fun t₁₂ => .pure (.effect fun t₁₃ => ?_))
  refine ⟨⟨name, pl.input.ty, pl.output.ty, void, .ofNat pl.length, c₀, c₁, c₂, c₃, t₀, t₁, t₂, t₃,
    t₄, t₅, t₆, t₇, t₈, t₉, t₁₀, t₁₁, t₁₂, t₁₃⟩, ti, tq, ?_, rfl, fun s hs => ?_⟩
  · unfold TensorOperand.param
    rw [hname, hname']
    cases ti <;> cases tq <;> cbv
  · exact {
      zero := hs.shape_eq c₀
      length := hs.shape_eq c₁
      zeroF32 := hs.shape_eq c₂
      one := hs.shape_eq c₃
      iv := hs.shape_eq t₁
      xAddr := ⟨u, hs.shape_eq t₃, hs.shape_eq u⟩
      x := hs.shape_eq t₄
      positive := hs.shape_eq t₅
      y := hs.shape_eq t₆
      yAddr := ⟨u', hs.shape_eq t₇, hs.shape_eq u'⟩
      next := hs.shape_eq t₁₁ }

/-! ## The generated function -/

theorem pointed_of_classify {p : Program} {what : String} {ty : TyId} {o : TensorOperand}
    {operands : List TensorOperand} (name : String) {k : Nat}
    (ho : TensorOperand.classify p.types what ty = .ok o) (hk : operands[k]? = some o) :
    o.name = what ∧ ∃ Γ, Pointed o k Γ ∧ (Kernel.blank p name operands).HasAll Γ := by
  obtain ⟨u, hu, ⟨hf, rfl⟩ | ⟨n, rfl⟩⟩ := TensorOperand.classify_eq_ok ho
  · have hext := p.types.extends_intern .void
    refine ⟨rfl, [.ty (.param k) ty, .shape ty (.pointer u), .shape u (.scalar .f32)],
      fun _ => ⟨ty, u, by simp, by simp, by simp⟩, .cons ?_ (.cons ?_ (.cons ?_ ?_))⟩
    · simp [Site.Has, Kernel.blank, Func.declare, Func.operandTy, hk, TensorOperand.param]
    · exact ⟨hext.shape_eq hu (by simp), by simp⟩
    · exact ⟨hext.shape_eq hf (by simp), by simp⟩
    · exact fun e he => by simp at he
  · exact ⟨rfl, [], fun hlen => by simp at hlen, fun e he => by simp at he⟩

theorem plan_eq_ok {tt : TypeTable} {input output : TyId} {length : Option Nat} {pl : Plan}
    (h : plan tt input output length = .ok pl) :
    TensorOperand.classify tt "input" input = .ok pl.input ∧
      TensorOperand.classify tt "output" output = .ok pl.output := by
  simp only [plan, bind_eq_ok_iff] at h
  obtain ⟨i, hi, o, ho, h⟩ := h
  split at h
  · cases h
  · simp only [bind_eq_ok_iff] at h
    obtain ⟨_, _, _, _, h⟩ := h
    cases h
    exact ⟨hi, ho⟩

/-- What is generated is a drawing. -/
theorem exists_drawing {p : Program} {input output : TyId} {length : Option Nat} {pl : Plan}
    {id : FuncId} (hpl : plan p.types input output length = .ok pl)
    (hid : (Kernel.relu p input output length).result = .ok id) :
    ∃ (d : Drawing) (ti tq : Option TyId),
      (Kernel.relu p input output length).program.func? id = some (d.func ti tq) ∧
      d.length = .ofNat pl.length ∧ d.Typed (Kernel.relu p input output length).program.types := by
  rw [Kernel.relu, hpl] at hid ⊢
  obtain ⟨s, name', hs, hf, htypes⟩ := Kernel.exists_of_generate hid
  obtain ⟨hi, ho⟩ := plan_eq_ok hpl
  obtain ⟨hname, Γ, hin, hΓ⟩ := pointed_of_classify "relu" hi
    (show [pl.input, pl.output][0]? = some pl.input from rfl)
  obtain ⟨hname', Γ', hout, hΓ'⟩ := pointed_of_classify "relu" ho
    (show [pl.input, pl.output][1]? = some pl.output from rfl)
  have hdraws := draws_code "relu" (p.types.intern .void).1 hname hname'
    (hin.mono (List.subset_append_left Γ Γ')) (hout.mono (List.subset_append_right Γ Γ'))
  have hall : (Kernel.blank p "relu" [pl.input, pl.output]).HasAll (Γ ++ Γ') := fun e he =>
    (List.mem_append.mp he).elim (hΓ e) (hΓ' e)
  obtain ⟨Γ'', ⟨d, ti, tq, hfunc, hlength, htyped⟩, hΓ''⟩ := hdraws.outcome rfl hall hs
  refine ⟨{ d with name := name' }, ti, tq, ?_, hlength, ?_⟩
  · rw [hf, hfunc]
    rfl
  · rw [htypes]
    exact { htyped s hΓ'' with }

end Relu

end LoopNest
