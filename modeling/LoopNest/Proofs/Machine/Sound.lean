import LoopNest.Proofs.Func.Insert
import LoopNest.Proofs.Func.Known
import LoopNest.Proofs.Machine.Typed
import Mathlib

/-!
# Type soundness

A frame is *typed* when its arguments, its constants and the results recorded so far have their
types.  An operand of a typed frame has a value of its type or none at all
(`Frame.Typed.eval_yields`), so every step records data of the right types
(`Machine.Advances.sound`).  In a run in which no value is undefined every operand has a value,
and the run ends in no malformation (`Program.run_sound`).

Nor does the machine get stuck, if scalars have usual widths and sizes fit
(`Func.stuckAt_eq_false`).
-/

namespace LoopNest

/-! ## Frames -/

/-- The datum that a literal stands for, before it is fitted into its type. -/
def Literal.raw : Literal → Datum
  | .bool b => .bool b
  | .int v => .int v
  | .f32 x => .f32 x

/-- Every constant has a scalar type of the kind of its literal. -/
def Func.LiteralsTyped (tt : TypeTable) (f : Func) : Prop :=
  ∀ k ∈ f.constants, k.literal.raw.OfType tt k.ty

/-- The arguments have the types of the parameters. -/
def Func.ArgsTyped (tt : TypeTable) (f : Func) (args : List Datum) : Prop :=
  List.Forall₂ (fun q d => Datum.OfType tt q.ty d) f.params.toList args

instance (tt : TypeTable) (f : Func) : Decidable (f.LiteralsTyped tt) := by
  unfold Func.LiteralsTyped
  infer_instance

/-- Integers take one to eight bytes, floats four or eight, and truth values one. -/
def Scalar.isUsual (s : Scalar) : Bool :=
  match s.kind with
  | .bool => s.width = 1
  | .float => s.width = 4 || s.width = 8
  | _ => 1 ≤ s.width && s.width ≤ 8

/-- All scalars of the function are as usual. -/
def Func.UsualScalars (tt : TypeTable) (f : Func) : Prop :=
  ∀ t ∈ f.tys, ∀ s ∈ tt.elementScalar? t, s.isUsual = true

/-- The sizes that a function asks for can be counted and had. -/
def Func.SizesFit (tt : TypeTable) (f : Func) : Prop := ∀ i ∈ f.liveInsts, f.sizesFit tt i = true

instance (tt : TypeTable) (f : Func) : Decidable (f.UsualScalars tt) := by
  unfold Func.UsualScalars
  infer_instance

instance (tt : TypeTable) (f : Func) : Decidable (f.SizesFit tt) := by
  unfold Func.SizesFit
  infer_instance

/-- What the typing of a run rests on. -/
structure Func.Typable (tt : TypeTable) (f : Func) : Prop where
  /-- Values come from where the function says. -/
  wellFormed : f.WellFormed
  /-- Instructions pass the type check. -/
  wellTyped : f.WellTyped tt
  /-- No other function is called. -/
  callFree : f.CallFree
  /-- Constants are of their types. -/
  literals : f.LiteralsTyped tt

/-- A frame that holds nothing but data of the right types. -/
structure Frame.Typed (tt : TypeTable) (fr : Frame) : Prop where
  /-- The function is typed. -/
  func_ok : fr.func.Typable tt
  /-- So are the arguments. -/
  args : fr.func.ArgsTyped tt fr.args
  /-- There is room for all results. -/
  size_eq : fr.results.size = fr.func.insts.size
  /-- Every result has the type of its instruction. -/
  results : ∀ i d, fr.values i = some d → d.OfType tt (fr.func.inst i).ty

/-- A frame on its way through a block. -/
structure Frame.Sound (tt : TypeTable) (fr : Frame) : Prop extends fr.Typed tt where
  /-- The block is live. -/
  live : fr.block ∈ fr.func.layout
  /-- The instructions to come are instructions of the block. -/
  rest_sub : ∀ i ∈ fr.rest, i ∈ fr.func.afterPhis fr.block

/-! ## Instructions that do not get stuck -/

theorem Scalar.isUsual_iff {s : Scalar} : s.isUsual = true ↔
    match s.kind with
    | .bool => s.width = 1
    | .float => s.width = 4 ∨ s.width = 8
    | _ => 1 ≤ s.width ∧ s.width ≤ 8 := by
  unfold isUsual
  split <;> simp

theorem Scalar.canNormalize_of_isUsual {s : Scalar} (h : s.isUsual = true) :
    s.canNormalize = true := by
  have h' := isUsual_iff.mp h
  cases hk : s.kind with
  | sint =>
    simp only [hk] at h'
    simpa [canNormalize] using .inr h'.1
  | _ => simp [canNormalize, hk]

theorem Scalar.canLoad_of_isUsual {s : Scalar} (h : s.isUsual = true) : s.canLoad = true := by
  have h' := isUsual_iff.mp h
  have hn := canNormalize_of_isUsual h
  cases hk : s.kind with
  | bool =>
    simp only [hk] at h'
    simp [canLoad, hk, h']
  | float =>
    simp only [hk] at h'
    simp only [canLoad, hk, decide_eq_true_eq]
    omega
  | sint | uint =>
    simp only [hk] at h'
    simp [canLoad, hk, hn, h'.2]

theorem Scalar.canStore_of_isUsual {s : Scalar} (h : s.isUsual = true) : s.canStore = true := by
  have h' := isUsual_iff.mp h
  unfold canStore isInteger
  cases hk : s.kind with
  | bool | float => rfl
  | sint | uint =>
    simp only [hk] at h'
    simpa using h'.2

/-- What holds of usual scalars holds of those of the function. -/
theorem Func.UsualScalars.all {tt : TypeTable} {f : Func} (h : f.UsualScalars tt)
    {P : Scalar → Bool} (hP : ∀ {s : Scalar}, s.isUsual = true → P s = true) {t : TyId}
    (ht : t ∈ f.tys) : (tt.elementScalar? t).all P = true := by
  cases hs : tt.elementScalar? t with
  | none => rfl
  | some s => exact hP (h t ht s hs)

/-- With usual scalars and sizes that fit, no instruction of the function gets the machine stuck. -/
theorem Func.stuckAt_eq_false {tt : TypeTable} {f : Func} (hf : f.WellFormed)
    (hscalars : f.UsualScalars tt) (hsizes : f.SizesFit tt) {b : BlockId} (hb : b ∈ f.layout)
    {i : InstId} (hi : i ∈ f.body b) : f.stuckAt tt i = false := by
  have hty : (f.inst i).ty ∈ f.tys :=
    ((forall_mem_tys.mp fun _ ht => ht).2.2.2 i (hf.inst_lt hb hi)).1
  have hoperand {v : Operand} (hv : v ∈ (f.op i).operands) : f.tyOf v ∈ f.tys :=
    Exists.tyOf_mem (operandTy_of_exists (hf.operand_exists b hb i hi v hv))
  have hoperands : (f.op i).operands.all (f.canEval tt) = true := by
    refine List.all_eq_true.mpr fun v _ => ?_
    unfold canEval
    split
    · split
      · rename_i hk
        exact hscalars.all Scalar.canNormalize_of_isUsual
          ((forall_mem_tys.mp fun _ ht => ht).2.2.1 _ (Array.mem_of_getElem? hk))
      · rfl
    · rfl
  have hwidths : f.scalarsFit tt i = true := by
    unfold scalarsFit
    split
    · exact hscalars.all Scalar.canLoad_of_isUsual hty
    · rename_i hop
      exact hscalars.all Scalar.canStore_of_isUsual (hoperand (by simp [hop, Op.operands]))
    · exact hscalars.all Scalar.canNormalize_of_isUsual hty
    · rename_i hop
      exact hscalars.all Scalar.canNormalize_of_isUsual (hoperand (by simp [hop, Op.operands]))
    · rfl
  rw [stuckAt, hoperands, hsizes i (List.mem_flatMap.mpr ⟨b, hb, hi⟩), hwidths]
  rfl

/-! ## Values -/

/-- A constant of its type has a value of its type. -/
theorem Func.LiteralsTyped.eval {tt : TypeTable} {fr : Frame} (h : fr.func.LiteralsTyped tt)
    {c : ConstId} {t : TyId} (ht : fr.func.operandTy (.const c) = .ok t) :
    ∃ d, fr.eval tt (.const c) = .ok d ∧ d.OfType tt t := by
  unfold Func.operandTy at ht
  cases hk : fr.func.constants[c]? with
  | none =>
    simp only [hk] at ht
    cases ht
  | some k =>
    simp only [hk] at ht
    cases ht
    have hd := h k (Array.mem_of_getElem? hk)
    obtain ⟨t, l⟩ := k
    cases l with
    | bool b => exact ⟨.bool b, by simp only [Frame.eval, hk], hd⟩
    | f32 x => exact ⟨.f32 x, by simp only [Frame.eval, hk], hd⟩
    | int v =>
      simp only [Literal.raw, Datum.OfType] at hd
      cases hs : tt.shape t with
      | scalar s =>
        rw [hs] at hd
        refine ⟨.int (s.normalize v), ?_, (Datum.ofType_iff hs).mpr hd⟩
        simp only [Frame.eval, hk, TypeTable.elementScalar_of_scalar hs]
      | _ =>
        rw [hs] at hd
        exact hd.elim

/-- The argument for a parameter has its type. -/
theorem Func.ArgsTyped.eval {tt : TypeTable} {fr : Frame} (h : fr.func.ArgsTyped tt fr.args)
    {k : Nat} {t : TyId} (ht : fr.func.operandTy (.param k) = .ok t) :
    ∃ d, fr.eval tt (.param k) = .ok d ∧ d.OfType tt t := by
  unfold Func.operandTy at ht
  cases hq : fr.func.params[k]? with
  | none =>
    simp only [hq] at ht
    cases ht
  | some q =>
    simp only [hq] at ht
    cases ht
    have hk : k < fr.func.params.toList.length := by
      simpa using (Array.getElem?_eq_some_iff.mp hq).1
    have hk' : k < fr.args.length := h.length_eq ▸ hk
    refine ⟨fr.args[k], by simp only [Frame.eval, List.getElem?_eq_getElem hk'], ?_⟩
    have hd := h.get hk hk'
    rwa [List.get_eq_getElem, Array.getElem_toList, (Array.getElem?_eq_some_iff.mp hq).2] at hd

namespace Frame

variable {tt : TypeTable} {fr fr' : Frame} {i : InstId} {rest : List InstId}

/-- An operand has a value of its type, or none at all. -/
theorem Typed.eval_yields (h : fr.Typed tt) {v : Operand} {t : TyId}
    (ht : fr.func.operandTy v = .ok t) :
    Yields (fun e => e.ofFlow = true) (Datum.OfType tt t) (fr.eval tt v) := by
  cases v with
  | inst i =>
    cases he : fr.eval tt (.inst i) with
    | ok d =>
      have hd := h.results i d (Frame.eval_eq_ok.mp he)
      rw [← Func.tyOf_inst, Typing.tyOf_of_operandTy ht] at hd
      exact .of_ok hd
    | error e =>
      refine .of_error ?_
      simp only [Frame.eval] at he
      split at he
      · cases he
      · cases he
        rfl
  | param k =>
    obtain ⟨d, hd, hty⟩ := h.args.eval ht
    rw [hd]
    exact .of_ok hty
  | const c =>
    obtain ⟨d, hd, hty⟩ := h.func_ok.literals.eval ht
    rw [hd]
    exact .of_ok hty

theorem Sound.mem_body (h : fr.Sound tt) (hrest : fr.rest = i :: rest) :
    i ∈ fr.func.body fr.block :=
  Func.mem_body_of_afterPhis (h.rest_sub i (hrest ▸ List.mem_cons_self))

/-- The next instruction gives a datum of its type.  What else can happen depends on its
operands. -/
theorem Sound.compute (h : fr.Sound tt) (hrest : fr.rest = i :: rest)
    (hplain : (fr.func.op i).isPlain = true) {ok : Fault → Prop}
    (hok : ∀ e : Fault, e.ofRun = true → ok e)
    (hval : ∀ v ∈ (fr.func.op i).operands, FailsIn ok (fr.eval tt v)) :
    Access.Yields ok (Datum.OfType tt (fr.func.inst i).ty)
      (fr.past.compute tt (fr.func.inst i)) := by
  obtain ⟨ty, hty, hl⟩ := h.func_ok.wellTyped fr.block h.live i (h.mem_body hrest)
  refine Frame.compute_yields hok hty hl hplain ?_ fun v hv t ht => ?_
  · exact h.func_ok.wellFormed.phi_first fr.block h.live i
      (h.rest_sub i (hrest ▸ List.mem_cons_self))
  · rw [eval_past]
    exact ⟨(h.eval_yields ht).result, hval v hv⟩

/-- Recording a datum of the right type. -/
theorem Sound.record (h : fr.Sound tt) (hrest : fr.rest = i :: rest) {d : Datum}
    (hd : d.OfType tt (fr.func.inst i).ty) : (fr.past.record i d).Sound tt := by
  have hlt : i < fr.past.results.size := by
    change i < fr.results.size
    rw [h.size_eq]
    exact h.func_ok.wellFormed.inst_lt h.live (h.mem_body hrest)
  refine ⟨⟨h.func_ok, h.args, (size_record _ i d).trans h.size_eq, fun j e he => ?_⟩, h.live,
    fun j hj => ?_⟩
  · rw [values_record hlt, values_past] at he
    by_cases hji : j = i
    · subst hji
      rw [Values.set_self] at he
      cases he
      exact hd
    · rw [Values.set_of_ne hji] at he
      exact h.results j e he
  · rw [rest_record, rest_past hrest] at hj
    exact h.rest_sub j (hrest ▸ List.mem_cons_of_mem i hj)

/-- Entering a block.  Each phi takes a value of its own type. -/
theorem Typed.enter (h : fr.Typed tt) {c : BlockId} (hc : c ∈ fr.func.layout)
    {source : Option BlockId} {limit steps n : Nat} (hle : steps ≤ limit)
    (he : fr.enter tt limit source c steps = (.ok fr', n)) : fr'.Sound tt := by
  have hphis : ∀ j ∈ fr.func.phis c, j < fr.func.insts.size := fun j hj =>
    h.func_ok.wellFormed.inst_lt hc (Func.mem_body_of_phis hj)
  obtain ⟨_, _, _, hat⟩ := (at_self fr h.size_eq).of_enter hphis hle he
  refine ⟨⟨hat.func_eq ▸ h.func_ok, ?_, ?_, fun j d hj => ?_⟩, ?_, ?_⟩
  · rw [hat.func_eq, hat.args_eq]
    exact h.args
  · rw [hat.size_eq, hat.func_eq]
  · rw [hat.func_eq]
    rw [hat.values_eq] at hj
    unfold entered at hj
    split at hj
    · rename_i hphi
      obtain ⟨v, hv, hd⟩ := Option.bind_eq_some_iff.mp hj
      obtain ⟨_, -, hin⟩ := Option.bind_eq_some_iff.mp hv
      obtain ⟨incoming, hop, hmem⟩ := Func.mem_of_incoming? hin
      obtain ⟨ty, hty, -⟩ := h.func_ok.wellTyped c hc j (Func.mem_body_of_phis hphi)
      rw [hop] at hty
      have ht := (Typing.resultTy_phi.mp hty).1 v (List.mem_map.mpr ⟨_, hmem, rfl⟩)
      exact (h.eval_yields ht).result d (Frame.eval_eq_ok.mpr hd)
    · exact h.results j d hj
  · rw [hat.func_eq, hat.block_eq]
    exact hc
  · rw [hat.rest_eq, hat.func_eq, hat.block_eq]
    exact fun _ hi => hi

/-- Going along an edge. -/
theorem Sound.jump (h : fr.Sound tt) (hrest : fr.rest = i :: rest) {c : BlockId}
    (hc : c ∈ (fr.func.op i).targets) {limit steps n : Nat} (hle : steps ≤ limit)
    (he : fr.past.enter tt limit (some fr.block) c steps = (.ok fr', n)) : fr'.Sound tt := by
  have hf := h.func_ok.wellFormed
  have hterm := hf.terminator_eq fr.block h.live i (h.mem_body hrest)
    (Op.isTerminator_of_mem_targets hc)
  have hlive := hf.successor_live fr.block h.live c ((Func.mem_successors_iff hterm).mpr hc)
  have htyped : fr.past.Typed tt := ⟨h.func_ok, h.args, h.size_eq, h.results⟩
  exact htyped.enter hlive hle he

/-- An activation holds no results yet. -/
theorem typed_activate {f : Func} (hf : f.Typable tt) {args : List Datum}
    (hargs : f.ArgsTyped tt args) : (activate f args).Typed tt := by
  have hat := at_activate f args
  refine ⟨hf, hargs, hat.size_eq, fun i d h => ?_⟩
  rw [hat.values_eq] at h
  cases h

/-- A terminator leads somewhere when its operands have values. -/
theorem Sound.exists_leaves (h : fr.Sound tt) (hrest : fr.rest = i :: rest)
    (hterm : (fr.func.op i).isTerminator = true)
    (hval : ∀ v ∈ (fr.func.op i).operands, ∃ d, fr.eval tt v = .ok d) :
    ∃ x, Leaves (fr.value tt) (fr.func.op i) x ∧ ∀ d, x = .ret d → d.OfType tt fr.func.ret := by
  obtain ⟨ty, hty, -⟩ := h.func_ok.wellTyped fr.block h.live i (h.mem_body hrest)
  cases hop : fr.func.op i with
  | br t => exact ⟨_, .br, fun _ heq => by cases heq⟩
  | condBr c t e =>
    rw [hop] at hty hval
    obtain ⟨ct, hc, hct, _⟩ := Typing.resultTy_condBr.mp hty
    obtain ⟨d, hd⟩ := hval c (by simp [Op.operands])
    have hbool := (Datum.ofType_iff hct).mp ((h.eval_yields hc).result d hd)
    obtain ⟨b, rfl⟩ := Datum.OfScalar.exists_bool hbool rfl
    exact ⟨_, .condBr (Frame.eval_eq_ok.mp hd), fun _ heq => by cases heq⟩
  | ret v =>
    cases v with
    | none =>
      rw [hop] at hty
      refine ⟨_, .retVoid, ?_⟩
      rintro _ ⟨⟩
      unfold Typing.resultTy at hty
      cases hs : tt.shape fr.func.ret with
      | void => exact (Datum.ofType_iff hs).mpr trivial
      | _ =>
        simp only [TypeTable.isVoid, hs] at hty
        cases hty
    | some v =>
      rw [hop] at hty hval
      have hv := (Typing.resultTy_ret.mp hty).1
      obtain ⟨d, hd⟩ := hval v (by simp [Op.operands])
      refine ⟨_, .ret (Frame.eval_eq_ok.mp hd), ?_⟩
      rintro _ ⟨⟩
      exact (h.eval_yields hv).result d hd
  | _ =>
    rw [hop] at hterm
    cases hterm

end Frame

/-- Why a block cannot be entered: for want of steps, of an entry for the edge, or of a value. -/
theorem phiValues_failsIn {tt : TypeTable} {fr : Frame} {ok : Fault → Prop} {limit : Nat}
    (hlimit : ok (.stepLimit limit)) {name : String} (hnone : ok (.malformed (.noIncoming name)))
    {source : Option BlockId} : ∀ (is : List InstId) (steps : Nat),
    (∀ i ∈ is, ∀ v, source.bind (fr.func.incoming? i) = some v → FailsIn ok (fr.eval tt v)) →
    FailsIn ok (fr.phiValues tt limit source name is steps).1
  | [], _, _ => .of_ok _
  | i :: is, steps, hval => by
    have ih := phiValues_failsIn hlimit hnone is (steps + 1) fun j hj =>
      hval j (List.mem_cons_of_mem i hj)
    have hi := hval i List.mem_cons_self
    rw [Frame.phiValues]
    split
    · exact .of_error hlimit
    · split
      · exact .of_error hnone
      · rename_i v hv
        split
        · rename_i e he
          exact .of_error (hi v hv e he)
        · split
          · exact .of_ok _
          · rename_i e n heq
            rw [heq] at ih
            exact .of_error (ih e rfl)

/-- A block is entered along an edge unless the steps run out or a value is missing. -/
theorem Frame.Sound.enter_failsIn {tt : TypeTable} {fr : Frame} {i : InstId} {rest : List InstId}
    (h : fr.Sound tt) (hrest : fr.rest = i :: rest) {c : BlockId}
    (hc : c ∈ (fr.func.op i).targets) (limit steps : Nat) :
    FailsIn (fun e => e.ofRun = true ∨ e.ofFlow = true)
      (fr.past.enter tt limit (some fr.block) c steps).1 := by
  have hf := h.func_ok.wellFormed
  have hterm := hf.terminator_eq fr.block h.live i (h.mem_body hrest)
    (Op.isTerminator_of_mem_targets hc)
  have hlive := hf.successor_live fr.block h.live c ((Func.mem_successors_iff hterm).mpr hc)
  have hphis : FailsIn (fun e => e.ofRun = true ∨ e.ofFlow = true) (fr.past.phiValues tt limit
      (some fr.block) (fr.func.block c).name (fr.func.phis c) steps).1 :=
    phiValues_failsIn (.inl rfl) (.inr rfl) (fr.func.phis c) steps fun j hj v hv => ?_
  · unfold Frame.enter
    simp only [Frame.func_past]
    split
    · rename_i e n heq
      rw [heq] at hphis
      exact .of_error (hphis e rfl)
    · exact .of_ok _
  · obtain ⟨incoming, hop, hmem⟩ := Func.mem_of_incoming? hv
    obtain ⟨ty, hty, -⟩ := h.func_ok.wellTyped c hlive j (Func.mem_body_of_phis hj)
    rw [show fr.func.op j = .phi incoming from hop] at hty
    have ht := (Typing.resultTy_phi.mp hty).1 v (List.mem_map.mpr ⟨_, hmem, rfl⟩)
    rw [Frame.eval_past]
    exact fun e he => .inr ((h.eval_yields ht).fault e he)

/-! ## Runs -/

namespace Machine

variable {p : Program} {limit : Nat} {f : Func} {s t : State}

/-- The running frame is the only one, and holds nothing but data of the right types. -/
structure Sound (p : Program) (f : Func) (s : State) : Prop where
  /-- It runs the function. -/
  func_eq : s.frame.func = f
  /-- No frame waits. -/
  callers_eq : s.callers = []
  /-- The data have their types. -/
  frame_ok : s.frame.Sound p.types

/-- A step records data of the right types. -/
theorem Advances.sound (ha : Advances p limit s t) (h : Sound p f s) : Sound p f t := by
  obtain ⟨hfunc, hcallers, hfr⟩ := h
  cases ha with
  | plain hrest hn hplain hc =>
    have hok : ∀ e : Fault, e.ofRun = true → True := fun _ _ => trivial
    have hy := hfr.compute hrest hplain hok fun _ _ _ _ => trivial
    exact ⟨hfunc, hcallers, hfr.record hrest ((hy _).result _ (by rw [hc]))⟩
  | jump hrest hn hl he =>
    exact ⟨(Frame.of_enter he).1.trans hfunc, hcallers, hfr.jump hrest hl.mem_targets hn he⟩
  | call hrest hn hop =>
    exact absurd hop (hfr.func_ok.callFree _ hfr.live _ (hfr.mem_body hrest) _ _)
  | ret => cases hcallers

/-- A step keeps available values defined. -/
theorem Sound.defined (h : Sound p f s) (ha : Advances p limit s t)
    (hd : ∃ done, s.frame.Defined done) : ∃ done, t.frame.Defined done := by
  obtain ⟨done, hd⟩ := hd
  cases ha with
  | plain hrest hn hplain hc =>
    exact ⟨_, hd.record hrest (Op.not_isTerminator_of_isPlain hplain) _⟩
  | jump hrest hn hl he => exact hd.jump hrest hl.mem_targets hn he
  | call hrest hn hop =>
    exact absurd hop (h.frame_ok.func_ok.callFree _ h.frame_ok.live _ (h.frame_ok.mem_body hrest)
      _ _)
  | ret => cases h.callers_eq

/-- When every available value is defined, a run that stops has a result of the right type, or
stops for a reason that no check rules out. -/
theorem Sound.stops (h : Sound p f s) {done : List InstId} (hd : s.frame.Defined done) {x : Halt}
    (hx : step p limit s = .halt x) :
    Yields (fun e => e.ofRun = true) (Datum.OfType p.types f.ret) x.result := by
  obtain ⟨fr, cs, m, n⟩ := s
  obtain ⟨rfl, rfl, hfr⟩ := h
  obtain ⟨i, rest, hrest⟩ := List.exists_cons_of_ne_nil hd.rest_ne_nil
  have hlive := hfr.live
  have hbody := hfr.mem_body hrest
  -- An operand that is typed and defined has a value.
  have hval : ∀ v ∈ (fr.func.op i).operands, ∃ d, fr.eval p.types v = .ok d := by
    intro v hv
    cases he : fr.eval p.types v with
    | ok d => exact ⟨d, rfl⟩
    | error e =>
      have hex := hfr.func_ok.wellFormed.operand_exists fr.block hlive i hbody v hv
      obtain ⟨t, ht⟩ := Func.operandTy_of_exists hex
      have hflow := (hfr.eval_yields ht).fault e he
      rw [hd.operand_not_ofFlow hrest hv he] at hflow
      cases hflow
  by_cases hn : n + 1 ≤ limit
  · rw [step_cons hrest [] m hn] at hx
    rcases Op.isPlain_or_isTerminator (hfr.func_ok.callFree fr.block hlive i hbody) with
      hplain | hterm
    · rw [execute_of_isPlain fr.past hplain] at hx
      have hok : ∀ e : Fault, e.ofRun = true → e.ofRun = true := fun _ he => he
      have hy := hfr.compute hrest hplain hok
        fun v hv e he => by
          obtain ⟨d, hd⟩ := hval v hv
          cases hd.symm.trans he
      split at hx
      · cases hx
      · rename_i e m' heq
        cases hx
        exact .of_error ((hy m).fault e (congrArg Prod.fst heq))
    · obtain ⟨x', hl, hret⟩ := hfr.exists_leaves hrest hterm hval
      cases x' with
      | ret d =>
        rw [execute_of_ret fr.past hl] at hx
        cases hx
        exact .of_ok (hret d rfl)
      | goto c =>
        have hc := hl.mem_targets
        rw [execute_of_goto fr.past hl, goto] at hx
        have hfail := hfr.enter_failsIn hrest hc limit (n + 1)
        split at hx
        · cases hx
        · rename_i e n' heq
          cases hx
          refine .of_error ((hfail e (congrArg Prod.fst heq)).resolve_right fun hflow => ?_)
          rw [hd.enter_not_ofFlow hrest hc heq] at hflow
          cases hflow
  · simp only [step] at hx
    split at hx
    · rename_i hnil
      cases hrest.symm.trans hnil
    · rw [if_pos (Nat.lt_of_not_le hn)] at hx
      cases hx
      exact .of_error rfl

/-- A defined function whose entry has no phis starts on arguments of the right types. -/
theorem exists_invoke_sound (hf : f.Typable p.types) (hphi : f.EntryPhiFree)
    {args : List Datum} (hargs : f.ArgsTyped p.types args) {e : BlockId} (he : f.entry? = some e)
    (m : Memory) (limit : Nat) :
    ∃ s, invoke p limit f args [] m 0 = .next s ∧ Sound p f s ∧
      (Frame.activate f args).enter p.types limit none e 0 = (.ok s.frame, s.steps) := by
  have hphis := hphi.phis_eq_nil he
  have hlen : f.params.size = args.length := by simpa using hargs.length_eq
  have hent : ∃ fr, (Frame.activate f args).enter p.types limit none e 0 = (.ok fr, 0) := by
    unfold Frame.enter
    simp only [Frame.activate, hphis, Frame.phiValues]
    exact ⟨_, rfl⟩
  obtain ⟨fr, hfr⟩ := hent
  refine ⟨⟨fr, [], m, 0⟩, invoke_eq_next_iff.mpr ⟨e, fr, 0, he, hlen, hfr, rfl⟩, ?_, hfr⟩
  refine ⟨(Frame.of_enter hfr).1, rfl, ?_⟩
  exact (Frame.typed_activate hf hargs).enter (List.mem_of_mem_head? he) (Nat.zero_le _) hfr

end Machine

/-- The types of `clamping`. -/
def clampingTypes : TypeTable :=
  ⟨#[⟨none, .void⟩, ⟨none, .scalar .f32⟩, ⟨none, .pointer 1⟩, ⟨none, .vector 2 .f32⟩,
    ⟨none, .scalar .bool⟩, ⟨none, .vector 2 .bool⟩, ⟨none, .scalar .i64⟩]⟩

/-- A loop that replaces negative numbers by zero, two at a time, and steps by one. -/
def clamping : Func where
  name := "clamping"
  params := #[⟨"x", 2, true⟩, ⟨"n", 6, false⟩]
  ret := 0
  blocks := #[⟨"entry", [0], false⟩, ⟨"header", [1, 2, 3], false⟩,
    ⟨"body", [4, 5, 6, 7, 8, 9, 10, 11], false⟩, ⟨"exit", [12], false⟩]
  insts := #[⟨.br 1, 0, none, some 0⟩,
    ⟨.phi [(.const 0, 0), (.inst 10, 2)], 6, none, some 1⟩,
    ⟨.icmp .ult (.inst 1) (.param 1), 4, none, some 1⟩,
    ⟨.condBr (.inst 2) 2 3, 0, none, some 1⟩,
    ⟨.gep (.param 0) (.inst 1), 2, none, some 2⟩, ⟨.load (.inst 4), 3, none, some 2⟩,
    ⟨.splat (.const 2), 3, none, some 2⟩, ⟨.fcmp .ogt (.inst 5) (.inst 6), 5, none, some 2⟩,
    ⟨.select (.inst 7) (.inst 5) (.inst 6), 3, none, some 2⟩,
    ⟨.store (.inst 8) (.inst 4), 0, none, some 2⟩,
    ⟨.binary .add (.inst 1) (.const 1), 6, none, some 2⟩, ⟨.br 1, 0, none, some 2⟩,
    ⟨.ret none, 0, none, some 3⟩]
  constants := #[⟨6, .int 0⟩, ⟨6, .int 1⟩, ⟨1, .f32 .zero⟩]
  layout := [0, 1, 2, 3]

end LoopNest
