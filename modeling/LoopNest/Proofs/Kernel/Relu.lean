import LoopNest.Pass.Pipeline
import LoopNest.Proofs.Kernel.ReluVector
import LoopNest.Proofs.Machine.Iterations

/-!
# Runs of the rectified linear unit

The scalar loop of a `Relu.Drawing` fills the output one element at a time (`Drawing.HasLoop.takes`),
and the vector loop one vector at a time (`Drawing.takes_wide`).  Both go on from what is filled so
far (`Relu.Done`), so the two loops of the vectorized function share the elements between them.
-/

namespace LoopNest

@[simp] theorem Func.value_inst (f : Func) (tt : TypeTable) (args : List Datum) (ρ : Values)
    (i : InstId) : f.value tt args ρ (.inst i) = ρ i := rfl

namespace Relu

/-- What the kernel makes of a number. -/
def rectify (x : F32) : F32 := if F32.zero.lt x then x else .zero

/-! ## Buffers -/

/-- The input holds some numbers, and the output has room for as many, elsewhere. -/
structure Buffers (xs : List F32) (pin pout : Pointer) (base : Array Region) : Prop where
  input : pin.Spans xs.length base
  cell_eq : ∀ (k : Nat) x, xs[k]? = some x → cellAt base (pin.element k) = x
  output : pout.Spans xs.length base
  ne : pout.region ≠ pin.region

/-- So many elements of the output are filled. -/
def Done (xs : List F32) (pout : Pointer) (base : Array Region) (k : Nat) (rs : Array Region) : Prop :=
  Written base rs [(pout, (xs.take k).map rectify)]

section

variable {xs : List F32} {pin pout : Pointer} {base rs : Array Region} {k w : Nat} {x : F32}

theorem Buffers.done (hb : Buffers xs pin pout base) : Done xs pout base 0 base :=
  show Written base base ([pout].map fun p => (p, [])) from .refl fun p hp => by
    rw [List.mem_singleton.mp hp]
    exact hb.output.mono (Nat.zero_le _)

variable (hb : Buffers xs pin pout base) (hd : Done xs pout base k rs)
include hb hd

theorem Buffers.spans : pin.Spans xs.length rs ∧
    ∀ (j : Nat) x, xs[j]? = some x → cellAt rs (pin.element j) = x := by
  refine ⟨hb.input.sameExtents hd.extents, fun j x hx => ?_⟩
  have hj := (List.getElem?_eq_some_iff.mp hx).1
  rw [hd.cellAt_base (hb.input.inBounds_element hj) ?_, hb.cell_eq j x hx]
  intro w hw
  rw [List.mem_singleton.mp hw]
  exact hb.ne

theorem Buffers.lanes (hw : k + w ≤ xs.length) :
    (List.range' k w).map (fun j : Nat => cellAt rs (pin.element j)) = (xs.drop k).take w := by
  refine List.ext_getElem (by simp; omega) fun i hi hi' => ?_
  rw [List.length_map, List.length_range'] at hi
  rw [List.getElem_map, List.getElem_range', List.getElem_take, List.getElem_drop, Nat.one_mul]
  exact (hb.spans hd).2 (k + i) _ (List.getElem?_eq_getElem (by omega))

/-- One element more. -/
theorem Buffers.store (hx : xs[k]? = some x) : InBounds rs (pout.element k) 4 ∧
    Done xs pout base (k + 1) (storeCell rs (pout.element k) (rectify x)) := by
  have hk := (List.getElem?_eq_some_iff.mp hx).1
  have hlen : ((xs.take k).map rectify).length = k := by simp; omega
  refine ⟨(hb.output.sameExtents hd.extents).inBounds_element hk, ?_⟩
  have hw := Written.store hd (List.prefix_refl _) (Nat.le_succ _)
    (hb.output.mono (by rw [hlen]; exact hk)) nofun (rectify x)
  rw [hlen] at hw
  rw [Done, List.take_add_one, hx, List.map_append]
  exact hw

/-- A vector of elements more. -/
theorem Buffers.storeLanes (hw : k + w ≤ xs.length) :
    ∃ cs, laneChunks (pout.element k) ((((xs.drop k).take w).map rectify).map .f32) = some cs ∧
      (∀ c ∈ cs, c.Fits rs) ∧ Done xs pout base (k + w) (writeChunks rs cs) := by
  have hlen : ((xs.take k).map rectify).length = k := by simp; omega
  have hlen' : (((xs.drop k).take w).map rectify).length = w := by simp; omega
  have hne : ∀ v ∈ ([] : List (Pointer × List F32)), v.1.region ≠ pout.region := nofun
  obtain ⟨cs, hcs, hfits, hw'⟩ := Written.storeLanes hne
    (((xs.drop k).take w).map rectify) hd (hb.output.mono (by rw [hlen, hlen']; exact hw))
  rw [hlen] at hcs
  refine ⟨cs, hcs, hfits, ?_⟩
  rw [Done, List.take_add, List.map_append]
  exact hw'

end

/-! ## Operands -/


section

variable {f : Func} {tt : TypeTable} {args : List Datum} {ρ : Values} {ti tq : Option TyId}
  {pin pout : Pointer}

/-- The pointers of the loops point to the buffers. -/
def Finds (f : Func) (tt : TypeTable) (args : List Datum) (ti tq : Option TyId) (pin pout : Pointer)
    (ρ : Values) : Prop :=
  f.value tt args ρ (source ti) = some (.ptr pin) ∧
    f.value tt args ρ (target ti tq) = some (.ptr pout)

/-- Later results are no casts. -/
theorem Finds.set {i : InstId} (h : Finds f tt args ti tq pin pout ρ)
    (hi : (casts ti tq).length ≤ i) (d : Datum) : Finds f tt args ti tq pin pout (ρ.set i d) := by
  have hset : ∀ v, (∀ j, v = .inst j → j < (casts ti tq).length) →
      f.value tt args (ρ.set i d) v = f.value tt args ρ v := fun v hv => by
    cases v with
    | inst j => exact Values.set_of_ne (Nat.ne_of_lt (Nat.lt_of_lt_of_le (hv j rfl) hi))
    | _ => rfl
  unfold Finds
  rw [hset _ ?_, hset _ ?_]
  · exact h
  · cases ti <;> cases tq <;> simp [target, casts]
  · cases ti <;> cases tq <;> simp [source, casts]

end

/-! ## The scalar loop -/

namespace Drawing

variable {d : Drawing} {ti tq : Option TyId} {tt : TypeTable} {f : Func} {args : List Datum}

/-- The parts of the scalar loop. -/
def scalarLoop (k : Nat) : Counter :=
  ⟨1, 2, 3, 4, k + 1, k + 2, k + 10, k + 11, k + 12, .const 1, .const 3⟩

/-- The function has the scalar loop of the drawing, which may be entered in another way. -/
structure HasLoop (d : Drawing) (ti tq : Option TyId) (tt : TypeTable) (f : Func) : Prop where
  counter : (scalarLoop (casts ti tq).length).In tt f
  size_le : (casts ti tq).length + 14 ≤ f.insts.size
  body_eq : f.body 2 = [(casts ti tq).length + 3, (casts ti tq).length + 4,
    (casts ti tq).length + 5, (casts ti tq).length + 6, (casts ti tq).length + 7,
    (casts ti tq).length + 8, (casts ti tq).length + 9]
  inst_eq : ∀ i : Nat, 3 ≤ i → i ≤ 9 →
    f.inst ((casts ti tq).length + i) = (d.func ti tq).inst ((casts ti tq).length + i)
  length_eq : f.constants[1]? = some ⟨d.lengthTy, .int d.length⟩
  zero_eq : f.constants[2]? = some ⟨d.zeroF32Ty, .f32 .zero⟩
  one_eq : f.constants[3]? = some ⟨d.oneTy, .int 1⟩

theorem size_func (d : Drawing) (ti tq : Option TyId) :
    (d.func ti tq).insts.size = (casts ti tq).length + 14 := by
  cases ti <;> cases tq <;> rfl

theorem hasLoop_func (hd : d.Typed tt) : d.HasLoop ti tq tt (d.func ti tq) where
  counter := by
    have hiv := TypeTable.elementScalar_of_scalar hd.iv
    have hnext := TypeTable.elementScalar_of_scalar hd.next
    have hlt : ∀ i < 14, (casts ti tq).length + i < (d.func ti tq).insts.size := fun i hi => by
      rw [size_func]
      exact Nat.add_lt_add_left hi _
    cases ti <;> cases tq <;> exact {
      phis_header := rfl
      code_header := rfl
      phis_body := rfl
      phis_latch := rfl
      code_latch := rfl
      phis_exit := rfl
      op_test := rfl
      op_fork := rfl
      op_next := rfl
      op_back := rfl
      incoming_latch := rfl
      scalar_iv := hiv
      scalar_next := hnext
      iv_lt := hlt 1 (by decide)
      test_lt := hlt 2 (by decide)
      next_lt := hlt 11 (by decide)
      iv_ne_test := Nat.ne_of_lt (Nat.lt_succ_self _) }
  size_le := Nat.le_of_eq (size_func d ti tq).symm
  body_eq := by cases ti <;> cases tq <;> rfl
  inst_eq _ _ _ := rfl
  length_eq := rfl
  zero_eq := rfl
  one_eq := rfl

theorem HasLoop.code (h : d.HasLoop ti tq tt f) :
    f.inst ((casts ti tq).length + 3) =
      ⟨.gep (source ti) (.inst ((casts ti tq).length + 1)), d.xAddrTy, some "x.addr", some 2⟩ ∧
    f.inst ((casts ti tq).length + 4) =
      ⟨.load (.inst ((casts ti tq).length + 3)), d.xTy, some "x", some 2⟩ ∧
    f.inst ((casts ti tq).length + 5) =
      ⟨.fcmp .ogt (.inst ((casts ti tq).length + 4)) (.const 2), d.positiveTy, some "positive",
        some 2⟩ ∧
    f.inst ((casts ti tq).length + 6) =
      ⟨.select (.inst ((casts ti tq).length + 5)) (.inst ((casts ti tq).length + 4)) (.const 2),
        d.yTy, some "y", some 2⟩ ∧
    f.inst ((casts ti tq).length + 7) =
      ⟨.gep (target ti tq) (.inst ((casts ti tq).length + 1)), d.yAddrTy, some "y.addr", some 2⟩ ∧
    f.inst ((casts ti tq).length + 8) =
      ⟨.store (.inst ((casts ti tq).length + 6)) (.inst ((casts ti tq).length + 7)), d.storeTy, none,
        some 2⟩ ∧
    f.inst ((casts ti tq).length + 9) = ⟨.br 3, d.leaveTy, none, some 2⟩ := by
  refine ⟨?_, ?_, ?_, ?_, ?_, ?_, ?_⟩ <;> rw [h.inst_eq _ (by decide) (by decide)] <;>
    cases ti <;> cases tq <;> rfl

/-- The values of the scalar constants. -/
theorem value_int {c : ConstId} {t : TyId} {v : Int64} (ht : tt.shape t = .scalar .i64)
    (hc : f.constants[c]? = some ⟨t, .int v⟩) (ρ : Values) :
    f.value tt args ρ (.const c) = some (.int v) := by
  have hs := TypeTable.elementScalar_of_scalar ht
  simp only [Func.value, Func.constantValue, hc, hs, Option.map_some]
  rw [Scalar.normalize_of_width rfl rfl]

section

variable {xs : List F32} {pin pout : Pointer} {base rs : Array Region} {ρ : Values} {n k : Nat}

/-- One iteration of the scalar loop fills one element. -/
theorem HasLoop.takes_body (h : d.HasLoop ti tq tt f) (hd : d.Typed tt)
    (hb : Buffers xs pin pout base) (hk : k < xs.length)
    (hiv : ρ ((casts ti tq).length + 1) = some (.int (.ofNat k)))
    (hfinds : Finds f tt args ti tq pin pout ρ) (hdone : Done xs pout base k rs) :
    ∃ ρ' rs', Takes tt f args ⟨2, f.body 2, ρ, rs⟩ 1 1 ⟨3, f.body 3, ρ', rs'⟩ ∧
      ρ' ((casts ti tq).length + 1) = ρ ((casts ti tq).length + 1) ∧
      Finds f tt args ti tq pin pout ρ' ∧ Done xs pout base (k + 1) rs' := by
  obtain ⟨x, hx⟩ : ∃ x, xs[k]? = some x := ⟨_, List.getElem?_eq_getElem hk⟩
  obtain ⟨hspan, hcell⟩ := hb.spans hdone
  obtain ⟨hin, hdone'⟩ := hb.store hdone hx
  obtain ⟨u, hxAddr⟩ := hd.xAddr
  obtain ⟨u', hyAddr⟩ := hd.yAddr
  have hlt : ∀ i < 14, (casts ti tq).length + i < f.insts.size := fun i hi => by
    have := h.size_le
    omega
  obtain ⟨h₃, h₄, h₅, h₆, h₇, h₈, h₉⟩ := h.code
  have hzero : ∀ ρ, f.value tt args ρ (.const 2) = some (.f32 .zero) := fun ρ => by
    simp only [Func.value, Func.constantValue, h.zero_eq]
  have hf₃ := hfinds.set (i := (casts ti tq).length + 3) (by omega) (.ptr (pin.element k))
  have hf₄ := hf₃.set (i := (casts ti tq).length + 4) (by omega) (.f32 x)
  have hf₅ := hf₄.set (i := (casts ti tq).length + 5) (by omega) (.bool (F32.zero.lt x))
  have hf₆ := hf₅.set (i := (casts ti tq).length + 6) (by omega) (.f32 (rectify x))
  have hf₇ := hf₆.set (i := (casts ti tq).length + 7) (by omega) (.ptr (pout.element k))
  have hf₈ := hf₇.set (i := (casts ti tq).length + 8) (by omega) .void
  refine ⟨_, _, ?_, ?_, hf₈, hdone'⟩
  · rw [h.body_eq]
    change Takes tt f args _ (1 + 0) (1 + 0) _
    refine .gep (hlt 3 (by decide)) (congrArg Inst.op h₃) hfinds.1 hiv
      (by rw [h₃]; exact hxAddr) ?_
    refine .loadCell (hlt 4 (by decide)) (congrArg Inst.op h₄) (by simp)
      (by rw [h₄]; exact hd.x) (hspan.inBounds_element hk) ?_
    rw [hcell k x hx]
    refine .pure (d := .bool (F32.zero.lt x)) (hlt 5 (by decide)) ?_ ?_
    · rw [show f.op _ = _ from congrArg Inst.op h₅]
      simp only [pureResult, hzero, Func.value_inst, Values.set_self]
      rfl
    refine .pure (d := .f32 (rectify x)) (hlt 6 (by decide)) ?_ ?_
    · rw [show f.op _ = _ from congrArg Inst.op h₆]
      simp (disch := simp) only [pureResult, hzero, Func.value_inst, Values.set_self,
        Values.set_of_ne]
      cases hpos : F32.zero.lt x <;> simp [rectify, hpos] <;> rfl
    refine .gep (hlt 7 (by decide)) (congrArg Inst.op h₇) hf₆.2 (by simpa using hiv)
      (by rw [h₇]; exact hyAddr) ?_
    refine .storeCell (x := rectify x) (hlt 8 (by decide)) (congrArg Inst.op h₈) (by simp) (by simp) hin ?_
    have hop : f.op ((casts ti tq).length + 9) = .br 3 := congrArg Inst.op h₉
    exact .goto (by rw [hop]; exact .br) h.counter.phis_latch .refl
  · simp

/-- The scalar loop fills the rest of the output. -/
theorem HasLoop.takes (h : d.HasLoop ti tq tt f) (hd : d.Typed tt) (hb : Buffers xs pin pout base)
    (hlength : d.length = .ofNat xs.length) (hn : xs.length < 2 ^ 63) (hk : k ≤ xs.length)
    (hiv : ρ ((casts ti tq).length + 1) = some (.int (.ofNat k)))
    (hfinds : Finds f tt args ti tq pin pout ρ) (hdone : Done xs pout base k rs) :
    ∃ ρ' rs', Takes tt f args ⟨1, f.afterPhis 1, ρ, rs⟩ (xs.length - k) (xs.length - k)
      ⟨4, f.body 4, ρ', rs'⟩ ∧ Done xs pout base xs.length rs' := by
  have hlater : ∀ i ∈ [(scalarLoop (casts ti tq).length).iv, (scalarLoop (casts ti tq).length).test,
      (scalarLoop (casts ti tq).length).next], (casts ti tq).length ≤ i := by
    simp [scalarLoop]
  have hbound : ∀ ρ, f.value tt args ρ (.const 1) = some (.int (.ofNat xs.length)) := fun ρ =>
    hlength ▸ value_int hd.length h.length_eq ρ
  have hstep : ∀ ρ, f.value tt args ρ (.const 3) = some (.int (.ofNat 1)) :=
    value_int hd.one h.one_eq
  obtain ⟨ρ', rs', hrun, _, hdone'⟩ := h.counter.takes (w := 1) (l := 1) (s := 1) Nat.one_pos hn
    hbound hstep
    (J := Finds f tt args ti tq pin pout) (R := Done xs pout base)
    (fun i hi ρ e hρ => hρ.set (hlater i hi) e)
    (fun j ρ rs hj hiv hρ hrs => h.takes_body hd hb hj hiv hρ hrs)
    (xs.length - k) k ρ rs (by omega) hiv hfinds hdone
  rw [Nat.mul_one] at hrun
  exact ⟨ρ', rs', hrun, hdone'⟩

variable (d tt) in
/-- The entry casts the operands that point to arrays. -/
theorem takes_casts (hbody : f.body 0 = List.range ((casts ti tq).length + 1))
    (hinst : ∀ i < (casts ti tq).length, f.inst i = (d.func ti tq).inst i)
    (hlt : (casts ti tq).length < f.insts.size) (pin pout : Pointer) (rs : Array Region) :
    ∃ ρ, Takes tt f [.ptr pin, .ptr pout] (f.start 0 rs) 0 0 ⟨0, [(casts ti tq).length], ρ, rs⟩ ∧
      Finds f tt [.ptr pin, .ptr pout] ti tq pin pout ρ := by
  have hop : ∀ i < (casts ti tq).length, f.op i = (d.func ti tq).op i := fun i hi =>
    congrArg Inst.op (hinst i hi)
  have hcast : ∀ {i : InstId} {is : List InstId} {v : Operand} {ρ : Values} {e : Datum} {Q : Point},
      i < f.insts.size → f.op i = .bitcast v → f.value tt [.ptr pin, .ptr pout] ρ v = some e →
      Takes tt f [.ptr pin, .ptr pout] ⟨0, is, ρ.set i e, rs⟩ 0 0 Q →
      Takes tt f [.ptr pin, .ptr pout] ⟨0, i :: is, ρ, rs⟩ 0 0 Q := fun hi hop hv h =>
    .pure hi (by rw [hop]; exact hv) h
  rw [Func.start, hbody]
  cases ti with
  | none =>
    cases tq with
    | none => exact ⟨_, .refl, rfl, rfl⟩
    | some u =>
      exact ⟨_, hcast (Nat.lt_of_succ_lt hlt) (hop 0 Nat.one_pos) rfl .refl, rfl, rfl⟩
  | some t =>
    cases tq with
    | none =>
      exact ⟨_, hcast (Nat.lt_of_succ_lt hlt) (hop 0 Nat.one_pos) rfl .refl, rfl, rfl⟩
    | some u =>
      exact ⟨_, hcast (Nat.lt_of_succ_lt (Nat.lt_of_succ_lt hlt)) (hop 0 Nat.two_pos) rfl
        (hcast (Nat.lt_of_succ_lt hlt) (hop 1 Nat.one_lt_two) rfl .refl), rfl, rfl⟩

/-- A run of the function fills the output. -/
theorem takes_func (hd : d.Typed tt) (hb : Buffers xs pin pout base)
    (hlength : d.length = .ofNat xs.length) (hn : xs.length < 2 ^ 63) :
    ∃ ρ' rs', Takes tt (d.func ti tq) [.ptr pin, .ptr pout] ((d.func ti tq).start 0 base) xs.length
      xs.length ⟨4, (d.func ti tq).body 4, ρ', rs'⟩ ∧ Done xs pout base xs.length rs' := by
  have h : d.HasLoop ti tq tt (d.func ti tq) := hasLoop_func hd
  have hlt : (casts ti tq).length < (d.func ti tq).insts.size := by
    rw [size_func]
    omega
  obtain ⟨ρ, hentry, hfinds⟩ := takes_casts d tt
    (show (d.func ti tq).body 0 = _ by cases ti <;> cases tq <;> rfl) (fun _ _ => rfl) hlt pin pout base
  have hop : (d.func ti tq).op (casts ti tq).length = .br 1 := by cases ti <;> cases tq <;> rfl
  have hin : (d.func ti tq).incoming? ((casts ti tq).length + 1) 0 = some (.const 0) := by
    cases ti <;> cases tq <;> rfl
  obtain ⟨ρ', rs', hrun, hdone⟩ := h.takes hd hb hlength hn (Nat.zero_le _)
    (Values.set_self ρ _ (.int (.ofNat 0))) (hfinds.set (Nat.le_add_right _ 1) _) hb.done
  refine ⟨ρ', rs', ?_, hdone⟩
  have hstart := hentry.trans (.gotoPhi (by rw [hop]; exact .br) h.counter.phis_header
    h.counter.iv_lt hin (value_int hd.zero rfl ρ) hrun)
  simpa using hstart

end

/-! ## The vector loop -/

section

variable {w : Wide} {stop step : Int64} {rest : Bool}

/-- The parts of the vector loop. -/
def vectorLoop (k : Nat) (rest : Bool) : Counter :=
  ⟨5, 6, 7, bif rest then 8 else 4, k + 14, k + 15, k + 16, k + 25, k + 26, .const 4, .const 5⟩

theorem size_wide (w : Wide) (stop step : Int64) (rest : Bool) :
    (casts ti tq).length + 27 ≤ (d.wide ti tq w stop step rest).insts.size := by
  cases rest with
  | false => cases ti <;> cases tq <;> exact Nat.le_refl _
  | true => cases ti <;> cases tq <;> exact Nat.le_succ _

theorem in_wide (hd : d.Typed tt) : (vectorLoop (casts ti tq).length rest).In tt
    (d.wide ti tq w stop step rest) := by
  have hiv := TypeTable.elementScalar_of_scalar hd.iv
  have hlt : ∀ i < 27, (casts ti tq).length + i < (d.wide ti tq w stop step rest).insts.size :=
    fun i hi => Nat.lt_of_lt_of_le (Nat.add_lt_add_left hi _) (size_wide w stop step rest)
  cases ti <;> cases tq <;> cases rest <;> exact {
    phis_header := rfl
    code_header := rfl
    phis_body := rfl
    phis_latch := rfl
    code_latch := rfl
    phis_exit := rfl
    op_test := rfl
    op_fork := rfl
    op_next := rfl
    op_back := rfl
    incoming_latch := rfl
    scalar_iv := hiv
    scalar_next := hiv
    iv_lt := hlt 14 (by decide)
    test_lt := hlt 15 (by decide)
    next_lt := hlt 25 (by decide)
    iv_ne_test := Nat.ne_of_lt (Nat.lt_succ_self _) }

theorem hasLoop_wide (hd : d.Typed tt) : d.HasLoop ti tq tt (d.wide ti tq w stop step true) where
  counter := by
    have hiv := TypeTable.elementScalar_of_scalar hd.iv
    have hnext := TypeTable.elementScalar_of_scalar hd.next
    have hlt : ∀ i < 27, (casts ti tq).length + i < (d.wide ti tq w stop step true).insts.size :=
      fun i hi => Nat.lt_of_lt_of_le (Nat.add_lt_add_left hi _) (size_wide w stop step true)
    cases ti <;> cases tq <;> exact {
      phis_header := rfl
      code_header := rfl
      phis_body := rfl
      phis_latch := rfl
      code_latch := rfl
      phis_exit := rfl
      op_test := rfl
      op_fork := rfl
      op_next := rfl
      op_back := rfl
      incoming_latch := rfl
      scalar_iv := hiv
      scalar_next := hnext
      iv_lt := hlt 1 (by decide)
      test_lt := hlt 2 (by decide)
      next_lt := hlt 11 (by decide)
      iv_ne_test := Nat.ne_of_lt (Nat.lt_succ_self _) }
  size_le := Nat.le_trans (Nat.add_le_add_left (by decide) _) (size_wide w stop step true)
  body_eq := by cases ti <;> cases tq <;> rfl
  inst_eq i hi hi' := by
    have hi : i = 3 ∨ i = 4 ∨ i = 5 ∨ i = 6 ∨ i = 7 ∨ i = 8 ∨ i = 9 := by omega
    rcases hi with rfl | rfl | rfl | rfl | rfl | rfl | rfl <;> cases ti <;> cases tq <;> rfl
  length_eq := rfl
  zero_eq := rfl
  one_eq := rfl

variable (d ti tq) in
theorem code_wide (w : Wide) (stop step : Int64) (rest : Bool) :
    let f := d.wide ti tq w stop step rest
    let k := (casts ti tq).length
    f.body 6 = [k + 17, k + 18, k + 19, k + 20, k + 21, k + 22, k + 23, k + 24] ∧
    f.inst (k + 17) =
      ⟨.gep (source ti) (.inst (k + 14)), d.xAddrTy, some "x.addr.vec", some 6⟩ ∧
    f.inst (k + 18) = ⟨.load (.inst (k + 17)), w.xTy, some "x.vec", some 6⟩ ∧
    f.inst (k + 19) = ⟨.splat (.const 2), w.splatTy, some "i.splat", some 6⟩ ∧
    f.inst (k + 20) =
      ⟨.fcmp .ogt (.inst (k + 18)) (.inst (k + 19)), w.positiveTy, some "positive.vec", some 6⟩ ∧
    f.inst (k + 21) = ⟨.select (.inst (k + 20)) (.inst (k + 18)) (.inst (k + 19)), w.yTy,
      some "y.vec", some 6⟩ ∧
    f.inst (k + 22) =
      ⟨.gep (target ti tq) (.inst (k + 14)), d.yAddrTy, some "y.addr.vec", some 6⟩ ∧
    f.inst (k + 23) = ⟨.store (.inst (k + 21)) (.inst (k + 22)), d.storeTy, none, some 6⟩ ∧
    f.inst (k + 24) = ⟨.br 7, w.voidTy, none, some 6⟩ := by
  cases ti <;> cases tq <;> cases rest <;> exact ⟨rfl, rfl, rfl, rfl, rfl, rfl, rfl, rfl, rfl⟩

variable {xs : List F32} {pin pout : Pointer} {base rs : Array Region} {ρ : Values} {n k width : Nat}

/-- One iteration of the vector loop fills one vector. -/
theorem takes_vector (hd : d.Typed tt) (hw : w.Typed width tt) (hb : Buffers xs pin pout base)
    (hk : k + width ≤ xs.length)
    (hiv : ρ ((casts ti tq).length + 14) = some (.int (.ofNat k)))
    (hfinds : Finds (d.wide ti tq w stop step rest) tt args ti tq pin pout ρ)
    (hdone : Done xs pout base k rs) :
    ∃ ρ' rs', Takes tt (d.wide ti tq w stop step rest) args
        ⟨6, (d.wide ti tq w stop step rest).body 6, ρ, rs⟩ 1 1
        ⟨7, (d.wide ti tq w stop step rest).body 7, ρ', rs'⟩ ∧
      ρ' ((casts ti tq).length + 14) = ρ ((casts ti tq).length + 14) ∧
      Finds (d.wide ti tq w stop step rest) tt args ti tq pin pout ρ' ∧
      Done xs pout base (k + width) rs' := by
  obtain ⟨hspan, hcell⟩ := hb.spans hdone
  obtain ⟨cs, hcs, hfits, hdone'⟩ := hb.storeLanes hdone hk
  obtain ⟨u, hxAddr⟩ := hd.xAddr
  obtain ⟨u', hyAddr⟩ := hd.yAddr
  obtain ⟨hbody, h₁₇, h₁₈, h₁₉, h₂₀, h₂₁, h₂₂, h₂₃, h₂₄⟩ := code_wide d ti tq w stop step
    rest
  have hphis : (d.wide ti tq w stop step rest).phis 7 = [] := (in_wide hd).phis_latch
  have hlt : ∀ i < 27, (casts ti tq).length + i < (d.wide ti tq w stop step rest).insts.size :=
    fun i hi => Nat.lt_of_lt_of_le (Nat.add_lt_add_left hi _) (size_wide w stop step rest)
  have hzero : ∀ ρ, (d.wide ti tq w stop step rest).value tt args ρ (.const 2) =
      some (.f32 .zero) := fun ρ => rfl
  generalize d.wide ti tq w stop step rest = f at *
  -- The numbers of the vector.
  obtain ⟨ys, hys⟩ : ∃ ys, (xs.drop k).take width = ys := ⟨_, rfl⟩
  rw [hys] at hcs
  have hlen : ys.length = width := by
    rw [← hys, List.length_take, List.length_drop]
    omega
  have hload : (Memory.ofRegions rs).load tt (pin.element k) w.xTy = .ok (.ofF32s ys) := by
    have hmap : (List.range' k width).map (fun j : Nat => Datum.f32 (cellAt rs (pin.element j))) =
        ys.map .f32 := by
      rw [← hys, ← hb.lanes hdone hk, List.map_map]
      rfl
    rw [Memory.load, hw.x]
    simp only [loadLanes_cells hspan width k hk, hmap]
    rfl
  have hf₁₇ := hfinds.set (i := (casts ti tq).length + 17) (by omega) (.ptr (pin.element k))
  have hf₁₈ := hf₁₇.set (i := (casts ti tq).length + 18) (by omega) (.ofF32s ys)
  have hf₁₉ := hf₁₈.set (i := (casts ti tq).length + 19) (by omega)
    (.vector (List.replicate ys.length (.f32 .zero)))
  have hf₂₀ := hf₁₉.set (i := (casts ti tq).length + 20) (by omega)
    (.vector (ys.map fun x => .bool (F32.zero.lt x)))
  have hf₂₁ := hf₂₀.set (i := (casts ti tq).length + 21) (by omega) (.ofF32s (ys.map rectify))
  have hf₂₂ := hf₂₁.set (i := (casts ti tq).length + 22) (by omega) (.ptr (pout.element k))
  have hf₂₃ := hf₂₂.set (i := (casts ti tq).length + 23) (by omega) .void
  refine ⟨_, _, ?_, ?_, hf₂₃, hdone'⟩
  · rw [hbody]
    change Takes tt f args _ (1 + 0) (1 + 0) _
    refine .gep (hlt 17 (by decide)) (congrArg Inst.op h₁₇) hfinds.1 hiv
      (by rw [h₁₇]; exact hxAddr) ?_
    refine .load (q := pin.element k) (hlt 18 (by decide)) (congrArg Inst.op h₁₈) (by simp) (by rw [h₁₈]; exact hload) ?_
    refine .pure (d := .vector (List.replicate ys.length (.f32 .zero))) (hlt 19 (by decide)) ?_ ?_
    · rw [show f.op _ = _ from congrArg Inst.op h₁₉, h₁₉]
      have hlanes : tt.lanes? w.splatTy = some width := TypeTable.lanes_eq_some.mpr ⟨_, hw.splat⟩
      simp only [pureResult, hzero, Option.map_some, hlanes, Option.getD_some, hlen]
    refine .pure (d := .vector (ys.map fun x => .bool (F32.zero.lt x))) (hlt 20 (by decide)) ?_ ?_
    · rw [show f.op _ = _ from congrArg Inst.op h₂₀]
      simp (disch := simp) only [pureResult, Func.value_inst, Values.set_self, Values.set_of_ne]
      rw [lanewise_fcmp]
      rfl
    refine .pure (d := .ofF32s (ys.map rectify)) (hlt 21 (by decide)) ?_ ?_
    · rw [show f.op _ = _ from congrArg Inst.op h₂₁]
      simp (disch := simp) only [pureResult, Func.value_inst, Values.set_self, Values.set_of_ne]
      rw [choose_lanes]
      rfl
    refine .gep (hlt 22 (by decide)) (congrArg Inst.op h₂₂) hf₂₁.2 (by simpa using hiv)
      (by rw [h₂₂]; exact hyAddr) ?_
    refine .store (d := .ofF32s (ys.map rectify)) (hlt 23 (by decide)) (congrArg Inst.op h₂₃)
      (by simp) (by simp) hcs hfits ?_
    have hop : f.op ((casts ti tq).length + 24) = .br 7 := congrArg Inst.op h₂₄
    exact .goto (by rw [hop]; exact .br) hphis .refl
  · simp

/-- All iterations of the vector loop. -/
theorem takes_vectors (rest : Bool) (hd : d.Typed tt) (hw : w.Typed width tt) (hb : Buffers xs pin pout base)
    (hn : xs.length < 2 ^ 63) (hwidth : 0 < width)
    (hiv : ρ ((casts ti tq).length + 14) = some (.int (.ofNat 0)))
    (hfinds : Finds (d.wide ti tq w (.ofNat (xs.length - xs.length % width)) (.ofNat width) rest) tt
      args ti tq pin pout ρ) :
    let f := d.wide ti tq w (.ofNat (xs.length - xs.length % width)) (.ofNat width) rest
    ∃ ρ' rs', Takes tt f args ⟨5, f.afterPhis 5, ρ, base⟩ (xs.length / width) (xs.length / width)
        ⟨bif rest then 8 else 4, f.body (bif rest then 8 else 4), ρ', rs'⟩ ∧
      Finds f tt args ti tq pin pout ρ' ∧
      Done xs pout base (xs.length - xs.length % width) rs' := by
  intro f
  have hin : (vectorLoop (casts ti tq).length rest).In tt f := in_wide hd
  have hlater : ∀ i ∈ [(vectorLoop (casts ti tq).length rest).iv,
      (vectorLoop (casts ti tq).length rest).test, (vectorLoop (casts ti tq).length rest).next],
      (casts ti tq).length ≤ i := by
    simp [vectorLoop]
  have hbound : ∀ ρ, f.value tt args ρ (.const 4) =
      some (.int (.ofNat (xs.length - xs.length % width))) := value_int hd.iv rfl
  have hstep : ∀ ρ, f.value tt args ρ (.const 5) = some (.int (.ofNat width)) :=
    value_int hd.iv rfl
  obtain ⟨ρ', rs', hrun, hfinds', hdone'⟩ := hin.takes (l := 1) (s := 1) hwidth (by omega) hbound
    hstep (J := Finds f tt args ti tq pin pout) (R := Done xs pout base)
    (fun i hi ρ e hρ => hρ.set (hlater i hi) e)
    (fun j ρ rs hj hiv hρ hrs => takes_vector hd hw hb (Nat.le_trans hj (Nat.sub_le ..)) hiv hρ hrs)
    (xs.length / width) 0 ρ base (by rw [Nat.zero_add, Nat.div_mul_self_eq_mod_sub_self]) hiv hfinds
    hb.done
  rw [Nat.mul_one] at hrun
  exact ⟨ρ', rs', hrun, hfinds', hdone'⟩

variable (ti tq) in
/-- A run of the vectorized function fills the output.  The vector loop makes one access for each
vector, and the old loop one for each element that is left. -/
theorem takes_wide (hd : d.Typed tt) (hw : w.Typed width tt) (hb : Buffers xs pin pout base)
    (hlength : d.length = .ofNat xs.length) (hn : xs.length < 2 ^ 63) (hwidth : 0 < width) :
    let f := d.wide ti tq w (.ofNat (xs.length - xs.length % width)) (.ofNat width)
      (xs.length % width ≠ 0)
    ∃ ρ' rs', Takes tt f [.ptr pin, .ptr pout] (f.start 0 base)
        (xs.length / width + xs.length % width) (xs.length / width + xs.length % width)
        ⟨4, f.body 4, ρ', rs'⟩ ∧ Done xs pout base xs.length rs' := by
  generalize hrest : decide (xs.length % width ≠ 0) = rest
  intro f
  have hin : (vectorLoop (casts ti tq).length rest).In tt f := in_wide hd
  have hlt : (casts ti tq).length < f.insts.size :=
    Nat.lt_of_lt_of_le (by omega) (size_wide w _ _ rest)
  have hinst : ∀ i < (casts ti tq).length, f.inst i = (d.func ti tq).inst i := fun i hi => by
    simp only [f, Func.inst, wide, func, List.getElem?_toArray, List.getElem?_append_left hi]
  obtain ⟨ρ, hentry, hfinds⟩ := takes_casts d tt
    (show f.body 0 = _ by cases ti <;> cases tq <;> cases rest <;> rfl) hinst hlt pin pout base
  have hop : f.op (casts ti tq).length = .br 5 := by
    cases ti <;> cases tq <;> cases rest <;> rfl
  have hincoming : f.incoming? ((casts ti tq).length + 14) 0 = some (.const 0) := by
    cases ti <;> cases tq <;> cases rest <;> rfl
  obtain ⟨ρ', rs', hrun, hfinds', hdone⟩ := takes_vectors rest hd hw hb hn hwidth
    (Values.set_self ρ _ (.int (.ofNat 0))) (hfinds.set (Nat.le_add_right _ 14) _)
  have hstart := hentry.trans (.gotoPhi (by rw [hop]; exact .br) hin.phis_header
    hin.iv_lt hincoming (value_int hd.zero rfl ρ) hrun)
  rw [Nat.zero_add] at hstart
  cases rest with
  | false =>
    have hzero : xs.length % width = 0 := by simpa using hrest
    rw [hzero] at hdone ⊢
    exact ⟨ρ', rs', hstart, hdone⟩
  | true =>
    have h : d.HasLoop ti tq tt f := hasLoop_wide hd
    obtain ⟨ρ'', rs'', hrest', hdone'⟩ := h.takes hd hb hlength hn (Nat.sub_le ..)
      (Values.set_self ρ' _ (.int (.ofNat (xs.length - xs.length % width))))
      (hfinds'.set (Nat.le_add_right _ 1) _) hdone
    have hop' : f.op ((casts ti tq).length + 27) = .br 1 := by cases ti <;> cases tq <;> rfl
    have hincoming' : f.incoming? ((casts ti tq).length + 1) 8 = some (.const 4) := by
      cases ti <;> cases tq <;> rfl
    rw [Nat.sub_sub_self (Nat.mod_le ..)] at hrest'
    have hmiddle : Takes tt f [.ptr pin, .ptr pout] ⟨8, f.body 8, ρ', rs'⟩ _ _ _ := .gotoPhi
      (by rw [hop']; exact .br) h.counter.phis_header h.counter.iv_lt hincoming'
      (value_int hd.iv rfl ρ') hrest'
    exact ⟨ρ'', rs'', hstart.trans hmiddle, hdone'⟩

end

end Drawing

/-- The loads, and as many stores, of a run after the vectorizer. -/
def accesses (config : VectorConfig) (n : Nat) : Nat :=
  if 2 ≤ config.width ∧ config.width ≤ n ∧ 32 * config.width ≤ config.registerBits then
    n / config.width + n % config.width
  else n

end Relu

/-! ## Runs -/

/-- The run succeeded and left the rectified numbers in a buffer.  It changed nothing else. -/
structure Halt.Rectifies (h : Halt) (m : Memory) (q : Pointer) (xs : List F32) : Prop where
  result_eq : h.result = .ok .void
  output : h.memory.readF32 q xs.length = .ok (xs.map Relu.rectify)
  extents : SameExtents m.regions h.memory.regions
  byteAt_eq : ∀ r o, ¬ (r = q.region ∧ q.start ≤ o ∧ o < q.start + 4 * xs.length) →
    byteAt h.memory.regions r o = byteAt m.regions r o

theorem Halt.rectifies_of_done {h : Halt} {m : Memory} {xs : List F32} {q : Pointer}
    (hresult : h.result = .ok .void)
    (hdone : Relu.Done xs q m.regions xs.length h.memory.regions) : h.Rectifies m q xs := by
  rw [Relu.Done, List.take_length] at hdone
  have hspans := (hdone.spans _ List.mem_cons_self).sameExtents hdone.extents
  rw [List.length_map] at hspans
  refine ⟨hresult, ?_, hdone.extents, fun r o ho => hdone.byteAt_eq r o fun w hw => ?_⟩
  · rw [Memory.readF32_eq_ok hspans.extent_lt]
    exact ⟨hspans, by simp, hdone.cell_eq _ List.mem_cons_self⟩
  · rw [List.mem_singleton.mp hw, List.length_map]
    exact fun ⟨hr, ho'⟩ => ho ⟨hr.symm, ho'⟩

/-- A complete run of a function with the blocks of a drawing. -/
theorem Relu.rectifies_of_takes {p : Program} {f : Func} {m : Memory} {pin pout : Pointer}
    {xs : List F32} {l : Nat} (hentry : f.entry? = some 0) (hparams : f.params.size = 2)
    (hphis : f.phis 0 = []) (hret : ∃ i is, f.body 4 = i :: is ∧ f.op i = .ret none)
    (htakes : ∃ ρ rs, Takes p.types f [.ptr pin, .ptr pout] (f.start 0 m.regions) l l
      ⟨4, f.body 4, ρ, rs⟩ ∧ Done xs pout m.regions xs.length rs) :
    ∃ n, ∀ limit, n ≤ limit →
      (p.run f [.ptr pin, .ptr pout] m limit).Rectifies m pout xs ∧
      m.Counts (p.run f [.ptr pin, .ptr pout] m limit).memory l l := by
  obtain ⟨ρ, rs, hrun, hdone⟩ := htakes
  obtain ⟨n, hn⟩ := Program.run_of_takes (p := p) (m := m) (f := f) hentry
    (hparams.trans (show 2 = [Datum.ptr pin, .ptr pout].length from rfl)) hphis hrun hret
  refine ⟨n, fun limit hlimit => ?_⟩
  obtain ⟨hresult, hregions, hcounts⟩ := hn limit hlimit
  exact ⟨Halt.rectifies_of_done hresult (hregions ▸ hdone), hcounts⟩

namespace Relu.Drawing

variable {d : Drawing} {ti tq : Option TyId} {w : Wide} {width : Nat} {p : Program} {m : Memory}
  {pin pout : Pointer} {xs : List F32}

variable (ti tq) in
/-- Complete runs of the scalar function. -/
theorem rectifies_func (hd : d.Typed p.types) (hb : Buffers xs pin pout m.regions)
    (hlength : d.length = .ofNat xs.length) (hn : xs.length < 2 ^ 63) :
    ∃ n, ∀ limit, n ≤ limit →
      (p.run (d.func ti tq) [.ptr pin, .ptr pout] m limit).Rectifies m pout xs ∧
      m.Counts (p.run (d.func ti tq) [.ptr pin, .ptr pout] m limit).memory xs.length xs.length :=
  rectifies_of_takes rfl rfl (by cases ti <;> cases tq <;> rfl)
    ⟨_, [], rfl, by cases ti <;> cases tq <;> rfl⟩ (takes_func hd hb hlength hn)

variable (ti tq) in
/-- Complete runs of the vectorized function. -/
theorem rectifies_wide (hd : d.Typed p.types) (hw : w.Typed width p.types)
    (hb : Buffers xs pin pout m.regions) (hlength : d.length = .ofNat xs.length)
    (hn : xs.length < 2 ^ 63) (hwidth : 0 < width) :
    let g := d.wide ti tq w (.ofNat (xs.length - xs.length % width)) (.ofNat width)
      (xs.length % width ≠ 0)
    ∃ n, ∀ limit, n ≤ limit →
      (p.run g [.ptr pin, .ptr pout] m limit).Rectifies m pout xs ∧
      m.Counts (p.run g [.ptr pin, .ptr pout] m limit).memory
        (xs.length / width + xs.length % width) (xs.length / width + xs.length % width) := by
  have hentry : ∀ stop step rest, Func.entry? (d.wide ti tq w stop step rest) = some 0 ∧
      (d.wide ti tq w stop step rest).phis 0 = [] ∧
      ∃ i is, (d.wide ti tq w stop step rest).body 4 = i :: is ∧
        (d.wide ti tq w stop step rest).op i = .ret none := by
    intro stop step rest
    cases ti <;> cases tq <;> cases rest <;> exact ⟨rfl, rfl, _, [], rfl, rfl⟩
  obtain ⟨hentry, hphis, hret⟩ := hentry (.ofNat (xs.length - xs.length % width)) (.ofNat width)
    (decide (xs.length % width ≠ 0))
  exact rectifies_of_takes hentry rfl hphis hret (takes_wide ti tq hd hw hb hlength hn hwidth)

end Relu.Drawing

/-- The buffers of a call. -/
theorem Relu.buffers_of_readF32 {m : Memory} (hm : m.Addressable) {pin pout : Pointer} {n : Nat}
    {xs old : List F32} (hin : m.readF32 pin n = .ok xs) (hout : m.readF32 pout n = .ok old)
    (hne : pin.region ≠ pout.region) : xs.length = n ∧ Buffers xs pin pout m.regions := by
  obtain ⟨hspan, hlen, hcells⟩ := (Memory.readF32_eq_ok (hm _)).mp hin
  obtain ⟨hspan', _, _⟩ := (Memory.readF32_eq_ok (hm _)).mp hout
  exact ⟨hlen, hlen ▸ hspan, hcells, hlen ▸ hspan', hne.symm⟩

namespace Kernel

open Relu

/-- A generated rectified linear unit sets each element of the output to that of the input where it
is greater than zero and to zero elsewhere, and changes nothing else, before and after its loop is
vectorized.  The vectorized run makes one load and one store for each vector and each element that
is left. -/
theorem relu_rectifies {p : Program} {input output : TyId} {length : Option Nat} {pl : Plan}
    {id : FuncId} (hpl : Relu.plan p.types input output length = .ok pl)
    (hid : (relu p input output length).result = .ok id) (config : VectorConfig) {m : Memory}
    (hm : m.Addressable) {pin pout : Pointer} {xs old : List F32}
    (hin : m.readF32 pin pl.length = .ok xs) (hout : m.readF32 pout pl.length = .ok old)
    (hne : pin.region ≠ pout.region) :
    let q := (relu p input output length).program
    let r := ((Pass.vectorize config).run q id).program
    ∃ f g, q.func? id = some f ∧ r.func? id = some g ∧ ∃ n, ∀ limit, n ≤ limit →
      (q.run f [.ptr pin, .ptr pout] m limit).Rectifies m pout xs ∧
      (r.run g [.ptr pin, .ptr pout] m limit).Rectifies m pout xs ∧
      m.Counts (r.run g [.ptr pin, .ptr pout] m limit).memory (accesses config pl.length)
        (accesses config pl.length) := by
  intro q r
  obtain ⟨d, ti, tq, hf, hlength, hd⟩ := exists_drawing hpl hid
  change q.func? id = _ at hf
  obtain ⟨hlen, hb⟩ := buffers_of_readF32 hm hin hout hne
  rw [← hlen] at hlength ⊢
  have hn : xs.length < 2 ^ 63 := by
    have hroom := hb.input.inBounds.2.1
    have hextent := hb.input.extent_lt
    omega
  obtain ⟨n, hscalar⟩ := Drawing.rectifies_func (p := q) ti tq hd hb hlength hn
  have hlt : id < q.funcs.size := (Array.getElem?_eq_some_iff.mp hf).1
  have hr : r = { q with types := ((d.func ti tq).vectorize config q.types).types }.setFunc id
      ((d.func ti tq).vectorize config q.types).func := by
    have hstuck : (Pass.vectorize config).stuckOn q.types (d.func ti tq) = false :=
      Drawing.vectorizeStuck_func ti tq hd hlength (by omega)
    simp only [r, Pass.run, hf, hstuck]
    rfl
  have hg : r.func? id = some ((d.func ti tq).vectorize config q.types).func := by
    rw [hr]
    simp [Program.setFunc, Program.func?, hlt]
  have htypes : r.types = ((d.func ti tq).vectorize config q.types).types := by rw [hr]; rfl
  obtain ⟨n', hvector⟩ : ∃ n', ∀ limit, n' ≤ limit →
      (r.run ((d.func ti tq).vectorize config q.types).func [.ptr pin, .ptr pout] m
        limit).Rectifies m pout xs ∧
      m.Counts (r.run ((d.func ti tq).vectorize config q.types).func [.ptr pin, .ptr pout] m
        limit).memory (accesses config xs.length) (accesses config xs.length) := by
    unfold accesses
    split
    · rename_i hfits
      obtain ⟨w, he, hw, hfunc, _⟩ := Drawing.vectorize_of_fits ti tq hd hlength (by omega) hfits.1
        hfits.2.1 hfits.2.2
      rw [hfunc]
      rw [← htypes] at he hw
      exact Drawing.rectifies_wide ti tq (hd.extends he) hw hb hlength hn
        (Nat.lt_of_lt_of_le Nat.two_pos hfits.1)
    · rename_i hnot
      obtain ⟨he, hfunc, _⟩ := Drawing.vectorize_of_not_fits ti tq hd hlength (by omega) hnot
      rw [hfunc]
      rw [he] at htypes
      exact Drawing.rectifies_func ti tq (htypes ▸ hd) hb hlength hn
  refine ⟨_, _, hf, hg, max n n', fun limit hlimit => ?_⟩
  obtain ⟨hrect, hcounts⟩ := hvector limit (Nat.le_trans (Nat.le_max_right ..) hlimit)
  exact ⟨(hscalar limit (Nat.le_trans (Nat.le_max_left ..) hlimit)).1, hrect, hcounts⟩

/-- Five elements, one of them a NaN. -/
def fiveElements : List F32 :=
  [⟨0x3f800000⟩, ⟨0xbf800000⟩, .canonicalNaN, ⟨0x40000000⟩, ⟨0x40400000⟩]

/-- Four lanes take the first elements, and the old loop takes the last one. -/
theorem relu_rectifies_fiveElements :
    Relu.plan pointers.types 1 1 (some 5) = .ok ⟨⟨"input", 1, none⟩, ⟨"output", 1, none⟩, 5⟩ ∧
    (relu pointers 1 1 (some 5)).result = .ok 0 ∧
    (buffers [fiveElements, fiveElements]).Addressable ∧
    (buffers [fiveElements, fiveElements]).readF32 ⟨0, 0⟩ 5 = .ok fiveElements ∧
    (buffers [fiveElements, fiveElements]).readF32 ⟨1, 0⟩ 5 = .ok fiveElements ∧
    fiveElements.map rectify = [⟨0x3f800000⟩, .zero, .zero, ⟨0x40000000⟩, ⟨0x40400000⟩] ∧
    accesses .standard 5 = 2 ∧
    let m := buffers [fiveElements, fiveElements]
    let q := (relu pointers 1 1 (some 5)).program
    let r := ((Pass.vectorize .standard).run q 0).program
    ∃ f g, q.func? 0 = some f ∧ r.func? 0 = some g ∧ ∃ n, ∀ limit, n ≤ limit →
      (q.run f [.ptr ⟨0, 0⟩, .ptr ⟨1, 0⟩] m limit).Rectifies m ⟨1, 0⟩ fiveElements ∧
      (r.run g [.ptr ⟨0, 0⟩, .ptr ⟨1, 0⟩] m limit).Rectifies m ⟨1, 0⟩ fiveElements ∧
      m.Counts (r.run g [.ptr ⟨0, 0⟩, .ptr ⟨1, 0⟩] m limit).memory (accesses .standard 5)
        (accesses .standard 5) := by
  have hpl : Relu.plan pointers.types 1 1 (some 5) =
      .ok ⟨⟨"input", 1, none⟩, ⟨"output", 1, none⟩, 5⟩ := by cbv
  have hid : (relu pointers 1 1 (some 5)).result = .ok 0 := by decide +kernel
  have hm : (buffers [fiveElements, fiveElements]).Addressable := by decide +kernel
  have hin : (buffers [fiveElements, fiveElements]).readF32 ⟨0, 0⟩ 5 = .ok fiveElements := rfl
  have hout : (buffers [fiveElements, fiveElements]).readF32 ⟨1, 0⟩ 5 = .ok fiveElements := rfl
  exact ⟨hpl, hid, hm, hin, hout, by decide +kernel, by decide,
    relu_rectifies hpl hid .standard hm hin hout (by decide)⟩

end Kernel

end LoopNest
