import LoopNest.Proofs.Builder.Logic
import LoopNest.Proofs.Machine.Cells

/-!
# Rules for instructions

One rule of `World.Does` for each instruction that kernels are made of.  A rule finds the
meanings of the operands among the facts and adds the meaning of the result.  Integers are added
and multiplied without regard to the range of their type; an address demands that its index is
in range.
-/

namespace LoopNest

theorem TypeTable.shape_of_get? {tt : TypeTable} {t : TyId} {ty : Ty} (h : tt.get? t = some ty) :
    tt.shape t = ty.shape := by
  rw [shape, h]

namespace Typing

variable {tt : TypeTable} {f : Func} {t u : TyId} {ty : Ty} {declared : Option TyId}

/-- An address has the type of its base. -/
theorem ty_of_gep {b x : Operand} (h : resultTy tt f (.gep b x) declared = .ok ty)
    (hb : f.operandTy b = .ok t) : tt.ty t = ty := by
  simp only [resultTy, bind_eq_ok_iff] at h
  obtain ⟨t', ht', _, _, i, _, h⟩ := h
  rw [hb] at ht'
  cases ht'
  split at h
  · exact (ite_mismatch_eq_ok.mp h).2
  · cases h

/-- A load has the type that its pointer points to. -/
theorem ty_of_load {p : Operand} (h : resultTy tt f (.load p) none = .ok ty)
    (hp : f.operandTy p = .ok t) (ht : tt.shape t = .pointer u) : tt.ty u = ty := by
  simp only [resultTy, bind_eq_ok_iff, pointee_eq_ok, Option.getD_none] at h
  obtain ⟨t', ht', u', hu', h⟩ := h
  rw [hp] at ht'
  cases ht'
  rw [ht] at hu'
  cases hu'
  exact (ite_mismatch_eq_ok.mp h).2

/-- A cast has the type that is declared. -/
theorem ty_of_bitcast {v : Operand} (h : resultTy tt f (.bitcast v) (some t) = .ok ty) :
    tt.ty t = ty := by
  simp only [resultTy, declaredTy, bind_eq_ok_iff] at h
  obtain ⟨_, ⟨⟩, _, _, _, _, _, _, h⟩ := h
  exact Except.ok.inj h

end Typing

theorem Meaning.OfType.congr {tt : TypeTable} {t t' : TyId} {m : Meaning} (h : m.OfType tt t)
    (ht : tt.shape t' = tt.shape t) : m.OfType tt t' := by
  cases m with
  | ptr length p => cases length <;> simpa only [OfType, ht] using h
  | _ => simpa only [OfType, ht] using h

theorem Meaning.OfType.shape_ne_void {tt : TypeTable} {t : TyId} {m : Meaning} (h : m.OfType tt t) :
    tt.shape t ≠ .void := by
  cases m with
  | ptr length p =>
    cases length with
    | none =>
      obtain ⟨u, hu, _⟩ := h
      simp [hu]
    | some n =>
      obtain ⟨u, hu⟩ := h
      simp [hu]
  | int s n => simp [h.1]
  | bool b => simp [show tt.shape t = _ from h]
  | f32 x => simp [show tt.shape t = _ from h]

/-- A copy of a type. -/
theorem Meaning.OfType.insert {tt : TypeTable} {t : TyId} {m : Meaning} (h : m.OfType tt t) :
    m.OfType (Pool.insert tt (tt.ty t)).2 (Pool.insert tt (tt.ty t)).1 := by
  refine (h.extends (tt.extends_insert _)).congr ?_
  rw [TypeTable.shape_of_get? (Pool.get?_insert tt _), TypeTable.shape_ty,
    (tt.extends_insert _).shape_eq rfl h.shape_ne_void]

/-- The value of a literal of a scalar type. -/
def Literal.datum (sc : Scalar) : Literal → Datum
  | .bool b => .bool b
  | .f32 x => .f32 x
  | .int v => .int (sc.normalize v)

namespace World

variable {W : World} {s s' : Site} {ρ : Values} {Γ : Facts} {here : BlockId} {rs rs' : Array Region}
  {op : Op} {i : InstId} {ty : Ty} {declared : Option TyId} {name : String} {m : Meaning}
  {Q : Operand → BlockId → Facts → Array Region → Prop}

namespace Emitted

/-- A result of the type of an operand. -/
theorem ofType (he : Emitted W s s' here op declared i ty) {t : TyId} (hty : s.types.ty t = ty)
    (hm : m.OfType s.types t) : m.OfType s'.types (W.func.inst i).ty := by
  have hs : s'.types.shape t = s.types.shape t := he.grows.types.shape_eq rfl hm.shape_ne_void
  refine (hm.extends he.grows.types).congr ?_
  rw [TypeTable.shape_of_get? he.get?_ty, ← hty, TypeTable.shape_ty, hs]

theorem shape_eq (he : Emitted W s s' here op declared i ty) :
    s'.types.shape (W.func.inst i).ty = ty.shape := TypeTable.shape_of_get? he.get?_ty

theorem extends_final (he : Emitted W s s' here op declared i ty) : s.types.Extends W.types :=
  (he.grows.within.trans he.final).types

theorem tyOf_eq (he : Emitted W s s' here op declared i ty) {v : Operand} {t : TyId}
    (h : s.func.operandTy v = .ok t) : W.func.tyOf v = t :=
  Typing.tyOf_of_operandTy ((he.grows.within.trans he.final).func.keepsTypes.operandTy_eq v t h)

end Emitted

/-! ## Operators -/

section

variable {o : BinaryOp} {l r : Operand}

/-- An operator gives a result of the type of its operands. -/
theorem Emitted.binary (he : Emitted W s s' here (.binary o l r) declared i ty) {t : TyId}
    (hl : s.func.operandTy l = .ok t) : s.types.ty t = ty := by
  obtain ⟨t', s, lanes, hpair, _, hty⟩ := Typing.resultTy_binary.mp he.typed
  obtain ⟨hl', _, _⟩ := Typing.operandPair_iff.mp hpair
  rw [hl] at hl'
  cases hl'
  exact hty

/-- An operator on two operands of one scalar type. -/
theorem Does.scalarBinary (mₗ mᵣ : Meaning) (sc : Scalar) [Γ.Has l mₗ] [Γ.Has r mᵣ]
    (hsc : ∀ {tt t}, mₗ.OfType tt t → tt.shape t = .scalar sc ∧ m.OfType tt t)
    (happly : ∀ {tt t}, mₗ.OfType tt t → lanewise (o.apply sc) mₗ.datum mᵣ.datum = .ok m.datum)
    (hQ : ∀ v, Q v here (.val v m :: Γ) rs) :
    W.Does (Build.binary here o l r name) here Γ rs Q := by
  refine .result rfl (fun _ h => by cases h) (fun {s s' ρ i ty} he hρ => ?_) hQ
  obtain ⟨t, ht, hl⟩ := hρ.fits l
  have hty := he.ofType (he.binary ht) hl
  have hel : W.types.elementScalar? (W.func.inst i).ty = some sc :=
    TypeTable.elementScalar_of_scalar (hsc (hty.extends he.final.types)).1
  refine ⟨⟨[], .pure ?_⟩, (hsc hty).2⟩
  simp only [pureResult, hel, hρ.value_eq l, hρ.value_eq r, happly hl]
  rfl

theorem Does.intBinary {sc : Scalar} {a b n : Int} [Γ.Has l (.int sc a)] [Γ.Has r (.int sc b)]
    (ho : o.isFloat = false)
    (hn : sc.IsSigned → o.onInt sc (sc.wrap a) (sc.wrap b) = .ok (sc.wrap n))
    (hQ : ∀ v, Q v here (.val v (.int sc n) :: Γ) rs) :
    W.Does (Build.binary here o l r name) here Γ rs Q := by
  refine .scalarBinary (m := .int sc n) (.int sc a) (.int sc b) sc (fun h => ⟨h.1, h⟩)
    (fun h => ?_) hQ
  simp only [Meaning.datum, lanewise, BinaryOp.apply, ho, Bool.false_eq_true, if_false, Datum.asInt]
  show (o.onInt sc (sc.wrap a) (sc.wrap b)).bind _ = _
  rw [hn h.2]
  rfl

theorem Does.add {sc : Scalar} {a b : Int} [Γ.Has l (.int sc a)] [Γ.Has r (.int sc b)]
    (hQ : ∀ v, Q v here (.val v (.int sc (a + b)) :: Γ) rs) :
    W.Does (Build.add here l r name) here Γ rs Q :=
  .intBinary rfl (fun hs => congrArg Except.ok (hs.normalize_add a b)) hQ

theorem Does.sub {sc : Scalar} {a b : Int} [Γ.Has l (.int sc a)] [Γ.Has r (.int sc b)]
    (hQ : ∀ v, Q v here (.val v (.int sc (a - b)) :: Γ) rs) :
    W.Does (Build.binary here .sub l r name) here Γ rs Q :=
  .intBinary rfl (fun hs => congrArg Except.ok (hs.normalize_sub a b)) hQ

theorem Does.mul {sc : Scalar} {a b : Int} [Γ.Has l (.int sc a)] [Γ.Has r (.int sc b)]
    (hQ : ∀ v, Q v here (.val v (.int sc (a * b)) :: Γ) rs) :
    W.Does (Build.mul here l r name) here Γ rs Q :=
  .intBinary rfl (fun hs => congrArg Except.ok (hs.normalize_mul a b)) hQ

theorem Does.and {a b : Bool} [Γ.Has l (.bool a)] [Γ.Has r (.bool b)]
    (hQ : ∀ v, Q v here (.val v (.bool (a && b)) :: Γ) rs) :
    W.Does (Build.binary here .and l r name) here Γ rs Q :=
  .scalarBinary (m := .bool (a && b)) (.bool a) (.bool b) .bool (fun h => ⟨h, h⟩) (fun _ => rfl) hQ

theorem Does.fmul {x y : F32} [Γ.Has l (.f32 x)] [Γ.Has r (.f32 y)]
    (hQ : ∀ v, Q v here (.val v (.f32 (x.mul y)) :: Γ) rs) :
    W.Does (Build.binary here .fmul l r name) here Γ rs Q :=
  .scalarBinary (m := .f32 (x.mul y)) (.f32 x) (.f32 y) .f32 (fun h => ⟨h, h⟩) (fun _ => rfl) hQ

theorem Does.fadd {x y : F32} [Γ.Has l (.f32 x)] [Γ.Has r (.f32 y)]
    (hQ : ∀ v, Q v here (.val v (.f32 (x.add y)) :: Γ) rs) :
    W.Does (Build.binary here .fadd l r name) here Γ rs Q :=
  .scalarBinary (m := .f32 (x.add y)) (.f32 x) (.f32 y) .f32 (fun h => ⟨h, h⟩) (fun _ => rfl) hQ

/-! ## Comparisons and choices -/

/-- Integers are compared as remainders by the range. -/
theorem Does.ult {sc : Scalar} {a b : Int} [Γ.Has l (.int sc a)] [Γ.Has r (.int sc b)]
    (hQ : ∀ v, Q v here (.val v (.bool (decide
      (a % (2 ^ sc.bits : Nat) < b % (2 ^ sc.bits : Nat)))) :: Γ) rs) :
    W.Does (Build.icmp here .ult l r name) here Γ rs Q := by
  refine .result rfl (fun _ h => by cases h) (fun {s s' ρ i ty} he hρ => ?_) hQ
  obtain ⟨t, ht, hsc, hs⟩ := hρ.fits l
  obtain ⟨t', sc', lanes, hpair, _, hty⟩ := Typing.resultTy_icmp.mp he.typed
  obtain ⟨hl', _, hsv⟩ := Typing.operandPair_iff.mp hpair
  rw [ht] at hl'
  cases hl'
  have hlanes : lanes = none := by
    rcases Typing.scalarOrVector_eq_ok.mp hsv with ⟨_, h⟩ | ⟨n, h, _⟩
    · exact h
    · rw [hsc] at h
      cases h
  have hel : W.types.elementScalar? (W.func.tyOf l) = some sc := by
    rw [he.tyOf_eq ht]
    exact TypeTable.elementScalar_of_scalar (he.extends_final.shape_eq hsc (by simp))
  refine ⟨⟨[], .pure ?_⟩, ?_⟩
  · have hpos : (0 : Int) < (2 ^ sc.bits : Nat) := Int.ofNat_lt.mpr (Nat.two_pow_pos _)
    have ha := Int.emod_nonneg a (Int.ne_of_gt hpos)
    have hb := Int.emod_nonneg b (Int.ne_of_gt hpos)
    simp only [pureResult, hel, hρ.value_eq l, hρ.value_eq r, Meaning.datum, lanewise,
      IntPredicate.apply, Datum.asInt, toOption_eq_some]
    show Except.ok (Datum.bool (decide (sc.lowBits (sc.wrap a) < sc.lowBits (sc.wrap b)))) = _
    rw [hs.lowBits_wrap, hs.lowBits_wrap]
    congr 3
    exact propext (by omega)
  · rw [Meaning.OfType, he.shape_eq, ← hty, hlanes]
    rfl

theorem Does.fcmp {pred : FloatPredicate} {x y : F32} [Γ.Has l (.f32 x)] [Γ.Has r (.f32 y)]
    (hQ : ∀ v, Q v here (.val v (.bool (pred.holds x y)) :: Γ) rs) :
    W.Does (Build.fcmp here pred l r name) here Γ rs Q := by
  refine .result rfl (fun _ h => by cases h) (fun {s s' ρ i ty} he hρ => ?_) hQ
  obtain ⟨t, ht, hsc⟩ := hρ.fits l
  obtain ⟨t', sc', lanes, hpair, _, hty⟩ := Typing.resultTy_fcmp.mp he.typed
  obtain ⟨hl', _, hsv⟩ := Typing.operandPair_iff.mp hpair
  rw [ht] at hl'
  cases hl'
  have hlanes : lanes = none := by
    rcases Typing.scalarOrVector_eq_ok.mp hsv with ⟨_, h⟩ | ⟨n, h, _⟩
    · exact h
    · rw [hsc] at h
      cases h
  refine ⟨⟨[], .pure ?_⟩, ?_⟩
  · simp only [pureResult, hρ.value_eq l, hρ.value_eq r]
    rfl
  · rw [Meaning.OfType, he.shape_eq, ← hty, hlanes]
    rfl

end

/-- A choice between operands of one type. -/
theorem Does.select {c x y : Operand} {b : Bool} {mₓ mᵧ : Meaning} [Γ.Has c (.bool b)]
    [Γ.Has x mₓ] [Γ.Has y mᵧ] (hQ : ∀ v, Q v here (.val v (if b then mₓ else mᵧ) :: Γ) rs) :
    W.Does (Build.select here c x y name) here Γ rs Q := by
  refine .result rfl (fun _ h => by cases h) (fun {s s' ρ i ty} he hρ => ?_) hQ
  obtain ⟨t, ht, hx⟩ := hρ.fits x
  obtain ⟨t', ht', hy⟩ := hρ.fits y
  obtain ⟨vt, ct, lanes, hxt, hyt, _, _, _, hty⟩ := Typing.resultTy_select.mp he.typed
  rw [ht] at hxt
  rw [ht'] at hyt
  cases hxt
  cases hyt
  refine ⟨⟨[], .pure ?_⟩, he.ofType hty ?_⟩
  · simp only [pureResult, hρ.value_eq c, hρ.value_eq x, hρ.value_eq y]
    cases b <;> rfl
  · cases b
    · exact hy
    · exact hx

theorem Does.selectInt {c x y : Operand} {b : Bool} {sc : Scalar} {k n : Int} [Γ.Has c (.bool b)]
    [Γ.Has x (.int sc k)] [Γ.Has y (.int sc n)]
    (hQ : ∀ v, Q v here (.val v (.int sc (if b then k else n)) :: Γ) rs) :
    W.Does (Build.select here c x y name) here Γ rs Q :=
  .select fun v => by cases b <;> exact hQ v

theorem Does.selectF32 {c x y : Operand} {b : Bool} {a d : F32} [Γ.Has c (.bool b)]
    [Γ.Has x (.f32 a)] [Γ.Has y (.f32 d)]
    (hQ : ∀ v, Q v here (.val v (.f32 (if b then a else d)) :: Γ) rs) :
    W.Does (Build.select here c x y name) here Γ rs Q :=
  .select fun v => by cases b <;> exact hQ v

/-! ## Addresses and memory -/

/-- The address of an element.  The index must be in the range of its type. -/
theorem Does.gep {b x : Operand} {p : Pointer} {sc : Scalar} {n : Int} [Γ.Has b (.ptr none p)]
    [Γ.Has x (.int sc n)] (hlo : -(2 ^ sc.bits : Nat) ≤ n * 2) (hhi : n * 2 < (2 ^ sc.bits : Nat))
    (hok : ∀ {s : Site} {ρ : Values}, W.Knows s ρ Γ → W.ok (W.value ρ) b x)
    (hQ : ∀ v, Q v here (.val v (.ptr none (p.element n)) :: Γ) rs) :
    W.Does (Build.gep here b x name) here Γ rs Q := by
  refine .result rfl (fun {s ρ b' x'} hρ h => ?_) (fun {s s' ρ i ty} he hρ => ?_) hQ
  · cases h
    exact hok hρ
  obtain ⟨t, ht, hp⟩ := hρ.fits b
  have hty := he.ofType (m := .ptr none (p.element n)) (Typing.ty_of_gep he.typed ht) hp
  obtain ⟨u, hu, hu'⟩ := hty.extends he.final.types
  have hpointee : W.types.pointee? (W.func.inst i).ty = some u := TypeTable.pointee_eq_some.mpr hu
  have hsize : W.types.paddedSize u = 4 := TypeTable.paddedSize_of_scalar hu'
  refine ⟨⟨[], .pure ?_⟩, hty⟩
  simp only [pureResult, hρ.value_eq b, hρ.value_eq x, Meaning.datum, hpointee, hsize,
    Scalar.wrap_eq_ofInt hlo hhi, Pointer.element, Int.mul_comm 4, Int64.ofInt_mul]
  rfl

/-- A load of a number. -/
theorem Does.load {p : Operand} {q : Pointer} [Γ.Has p (.ptr none q)] (hin : InBounds rs q 4)
    (hQ : ∀ v, Q v here (.val v (.f32 (cellAt rs q)) :: Γ) rs) :
    W.Does (Build.load here p name) here Γ rs Q := by
  refine .result rfl (fun _ h => by cases h) (fun {s s' ρ i ty} he hρ => ?_) hQ
  obtain ⟨t, ht, u, hu, hu'⟩ := hρ.fits p
  have hty := he.ofType (m := .f32 (cellAt rs q)) (Typing.ty_of_load he.typed ht hu) hu'
  refine ⟨⟨[], .load (hρ.value_eq p) ?_⟩, hty⟩
  have hshape : W.types.shape (W.func.inst i).ty = .scalar .f32 := hty.extends he.final.types
  rw [Memory.load, hshape]
  exact loadScalar_cell hin

/-- A store of a number. -/
theorem Does.store {v p : Operand} {x : F32} {q : Pointer} [Γ.Has v (.f32 x)]
    [Γ.Has p (.ptr none q)] {Q : Unit → BlockId → Facts → Array Region → Prop}
    (hin : InBounds rs q 4) (hQ : Q () here Γ (storeCell rs q x)) :
    W.Does (Build.store here v p) here Γ rs Q := by
  refine .effect rfl (fun _ _ h => by cases h) (fun he hρ => ?_) hQ
  refine ⟨[cellChunk q x], .store (hρ.value_eq p) (hρ.value_eq v) rfl fun c hc => ?_⟩
  rw [List.mem_singleton.mp hc]
  exact fits_cellChunk hin x

/-- A stack slot for a number. -/
theorem Does.alloca {t : TyId} {align : Nat} [Γ.Shaped t (.scalar .f32)]
    (hQ : ∀ v, Q v here (.val v (.ptr none ⟨rs.size, 0⟩) :: Γ) (rs.push (Array.replicate 4 0))) :
    W.Does (Build.alloca here t align name) here Γ rs Q := by
  refine .result rfl (fun _ h => by cases h) (fun {s s' ρ i ty} he hρ => ?_) hQ
  have hshape := hρ.shape_eq t
  have hsize : W.types.paddedSize t = 4 :=
    TypeTable.paddedSize_of_scalar (he.extends_final.shape_eq hshape (by simp))
  refine ⟨⟨[], hsize ▸ .alloca⟩, t, ?_, he.grows.types.shape_eq hshape (by simp)⟩
  rw [he.shape_eq, ← Except.ok.inj he.typed]
  rfl

/-- An array is taken for its elements. -/
theorem Does.bitcast {v : Operand} {length : Option Nat} {p : Pointer} {t u : TyId}
    [Γ.Has v (.ptr length p)] [Γ.Shaped t (.pointer u)] [Γ.Shaped u (.scalar .f32)]
    (hQ : ∀ v, Q v here (.val v (.ptr none p) :: Γ) rs) :
    W.Does (Build.bitcast here v t name) here Γ rs Q := by
  refine .result rfl (fun _ h => by cases h) (fun {s s' ρ i ty} he hρ => ?_) hQ
  have hty : s.types.ty t = ty := Typing.ty_of_bitcast he.typed
  exact ⟨⟨[], .pure (hρ.value_eq v)⟩, he.ofType hty ⟨u, hρ.shape_eq t, hρ.shape_eq u⟩⟩

/-! ## Types, constants and blocks -/

theorem Does.intern {sh : Shape} (hsh : sh ≠ .void)
    {Q : TyId → BlockId → Facts → Array Region → Prop} (hQ : ∀ t, Q t here (.shape t sh :: Γ) rs) :
    W.Does (Build.intern sh) here Γ rs Q := by
  refine .of_static (fun t => [.shape t sh]) (fun {s s' t} hs ht => ?_) hQ
  obtain ⟨rfl, rfl⟩ := Build.internTy_eq_ok.mp ht
  refine ⟨⟨⟨s.types.extends_insert _, .refl _⟩, ⟨hs.listed, hs.lt⟩, fun _ _ _ => rfl,
    fun _ _ => rfl, .inl rfl⟩, rfl, fun _ {ρ} _ e he => ?_⟩
  rw [List.mem_singleton.mp he]
  exact ⟨s.types.shape_intern sh, hsh⟩

/-- A constant has the meaning of its literal. -/
theorem Does.constant {sc : Scalar} {l : Literal}
    (hm : ∀ {tt t}, TypeTable.shape tt t = .scalar sc → m.OfType tt t) (hv : l.datum sc = m.datum)
    (hQ : ∀ v, Q v here (.val v m :: Γ) rs) : W.Does (Build.constant sc l) here Γ rs Q := by
  refine .of_static (fun v => [.val v m]) (fun {s s' v} hs hv' => ?_) hQ
  obtain ⟨rfl, rfl⟩ := Build.constant_eq_ok.mp hv'
  have hshape := s.types.shape_intern (.scalar sc)
  refine ⟨⟨⟨s.types.extends_intern _, s.func.grows_addConstant _ _⟩, ⟨hs.listed, hs.lt⟩,
    fun _ _ _ => rfl, fun _ _ => rfl, .inl rfl⟩, rfl, fun hg {ρ} _ e he => ?_⟩
  rw [List.mem_singleton.mp he]
  refine ⟨⟨_, s.func.operandTy_addConstant _ _, hm hshape⟩, ?_⟩
  have hconst : W.func.constants[s.func.constants.size]? =
      some ⟨(s.types.intern (.scalar sc)).1, l⟩ := hg.func.constant_eq _ _ (by simp)
  have hel : W.types.elementScalar? (s.types.intern (.scalar sc)).1 = some sc :=
    TypeTable.elementScalar_of_scalar (hg.types.shape_eq hshape (by simp))
  rw [← hv]
  cases l <;> simp [value, Func.value, Func.constantValue, hconst, hel, Literal.datum]

theorem Does.int {sc : Scalar} (hsc : sc.IsSigned) {v : Int64} {n : Int} (hn : v.toInt = n)
    (hQ : ∀ o, Q o here (.val o (.int sc n) :: Γ) rs) : W.Does (Build.int sc v) here Γ rs Q :=
  .constant (m := .int sc n) (fun h => ⟨h, hsc⟩)
    (congrArg Datum.int (hn ▸ hsc.normalize_eq v)) hQ

theorem Does.f32 {x : F32} (hQ : ∀ v, Q v here (.val v (.f32 x) :: Γ) rs) :
    W.Does (Build.f32 x) here Γ rs Q := .constant (m := .f32 x) id rfl hQ

end World

end LoopNest
