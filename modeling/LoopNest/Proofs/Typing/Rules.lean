import LoopNest.Proofs.Typing

/-!
# Typing rules

What it takes for an operation to have a type, one rule for each operation.  The rules are
equivalences, so they serve to invert the check and to pass it.
-/

namespace LoopNest

/-- The scalars that an operator works on. -/
def BinaryOp.admits (o : BinaryOp) (s : Scalar) : Bool :=
  if o.isFloat then s.isFloat else s.isInteger || s.kind == .bool

namespace Typing

variable {tt : TypeTable} {f : Func} {t : TyId} {ty : Ty} {declared : Option TyId}

theorem allOf_eq_ok : ∀ {vs : List Operand}, allOf tt f t vs = .ok () ↔
    ∀ v ∈ vs, f.operandTy v = .ok t
  | [] => by simp [allOf]
  | v :: vs => by
    simp only [allOf, bind_eq_ok_iff, same_eq_ok, List.mem_cons, forall_eq_or_imp, allOf_eq_ok]
    constructor
    · rintro ⟨_, hv, _, rfl, hvs⟩
      exact ⟨hv, hvs⟩
    · rintro ⟨hv, hvs⟩
      exact ⟨t, hv, (), rfl, hvs⟩

theorem operandPair_iff {l r : Operand} {s : Scalar} {lanes : Option Nat} :
    operandPair tt f l r = .ok (t, s, lanes) ↔
      f.operandTy l = .ok t ∧ f.operandTy r = .ok t ∧ scalarOrVector tt t = .ok (s, lanes) := by
  simp only [operandPair, bind_eq_ok_iff, same_eq_ok]
  constructor
  · rintro ⟨_, hl, _, hr, _, rfl, _, hsv, heq⟩
    cases heq
    exact ⟨hl, hr, hsv⟩
  · rintro ⟨hl, hr, hsv⟩
    exact ⟨t, hl, t, hr, (), rfl, _, hsv, rfl⟩

/-- A check at the end of a rule. -/
theorem ite_mismatch_eq_ok {ok : Bool} {what : String} {ty' : Ty} :
    (if ok = true then pure ty' else mismatch tt what t : Except BuildError Ty) = .ok ty ↔
      ok = true ∧ ty' = ty := by
  cases ok <;> simp [mismatch, pure, Except.pure]

theorem resultTy_load {p : Operand} : resultTy tt f (.load p) (some t) = .ok ty ↔
    ∃ pt target, f.operandTy p = .ok pt ∧ tt.shape pt = .pointer target ∧
      fitsPointee tt t target = true ∧ tt.ty t = ty := by
  simp only [resultTy, bind_eq_ok_iff, pointee_eq_ok, Option.getD_some, ite_mismatch_eq_ok]
  constructor
  · rintro ⟨pt, hp, u, hu, h⟩
    exact ⟨pt, u, hp, hu, h⟩
  · rintro ⟨pt, u, hp, hu, h⟩
    exact ⟨pt, hp, u, hu, h⟩

theorem resultTy_store {v p : Operand} : resultTy tt f (.store v p) declared = .ok ty ↔
    ∃ pt target vt, f.operandTy p = .ok pt ∧ tt.shape pt = .pointer target ∧
      f.operandTy v = .ok vt ∧ fitsPointee tt vt target = true ∧ void = ty := by
  simp only [resultTy, bind_eq_ok_iff, pointee_eq_ok, ite_mismatch_eq_ok]
  constructor
  · rintro ⟨pt, hp, u, hu, vt, hv, h⟩
    exact ⟨pt, u, vt, hp, hu, hv, h⟩
  · rintro ⟨pt, u, vt, hp, hu, hv, h⟩
    exact ⟨pt, hp, u, hu, vt, hv, h⟩

theorem resultTy_gep {b i : Operand} : resultTy tt f (.gep b i) declared = .ok ty ↔
    ∃ bt target it s, f.operandTy b = .ok bt ∧ tt.shape bt = .pointer target ∧
      f.operandTy i = .ok it ∧ tt.shape it = .scalar s ∧ s.isInteger = true ∧ tt.ty bt = ty := by
  simp only [resultTy, bind_eq_ok_iff, pointee_eq_ok]
  constructor
  · rintro ⟨bt, hb, u, hu, it, hi, h⟩
    cases hs : tt.shape it with
    | scalar s =>
      rw [hs] at h
      obtain ⟨hint, h⟩ := ite_mismatch_eq_ok.mp h
      exact ⟨bt, u, it, s, hb, hu, hi, hs, hint, h⟩
    | _ =>
      rw [hs] at h
      cases h
  · rintro ⟨bt, u, it, s, hb, hu, hi, hs, hint, h⟩
    refine ⟨bt, hb, u, hu, it, hi, ?_⟩
    rw [hs]
    exact ite_mismatch_eq_ok.mpr ⟨hint, h⟩

theorem resultTy_binary {o : BinaryOp} {l r : Operand} :
    resultTy tt f (.binary o l r) declared = .ok ty ↔
      ∃ t s lanes, operandPair tt f l r = .ok (t, s, lanes) ∧ o.admits s = true ∧ tt.ty t = ty := by
  simp only [resultTy, bind_eq_ok_iff, BinaryOp.admits, Prod.exists]
  cases o.isFloat <;> simp only [if_true, Bool.false_eq_true, if_false, ite_mismatch_eq_ok]

theorem resultTy_icmp {o : IntPredicate} {l r : Operand} :
    resultTy tt f (.icmp o l r) declared = .ok ty ↔ ∃ t s lanes,
      operandPair tt f l r = .ok (t, s, lanes) ∧ s.isInteger = true ∧ boolLike lanes = ty := by
  simp only [resultTy, bind_eq_ok_iff, Prod.exists, ite_mismatch_eq_ok]

theorem resultTy_fcmp {o : FloatPredicate} {l r : Operand} :
    resultTy tt f (.fcmp o l r) declared = .ok ty ↔ ∃ t s lanes,
      operandPair tt f l r = .ok (t, s, lanes) ∧ s.isFloat = true ∧ boolLike lanes = ty := by
  simp only [resultTy, bind_eq_ok_iff, Prod.exists, ite_mismatch_eq_ok]

theorem resultTy_select {c x y : Operand} :
    resultTy tt f (.select c x y) declared = .ok ty ↔ ∃ vt ct lanes, f.operandTy x = .ok vt ∧
      f.operandTy y = .ok vt ∧ f.operandTy c = .ok ct ∧
      scalarOrVector tt ct = .ok (.bool, lanes) ∧ (lanes = none ∨ lanes = tt.lanes? vt) ∧
      tt.ty vt = ty := by
  simp only [resultTy, bind_eq_ok_iff, same_eq_ok, Prod.exists, ite_mismatch_eq_ok]
  simp only [Bool.and_eq_true, beq_iff_eq, Bool.or_eq_true, Option.isNone_iff_eq_none]
  constructor
  · rintro ⟨vt, hx, _, hy, _, rfl, ct, hc, s, lanes, hsv, ⟨rfl, hl⟩, h⟩
    exact ⟨vt, ct, lanes, hx, hy, hc, hsv, hl, h⟩
  · rintro ⟨vt, ct, lanes, hx, hy, hc, hsv, hl, h⟩
    exact ⟨vt, hx, vt, hy, (), rfl, ct, hc, .bool, lanes, hsv, ⟨rfl, hl⟩, h⟩

theorem resultTy_phi {incoming : List (Operand × BlockId)} :
    resultTy tt f (.phi incoming) (some t) = .ok ty ↔
      (∀ v ∈ incoming.map Prod.fst, f.operandTy v = .ok t) ∧ tt.ty t = ty := by
  simp only [resultTy, declaredTy, bind_eq_ok_iff]
  constructor
  · rintro ⟨_, ⟨⟩, _, hall, h⟩
    exact ⟨allOf_eq_ok.mp hall, Except.ok.inj h⟩
  · rintro ⟨hall, rfl⟩
    exact ⟨t, rfl, (), allOf_eq_ok.mpr hall, rfl⟩

theorem resultTy_bitcast {v : Operand} : resultTy tt f (.bitcast v) (some t) = .ok ty ↔
    ∃ vt u target, f.operandTy v = .ok vt ∧ tt.shape vt = .pointer u ∧
      tt.shape t = .pointer target ∧ tt.ty t = ty := by
  simp only [resultTy, declaredTy, bind_eq_ok_iff, pointee_eq_ok]
  constructor
  · rintro ⟨_, ht, vt, hv, u, hu, target, htarget, heq⟩
    cases ht
    exact ⟨vt, u, target, hv, hu, htarget, Except.ok.inj heq⟩
  · rintro ⟨vt, u, target, hv, hu, htarget, rfl⟩
    exact ⟨t, rfl, vt, hv, u, hu, target, htarget, rfl⟩

theorem resultTy_splat {v : Operand} : resultTy tt f (.splat v) (some t) = .ok ty ↔
    ∃ vt s n, f.operandTy v = .ok vt ∧ tt.shape vt = .scalar s ∧ tt.shape t = .vector n s ∧
      tt.ty t = ty := by
  simp only [resultTy, declaredTy, bind_eq_ok_iff]
  constructor
  · rintro ⟨_, ⟨⟩, vt, hv, h⟩
    split at h
    · rename_i s n e hs he
      split at h
      · rename_i heq
        subst heq
        exact ⟨vt, s, n, hv, hs, he, Except.ok.inj h⟩
      · cases h
    · cases h
  · rintro ⟨vt, s, n, hv, hs, he, rfl⟩
    refine ⟨t, rfl, vt, hv, ?_⟩
    simp only [hs, he, if_true]
    rfl

theorem resultTy_condBr {c : Operand} {x y : BlockId} :
    resultTy tt f (.condBr c x y) declared = .ok ty ↔
      ∃ ct, f.operandTy c = .ok ct ∧ tt.shape ct = .scalar .bool ∧ void = ty := by
  simp only [resultTy, bind_eq_ok_iff]
  refine exists_congr fun ct => and_congr_right fun _ => ?_
  split
  · rename_i hs
    simp [hs, pure, Except.pure]
  · rename_i hs
    simp [hs, mismatch]

theorem resultTy_ret {v : Operand} : resultTy tt f (.ret (some v)) declared = .ok ty ↔
    f.operandTy v = .ok f.ret ∧ void = ty := by
  simp only [resultTy, bind_eq_ok_iff, same_eq_ok]
  constructor
  · rintro ⟨_, hv, _, rfl, heq⟩
    exact ⟨hv, Except.ok.inj heq⟩
  · rintro ⟨hv, rfl⟩
    exact ⟨_, hv, (), rfl, rfl⟩

end Typing

end LoopNest
