import LoopNest.Proofs.Machine.Extends
import LoopNest.Proofs.Verified

/-!
# Types of values

`Op.Typed` says how the types of a scalar operation and of its operands belong together, in
terms of their shapes.  It follows from verification (`Typing.typed_of_resultTy`).
-/

namespace LoopNest

/-! ## Types of operands -/

namespace Typing

variable {tt : TypeTable} {f : Func}

theorem same_eq_ok {t t' : TyId} {u : Unit} : same tt t t' = .ok u ↔ t = t' := by
  unfold same mismatch
  split <;> simp_all

theorem tyOf_of_operandTy {v : Operand} {t : TyId} (h : f.operandTy v = .ok t) : f.tyOf v = t := by
  simp [Func.tyOf, h]

theorem tyOf_of_allOf {t : TyId} : ∀ {vs : List Operand}, allOf tt f t vs = .ok () →
    ∀ v ∈ vs, f.tyOf v = t
  | [], _, v, hv => absurd hv List.not_mem_nil
  | w :: ws, h, v, hv => by
    simp only [allOf, bind_eq_ok_iff, same_eq_ok] at h
    obtain ⟨t', ht', _, rfl, hrest⟩ := h
    rcases List.mem_cons.mp hv with rfl | hv
    · exact tyOf_of_operandTy ht'
    · exact tyOf_of_allOf hrest v hv

theorem scalarOrVector_eq_ok {t : TyId} {s : Scalar} {lanes : Option Nat} :
    scalarOrVector tt t = .ok (s, lanes) ↔
      tt.shape t = .scalar s ∧ lanes = none ∨ ∃ n, tt.shape t = .vector n s ∧ lanes = some n := by
  unfold scalarOrVector mismatch
  cases tt.shape t <;> simp [eq_comm]

theorem operandPair_eq_ok {l r : Operand} {t : TyId} {s : Scalar} {lanes : Option Nat}
    (h : operandPair tt f l r = .ok (t, s, lanes)) :
    f.tyOf l = t ∧ f.tyOf r = t ∧ scalarOrVector tt t = .ok (s, lanes) := by
  simp only [operandPair, bind_eq_ok_iff, same_eq_ok] at h
  obtain ⟨lt, hl, rt, hr, _, rfl, ⟨s', lanes'⟩, hsv, heq⟩ := h
  cases heq
  exact ⟨tyOf_of_operandTy hl, tyOf_of_operandTy hr, hsv⟩

theorem pointee_eq_ok {t u : TyId} : pointee tt t = .ok u ↔ tt.shape t = .pointer u := by
  rw [← TypeTable.pointee_eq_some]
  unfold pointee mismatch
  cases tt.pointee? t <;> simp

section

variable {f' : Func} (hop : f'.operandTy = f.operandTy)

include hop

theorem allOf_congr (t : TyId) : ∀ vs : List Operand, allOf tt f' t vs = allOf tt f t vs
  | [] => rfl
  | v :: vs => by simp only [allOf, hop, allOf_congr t vs]

theorem allTyped_congr : ∀ vs : List Operand, allTyped f' vs = allTyped f vs
  | [] => rfl
  | v :: vs => by simp only [allTyped, hop, allTyped_congr vs]

/-- Typing looks at the types of the operands and at the type of the result. -/
theorem resultTy_congr (hret : f'.ret = f.ret) (op : Op) (declared : Option TyId) :
    resultTy tt f' op declared = resultTy tt f op declared := by
  cases op with
  | ret v => cases v <;> simp only [resultTy, hop, hret]
  | _ => simp only [resultTy, operandPair, hop, allOf_congr hop, allTyped_congr hop]

end

theorem resultTy_retarget (a b : BlockId) (op : Op) (declared : Option TyId) :
    resultTy tt f (op.retarget a b) declared = resultTy tt f op declared := by
  cases op <;> rfl

theorem resultTy_renameIncoming (a b : BlockId) (op : Op) (declared : Option TyId) :
    resultTy tt f (Func.renameIncoming a b op) declared = resultTy tt f op declared := by
  cases op with
  | phi incoming => simp [Func.renameIncoming, resultTy, Function.comp_def]
  | _ => rfl

end Typing

namespace Func

variable {tt : TypeTable} {f : Func} {b : BlockId} {i : InstId}

/-- A phi and what it takes have one type. -/
theorem WellTyped.tyOf_incoming (hty : f.WellTyped tt) (hb : b ∈ f.layout) (hi : i ∈ f.body b)
    {q : BlockId} {v : Operand} (hv : f.incoming? i q = some v) : f.tyOf v = (f.inst i).ty := by
  obtain ⟨ty, hres, _⟩ := hty b hb i hi
  unfold incoming? at hv
  split at hv
  · rename_i incoming hop
    obtain ⟨e, hfind, rfl⟩ := Option.map_eq_some_iff.mp hv
    rw [hop] at hres
    simp only [Typing.resultTy, Typing.declaredTy, bind_eq_ok_iff] at hres
    obtain ⟨t, ht, _, hall, _⟩ := hres
    cases ht
    exact Typing.tyOf_of_allOf hall _ (List.mem_map_of_mem (List.mem_of_find?_eq_some hfind))
  · cases hv

/-- The operands of a comparison have one type. -/
theorem WellTyped.tyOf_icmp (hty : f.WellTyped tt) (hb : b ∈ f.layout) (hi : i ∈ f.body b)
    {pred : IntPredicate} {l r : Operand} (hop : f.op i = .icmp pred l r) : f.tyOf l = f.tyOf r := by
  obtain ⟨ty, hres, _⟩ := hty b hb i hi
  rw [hop] at hres
  simp only [Typing.resultTy, bind_eq_ok_iff] at hres
  obtain ⟨⟨t, s, lanes⟩, hpair, _⟩ := hres
  obtain ⟨hl, hr, _⟩ := Typing.operandPair_eq_ok hpair
  rw [hl, hr]

theorem tyOf_inst (f : Func) (i : InstId) : f.tyOf (.inst i) = (f.inst i).ty := by
  simp only [tyOf, operandTy, inst]
  cases f.insts[i]? <;> rfl

/-- The value of an integer literal. -/
theorem value_of_intLiteral {args : List Datum} {ρ : Values} {v : Operand} {n : Int64}
    (h : f.intLiteral? v = some n) :
    f.value tt args ρ v = (tt.elementScalar? (f.tyOf v)).map fun s => .int (s.normalize n) := by
  cases v with
  | const c =>
    simp only [intLiteral?, literal?] at h
    simp only [value, constantValue, tyOf, operandTy]
    cases hc : f.constants[c]? with
    | none => simp [hc] at h
    | some k =>
      obtain ⟨ty, lit⟩ := k
      cases lit with
      | int m =>
        simp only [hc, Option.map_some, Option.some.injEq] at h
        simp [h]
      | bool b => simp [hc] at h
      | f32 x => simp [hc] at h
  | inst i => simp [intLiteral?, literal?] at h
  | param k => simp [intLiteral?, literal?] at h

end Func

/-! ## Typed operations -/

/-- How the types of an operation without vectors belong together. -/
def Op.Typed (tt : TypeTable) (tyOf : Operand → TyId) (ty : TyId) : Op → Prop
  | .alloca t _ => tt.shape ty = .pointer t
  | .load p => tt.shape (tyOf p) = .pointer ty
  | .store v p => tt.shape (tyOf p) = .pointer (tyOf v) ∧ tt.shape ty = .void
  | .gep b _ => tt.shape (tyOf b) = tt.shape ty ∧ ∃ t, tt.shape ty = .pointer t
  | .binary o l r => tyOf r = tyOf l ∧ tt.shape (tyOf l) = tt.shape ty ∧ ∃ s,
    tt.shape ty = .scalar s ∧
      if o.isFloat then s.isFloat = true else s.isInteger = true ∨ s.kind = .bool
  | .icmp _ l r => tyOf r = tyOf l ∧ (∃ s, tt.shape (tyOf l) = .scalar s ∧ s.isInteger = true) ∧
    tt.shape ty = .scalar .bool
  | .fcmp _ l r => tyOf r = tyOf l ∧ (∃ s, tt.shape (tyOf l) = .scalar s ∧ s.isFloat = true) ∧
    tt.shape ty = .scalar .bool
  | .select c t e => tyOf e = tyOf t ∧ tt.shape (tyOf t) = tt.shape ty ∧
    tt.shape (tyOf c) = .scalar .bool
  | .phi incoming => ∀ e ∈ incoming, tyOf e.1 = ty
  | .bitcast v => (∃ t, tt.shape (tyOf v) = .pointer t) ∧ ∃ t, tt.shape ty = .pointer t
  | _ => False

/-- The type of what a load reads or a store writes. -/
def Func.accessTy? (f : Func) (i : InstId) : Option TyId :=
  match f.op i with
  | .load _ => some (f.inst i).ty
  | .store v _ => some (f.tyOf v)
  | _ => none

/-- A type of single-precision numbers or of truth values. -/
def Shape.IsStored (s : Shape) : Prop := s = .scalar .f32 ∨ s = .scalar .bool

instance (s : Shape) : Decidable s.IsStored := inferInstanceAs (Decidable (_ ∨ _))

theorem TypeTable.shape_of_lookup {tt : TypeTable} {ty : Ty} {t : TyId}
    (h : tt.lookup ty = some t) : tt.shape t = ty.shape := by
  unfold shape
  rw [Pool.get?_of_lookup h]

theorem TypeTable.shape_ty (tt : TypeTable) (t : TyId) : (tt.ty t).shape = tt.shape t := by
  unfold ty shape
  cases tt.get? t <;> rfl

namespace Typing

variable {tt : TypeTable} {f : Func}

theorem fitsPointee_iff {t u : TyId} (h : (tt.shape t).IsStored) :
    fitsPointee tt t u = true ↔ t = u := by
  unfold fitsPointee
  rcases h with h | h <;> simp [h]

/-- What verification finds in an operation without vectors. -/
theorem typed_of_resultTy {op : Op} {t : TyId} {ty : Ty}
    (h : resultTy tt f op (some t) = .ok ty) (hl : tt.lookup ty = some t)
    (hno : ∀ n s, tt.shape t ≠ .vector n s) (hterm : op.isTerminator = false)
    (hcall : ∀ c as, op ≠ .call c as) (hload : ∀ p, op = .load p → (tt.shape t).IsStored)
    (hstore : ∀ v p, op = .store v p → (tt.shape (f.tyOf v)).IsStored) :
    op.Typed tt f.tyOf t := by
  have hsh := TypeTable.shape_of_lookup hl
  cases op with
  | alloca u a =>
    cases h
    exact hsh
  | load p =>
    simp only [resultTy, bind_eq_ok_iff, pointee_eq_ok] at h
    obtain ⟨u, hu, target, htarget, hif⟩ := h
    split at hif
    · rename_i hfit
      rw [Op.Typed, tyOf_of_operandTy hu, htarget]
      rw [(fitsPointee_iff (hload p rfl)).mp hfit]
    · cases hif
  | store v p =>
    simp only [resultTy, bind_eq_ok_iff, pointee_eq_ok] at h
    obtain ⟨u, hu, target, htarget, w, hw, hif⟩ := h
    have htv := tyOf_of_operandTy hw
    split at hif
    · rename_i hfit
      cases hif
      rw [Op.Typed, tyOf_of_operandTy hu, htarget, htv,
        (fitsPointee_iff (htv ▸ hstore v p rfl)).mp hfit]
      exact ⟨rfl, hsh⟩
    · cases hif
  | gep b i =>
    simp only [resultTy, bind_eq_ok_iff, pointee_eq_ok] at h
    obtain ⟨u, hu, target, htarget, w, hw, hif⟩ := h
    have hty : ty = tt.ty u := by
      split at hif
      · split at hif
        · cases hif
          rfl
        · cases hif
      · cases hif
    subst hty
    rw [TypeTable.shape_ty] at hsh
    rw [Op.Typed, tyOf_of_operandTy hu]
    exact ⟨hsh.symm, target, hsh.trans htarget⟩
  | binary o l r =>
    simp only [resultTy, bind_eq_ok_iff] at h
    obtain ⟨⟨u, s, lanes⟩, hpair, hif⟩ := h
    obtain ⟨htl, htr, hsv⟩ := operandPair_eq_ok hpair
    have hty : ty = tt.ty u ∧
        if o.isFloat then s.isFloat = true else s.isInteger = true ∨ s.kind = .bool := by
      dsimp only at hif
      split at hif
      · rename_i ho
        split at hif
        · cases hif
          exact ⟨rfl, by simpa [ho]⟩
        · cases hif
      · rename_i ho
        split at hif
        · rename_i hk
          cases hif
          exact ⟨rfl, by simpa [ho] using hk⟩
        · cases hif
    obtain ⟨rfl, hkind⟩ := hty
    rw [TypeTable.shape_ty] at hsh
    rw [Op.Typed, htl, htr]
    rcases scalarOrVector_eq_ok.mp hsv with ⟨hs, _⟩ | ⟨n, hs, _⟩
    · exact ⟨rfl, hsh.symm, s, hsh.trans hs, hkind⟩
    · exact absurd (hsh.trans hs) (hno n s)
  | icmp o l r =>
    simp only [resultTy, bind_eq_ok_iff] at h
    obtain ⟨⟨u, s, lanes⟩, hpair, hif⟩ := h
    obtain ⟨htl, htr, hsv⟩ := operandPair_eq_ok hpair
    dsimp only at hif
    split at hif
    · rename_i hint
      cases hif
      rw [Op.Typed, htl, htr]
      rcases scalarOrVector_eq_ok.mp hsv with ⟨hs, rfl⟩ | ⟨n, hs, rfl⟩
      · exact ⟨rfl, ⟨s, hs, hint⟩, hsh⟩
      · exact absurd hsh (hno n _)
    · cases hif
  | fcmp o l r =>
    simp only [resultTy, bind_eq_ok_iff] at h
    obtain ⟨⟨u, s, lanes⟩, hpair, hif⟩ := h
    obtain ⟨htl, htr, hsv⟩ := operandPair_eq_ok hpair
    dsimp only at hif
    split at hif
    · rename_i hint
      cases hif
      rw [Op.Typed, htl, htr]
      rcases scalarOrVector_eq_ok.mp hsv with ⟨hs, rfl⟩ | ⟨n, hs, rfl⟩
      · exact ⟨rfl, ⟨s, hs, hint⟩, hsh⟩
      · exact absurd hsh (hno n _)
    · cases hif
  | select c v e =>
    simp only [resultTy, bind_eq_ok_iff, same_eq_ok] at h
    obtain ⟨u, hu, w, hw, _, rfl, cond, hcond, ⟨s, lanes⟩, hsv, hif⟩ := h
    dsimp only at hif
    split at hif
    · rename_i hok
      cases hif
      rw [TypeTable.shape_ty] at hsh
      rw [Op.Typed, tyOf_of_operandTy hu, tyOf_of_operandTy hw, tyOf_of_operandTy hcond]
      refine ⟨rfl, hsh.symm, ?_⟩
      simp only [Bool.and_eq_true, beq_iff_eq, Bool.or_eq_true, Option.isNone_iff_eq_none] at hok
      obtain ⟨rfl, hlanes⟩ := hok
      rcases scalarOrVector_eq_ok.mp hsv with ⟨hs, _⟩ | ⟨n, hs, rfl⟩
      · exact hs
      · rcases hlanes with hlanes | hlanes
        · cases hlanes
        · obtain ⟨s', hs'⟩ := TypeTable.lanes_eq_some.mp hlanes.symm
          exact absurd (hsh.trans hs') (hno n s')
    · cases hif
  | phi incoming =>
    simp only [resultTy, declaredTy, bind_eq_ok_iff] at h
    obtain ⟨u, hu, _, hall, _⟩ := h
    cases hu
    exact fun e he => tyOf_of_allOf hall _ (List.mem_map_of_mem he)
  | bitcast v =>
    simp only [resultTy, declaredTy, bind_eq_ok_iff, pointee_eq_ok] at h
    obtain ⟨u, hu, w, hw, p, hp, q, hq, _⟩ := h
    cases hu
    rw [Op.Typed, tyOf_of_operandTy hw]
    exact ⟨⟨p, hp⟩, q, hq⟩
  | splat v =>
    simp only [resultTy, declaredTy, bind_eq_ok_iff] at h
    obtain ⟨u, hu, w, hw, hif⟩ := h
    cases hu
    split at hif
    · rename_i n e _ hv
      exact absurd hv (hno _ _)
    · cases hif
  | call c as => exact absurd rfl (hcall c as)
  | _ => cases hterm

end Typing

end LoopNest
