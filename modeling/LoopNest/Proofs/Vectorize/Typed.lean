import LoopNest.Proofs.Typing.Rules
import LoopNest.Proofs.Vectorize.Lowered

/-!
# Types of widened instructions

A widened instruction takes vectors where the old one took scalars, and gives a vector where the
old one gave a scalar (`resultTy_widen`).  The pointers of loads and stores stay, and a vector fits
a pointer to its lanes.
-/

namespace LoopNest

namespace TypeTable

variable {tt : TypeTable}

theorem ty_of_lookup {ty : Ty} {t : TyId} (h : tt.lookup ty = some t) : tt.ty t = ty := by
  unfold TypeTable.ty
  rw [Pool.get?_of_lookup h]
  rfl

end TypeTable

namespace Vectorize

variable {tt : TypeTable} {width : Nat} {t t' u v : TyId}

theorem VectorOf.shape_eq (h : VectorOf tt width t v) (ht : tt.lanes? t = none) :
    ∃ s, tt.shape t = .scalar s ∧ tt.lookup (Shape.vector width s).unnamed = some v ∧
      tt.shape v = .vector width s := by
  obtain ⟨s, hs, hv⟩ := h
  refine ⟨s, ?_, hv, ?_⟩
  · rcases TypeTable.elementScalar_eq_some.mp hs with hs | ⟨n, hs⟩
    · exact hs
    · rw [TypeTable.lanes_eq_some.mpr ⟨s, hs⟩] at ht
      cases ht
  · rw [← TypeTable.shape_ty, TypeTable.ty_of_lookup hv]
    rfl

/-- Types of the same shape have the same vector type. -/
theorem VectorOf.unique (h : VectorOf tt width t u) (h' : VectorOf tt width t' v)
    (hs : tt.shape t = tt.shape t') : u = v := by
  obtain ⟨s, ht, hu⟩ := h
  obtain ⟨s', ht', hv⟩ := h'
  unfold TypeTable.elementScalar? at ht ht'
  rw [hs, ht'] at ht
  cases ht
  exact Option.some.inj (hu.symm.trans hv)

/-- The operands of a widened instruction and what they are replaced by. -/
structure Replaced (tt : TypeTable) (c : Context) (shapes : LaneShapes) (g : Func)
    (σ : Operand → Operand) (v : Operand) : Prop where
  address : laneShape c shapes v = .ok (.address 1) → g.operandTy (σ v) = .ok (c.func.tyOf v)
  vector : laneShape c shapes v = .ok .varying ∨ laneShape c shapes v = .ok .uniform →
    ∃ u, VectorOf tt c.config.width (c.func.tyOf v) u ∧ g.operandTy (σ v) = .ok u

variable {c : Context} {shapes : LaneShapes} {g : Func} {σ : Operand → Operand} {i : InstId}
  {s : LaneShape} {splats : List (Operand × TyId)}

section

open Typing

/-- A scalar fits a pointer to its own type only. -/
theorem eq_of_fitsPointee {e : Scalar} (h : tt.shape t = .scalar e)
    (hfit : fitsPointee tt t u = true) : t = u := by
  unfold fitsPointee at hfit
  simpa [h] using hfit

/-- A vector fits a pointer to its lanes. -/
theorem fitsPointee_vector {n : Nat} {e : Scalar} (h : tt.shape t = .vector n e)
    (hu : tt.shape u = .scalar e) : fitsPointee tt t u = true := by
  simp [fitsPointee, h, hu]

/-- Two operands of one scalar type become two of one vector type. -/
theorem operandPair_widen {l r : Operand} {e : Scalar} {lanes : Option Nat}
    (hold : operandPair tt c.func l r = .ok (t, e, lanes)) (hl : Replaced tt c shapes g σ l)
    (hr : Replaced tt c shapes g σ r)
    (hls : laneShape c shapes l = .ok .varying ∨ laneShape c shapes l = .ok .uniform)
    (hrs : laneShape c shapes r = .ok .varying ∨ laneShape c shapes r = .ok .uniform)
    (hno : tt.lanes? (c.func.tyOf l) = none) :
    tt.shape t = .scalar e ∧ ∃ u, tt.lookup (Shape.vector c.config.width e).unnamed = some u ∧
      operandPair tt g (σ l) (σ r) = .ok (u, e, some c.config.width) := by
  obtain ⟨htl, htr, hsv⟩ := operandPair_eq_ok hold
  obtain ⟨u, hu, hlu⟩ := hl.vector hls
  obtain ⟨u', hu', hru⟩ := hr.vector hrs
  obtain rfl : u = u' := hu.unique hu' (by rw [htl, htr])
  obtain ⟨e', hscalar, hlook, hshape⟩ := hu.shape_eq hno
  rw [htl] at hscalar
  obtain rfl : e' = e := by
    rcases scalarOrVector_eq_ok.mp hsv with ⟨hs, _⟩ | ⟨n, hs, _⟩
    · rw [hscalar] at hs
      exact Shape.scalar.inj hs
    · rw [hscalar] at hs
      cases hs
  exact ⟨hscalar, u, hlook,
    operandPair_iff.mpr ⟨hlu, hru, scalarOrVector_eq_ok.mpr (.inr ⟨_, hshape, rfl⟩)⟩⟩

/-- A load of consecutive elements. -/
theorem resultTy_widen_load {ptr : Operand} {ty : Ty} (hptr : g.operandTy (σ ptr) = .ok (c.func.tyOf ptr))
    (hold : resultTy tt c.func (.load ptr) (some u) = .ok ty) (hvec : VectorOf tt width u t)
    (hno : tt.lanes? u = none) : resultTy tt g (.load (σ ptr)) (some t) = .ok (tt.ty t) := by
  obtain ⟨e, hscalar, _, hvector⟩ := hvec.shape_eq hno
  obtain ⟨pt, target, hpt, htarget, hfit, _⟩ := resultTy_load.mp hold
  rw [tyOf_of_operandTy hpt] at hptr
  obtain rfl := eq_of_fitsPointee hscalar hfit
  exact resultTy_load.mpr ⟨pt, u, hptr, htarget, fitsPointee_vector hvector hscalar, rfl⟩

/-- A store to consecutive elements. -/
theorem resultTy_widen_store {x ptr : Operand} {ty : Ty} {declared : Option TyId}
    (hptr : g.operandTy (σ ptr) = .ok (c.func.tyOf ptr))
    (hold : resultTy tt c.func (.store x ptr) declared = .ok ty)
    (hvec : VectorOf tt width (c.func.tyOf x) t) (hx : g.operandTy (σ x) = .ok t)
    (hno : tt.lanes? (c.func.tyOf x) = none) :
    resultTy tt g (.store (σ x) (σ ptr)) declared = .ok ty := by
  obtain ⟨e, hscalar, _, hvector⟩ := hvec.shape_eq hno
  obtain ⟨pt, target, vt, hpt, htarget, hvt, hfit, rfl⟩ := resultTy_store.mp hold
  rw [tyOf_of_operandTy hpt] at hptr
  rw [tyOf_of_operandTy hvt] at hscalar
  obtain rfl := eq_of_fitsPointee hscalar hfit
  exact resultTy_store.mpr ⟨pt, vt, t, hptr, htarget, hx, fitsPointee_vector hvector hscalar, rfl⟩

/-- An operation that works lane by lane. -/
theorem resultTy_widen_lanewise {op : Op} {ty : Ty} (hop : op.isLanewise = true)
    (hold : resultTy tt c.func op (some u) = .ok ty) (hlook : tt.lookup ty = some u)
    (hno : ∀ v ∈ op.operands, tt.lanes? (c.func.tyOf v) = none)
    (hσ : ∀ v ∈ op.operands, Replaced tt c shapes g σ v)
    (hops : ∀ v ∈ op.operands, laneShape c shapes v = .ok .varying ∨
      laneShape c shapes v = .ok .uniform) {e : Scalar} (hscalar : tt.shape u = .scalar e)
    (hvec : tt.lookup (Shape.vector c.config.width e).unnamed = some t) :
    resultTy tt g (op.mapOperands σ) (some t) = .ok (Shape.vector c.config.width e).unnamed := by
  have hshape := TypeTable.shape_of_lookup hlook
  cases op with
  | binary o l r =>
    obtain ⟨lt, e', lanes, hpair, hadm, rfl⟩ := resultTy_binary.mp hold
    obtain ⟨hlt, v, hv, hpair'⟩ := operandPair_widen hpair (hσ l (by simp [Op.operands]))
      (hσ r (by simp [Op.operands])) (hops l (by simp [Op.operands]))
      (hops r (by simp [Op.operands])) (hno l (by simp [Op.operands]))
    rw [TypeTable.shape_ty, hlt, hscalar] at hshape
    cases hshape
    exact resultTy_binary.mpr ⟨v, e, _, hpair', hadm, TypeTable.ty_of_lookup hv⟩
  | fcmp o l r =>
    obtain ⟨lt, e', lanes, hpair, hfloat, rfl⟩ := resultTy_fcmp.mp hold
    obtain ⟨hlt, v, hv, hpair'⟩ := operandPair_widen hpair (hσ l (by simp [Op.operands]))
      (hσ r (by simp [Op.operands])) (hops l (by simp [Op.operands]))
      (hops r (by simp [Op.operands])) (hno l (by simp [Op.operands]))
    -- Scalars are compared to one truth value.
    have hlanes : lanes = none := by
      rcases scalarOrVector_eq_ok.mp (operandPair_iff.mp hpair).2.2 with ⟨_, hl⟩ | ⟨n, hs, _⟩
      · exact hl
      · rw [hlt] at hs
        cases hs
    rw [hlanes, hscalar] at hshape
    cases hshape
    exact resultTy_fcmp.mpr ⟨v, e', _, hpair', hfloat, rfl⟩
  | select k l r =>
    obtain ⟨vt, ct, lanes, hl, hr, hk, hsv, _, rfl⟩ := resultTy_select.mp hold
    rw [TypeTable.shape_ty, hscalar] at hshape
    obtain ⟨v, hv, hl'⟩ := (hσ l (by simp [Op.operands])).vector (hops l (by simp [Op.operands]))
    obtain ⟨v', hv', hr'⟩ := (hσ r (by simp [Op.operands])).vector (hops r (by simp [Op.operands]))
    obtain ⟨w, hw, hk'⟩ := (hσ k (by simp [Op.operands])).vector (hops k (by simp [Op.operands]))
    obtain rfl := hv.unique hv' (by rw [tyOf_of_operandTy hl, tyOf_of_operandTy hr])
    obtain ⟨e', hs, hlookv, hvector⟩ := hv.shape_eq (hno l (by simp [Op.operands]))
    obtain ⟨b, hb, _, hbools⟩ := hw.shape_eq (hno k (by simp [Op.operands]))
    rw [tyOf_of_operandTy hl, ← hshape] at hs
    cases hs
    obtain rfl : b = .bool := by
      rw [tyOf_of_operandTy hk] at hb
      rcases scalarOrVector_eq_ok.mp hsv with ⟨hs, _⟩ | ⟨n, hs, _⟩
      · rw [hb] at hs
        exact Shape.scalar.inj hs
      · rw [hb] at hs
        cases hs
    refine resultTy_select.mpr ⟨v, w, _, hl', hr', hk',
      scalarOrVector_eq_ok.mpr (.inr ⟨_, hbools, rfl⟩), .inr ?_, TypeTable.ty_of_lookup hlookv⟩
    exact (TypeTable.lanes_eq_some.mpr ⟨_, hvector⟩).symm
  | _ => cases hop

/-- A widened instruction has the type that was planned for it. -/
theorem resultTy_widen (h : Lowers tt c shapes i s (.widen t splats)) {ty : Ty}
    (hold : resultTy tt c.func (c.func.op i) (some (c.func.inst i).ty) = .ok ty)
    (hlook : tt.lookup ty = some (c.func.inst i).ty)
    (hty : tt.lanes? (c.func.inst i).ty = none)
    (hno : ∀ v ∈ (c.func.op i).operands, tt.lanes? (c.func.tyOf v) = none)
    (hσ : ∀ v ∈ (c.func.op i).operands, Replaced tt c shapes g σ v) :
    ∃ ty', resultTy tt g ((c.func.op i).mapOperands σ) (some t) = .ok ty' ∧
      tt.lookup ty' = some t := by
  cases h with
  | load hop hptr hvec =>
    obtain ⟨e, _, hlook', _⟩ := hvec.shape_eq hty
    rw [hop] at hold hσ ⊢
    refine ⟨tt.ty t, resultTy_widen_load ((hσ _ (by simp [Op.operands])).address hptr) hold hvec hty, ?_⟩
    rw [TypeTable.ty_of_lookup hlook', hlook']
  | store hop hptr hvec hv =>
    rw [hop] at hold hσ hno ⊢
    obtain ⟨u, hu, hx⟩ := (hσ _ (by simp [Op.operands])).vector (hv.imp And.left And.left)
    exact ⟨ty, resultTy_widen_store ((hσ _ (by simp [Op.operands])).address hptr) hold hu hx
      (hno _ (by simp [Op.operands])), hlook⟩
  | lanewise hop hvec hops hsplats =>
    obtain ⟨e, hscalar, hlook', _⟩ := hvec.shape_eq hty
    exact ⟨_, resultTy_widen_lanewise hop hold hlook hno hσ
      (fun v hv => (hops v hv).imp_right And.left) hscalar hlook', hlook'⟩

end

end Vectorize

end LoopNest
