import LoopNest.Proofs.Typing

/-!
# Typing in a larger type table

Interning more types changes neither the handle of a type (`Extends.lookup_eq`) nor the type of an
operation, as long as it refers to types of the old table (`Typing.resultTy_extends`).  The
operands may be replaced by others of the same types on the way.
-/

namespace LoopNest

namespace TypeTable

variable {tt tt' : TypeTable}

theorem Extends.get?_eq (h : tt.Extends tt') {t : TyId} (ht : t < tt.size) :
    tt'.get? t = tt.get? t := by
  obtain ⟨ty, hty⟩ := lt_size_iff.mp ht
  rw [hty, h t ty hty]

theorem Extends.ty_eq (h : tt.Extends tt') {t : TyId} (ht : t < tt.size) : tt'.ty t = tt.ty t := by
  unfold ty
  rw [h.get?_eq ht]

theorem lookup_lt {ty : Ty} {t : TyId} (h : tt.lookup ty = some t) : t < tt.size :=
  lt_size_iff.mpr ⟨ty, Pool.get?_of_lookup h⟩

/-- The handle of a type is the first one that holds it. -/
theorem lookup_eq_some_iff {ty : Ty} {t : TyId} :
    tt.lookup ty = some t ↔ tt.get? t = some ty ∧ ∀ u < t, tt.get? u ≠ some ty := by
  unfold Pool.lookup Pool.get?
  rw [Array.findIdx?_eq_some_iff_getElem]
  simp only [decide_eq_true_eq]
  constructor
  · rintro ⟨hlt, heq, hmin⟩
    refine ⟨by rw [Array.getElem?_eq_getElem hlt, heq], fun u hu hget => ?_⟩
    rw [Array.getElem?_eq_getElem (Nat.lt_trans hu hlt)] at hget
    exact hmin u hu (Option.some.inj hget)
  · rintro ⟨hget, hmin⟩
    obtain ⟨hlt, heq⟩ := Array.getElem?_eq_some_iff.mp hget
    refine ⟨hlt, heq, fun u hu heq => hmin u hu ?_⟩
    rw [Array.getElem?_eq_getElem (Nat.lt_trans hu hlt), heq]

/-- A type keeps its handle. -/
theorem Extends.lookup_eq (h : tt.Extends tt') {ty : Ty} {t : TyId}
    (hl : tt.lookup ty = some t) : tt'.lookup ty = some t := by
  have hlt := lookup_lt hl
  rw [lookup_eq_some_iff] at hl ⊢
  refine ⟨h t ty hl.1, fun u hu => ?_⟩
  rw [h.get?_eq (Nat.lt_trans hu hlt)]
  exact hl.2 u hu

/-- The handle under which a type was interned. -/
theorem lookup_insert (tt : TypeTable) (ty : Ty) :
    (tt.insert ty).2.lookup ty = some (tt.insert ty).1 := by
  unfold Pool.insert
  cases hl : tt.lookup ty with
  | some t => exact hl
  | none =>
    simp only [Pool.lookup, Pool.size] at hl ⊢
    rw [Array.findIdx?_push, hl]
    simp

theorem lookup_intern (tt : TypeTable) (s : Shape) :
    (tt.intern s).2.lookup s.unnamed = some (tt.intern s).1 := lookup_insert tt s.unnamed

end TypeTable

/-- The types that a function refers to. -/
def Func.tys (f : Func) : List TyId :=
  f.ret :: (f.params.toList.map Param.ty ++ f.constants.toList.map Constant.ty ++
    f.insts.toList.flatMap fun x => x.ty :: match x.op with
      | .alloca t _ => [t]
      | _ => [])

theorem Func.mem_tys_of_operandTy {f : Func} {v : Operand} {t : TyId} (h : f.operandTy v = .ok t) :
    t ∈ f.tys := by
  refine List.mem_cons_of_mem _ ?_
  cases v with
  | inst i =>
    simp only [operandTy] at h
    split at h
    · rename_i x hx
      cases h
      refine List.mem_append_right _ (List.mem_flatMap.mpr ⟨x, ?_, List.mem_cons_self⟩)
      exact Array.mem_toList_iff.mpr (Array.mem_of_getElem? hx)
    · cases h
  | param k =>
    simp only [operandTy] at h
    split at h
    · rename_i x hx
      cases h
      refine List.mem_append_left _ (List.mem_append_left _ (List.mem_map_of_mem ?_))
      exact Array.mem_toList_iff.mpr (Array.mem_of_getElem? hx)
    · cases h
  | const c =>
    simp only [operandTy] at h
    split at h
    · rename_i x hx
      cases h
      refine List.mem_append_left _ (List.mem_append_right _ (List.mem_map_of_mem ?_))
      exact Array.mem_toList_iff.mpr (Array.mem_of_getElem? hx)
    · cases h

namespace Typing

variable {tt tt' : TypeTable} {f f' : Func} {σ : Operand → Operand}

/-- The types of some operands are in the table, and those of their replacements are the same. -/
def Replaces (tt : TypeTable) (f f' : Func) (σ : Operand → Operand) (vs : List Operand) : Prop :=
  ∀ v ∈ vs, ∀ t, f.operandTy v = .ok t → f'.operandTy (σ v) = .ok t ∧ t < tt.size

theorem Replaces.of_mem {vs : List Operand} (h : Replaces tt f f' σ vs) {v : Operand} (hv : v ∈ vs)
    {t : TyId} (ht : f.operandTy v = .ok t) : f'.operandTy (σ v) = .ok t := (h v hv t ht).1

theorem Replaces.tail {v : Operand} {vs : List Operand} (h : Replaces tt f f' σ (v :: vs)) :
    Replaces tt f f' σ vs := fun w hw => h w (List.mem_cons_of_mem _ hw)

section

variable (ht : tt.Extends tt')

include ht

theorem pointee_extends {t u : TyId} (h : pointee tt t = .ok u) : pointee tt' t = .ok u := by
  rw [pointee_eq_ok] at h ⊢
  exact ht.shape_eq h (by simp)

theorem scalarOrVector_extends {t : TyId} {x : Scalar × Option Nat}
    (h : scalarOrVector tt t = .ok x) : scalarOrVector tt' t = .ok x := by
  obtain ⟨s, lanes⟩ := x
  rw [scalarOrVector_eq_ok] at h ⊢
  rcases h with ⟨hs, rfl⟩ | ⟨n, hs, rfl⟩
  · exact .inl ⟨ht.shape_eq hs (by simp), rfl⟩
  · exact .inr ⟨n, ht.shape_eq hs (by simp), rfl⟩

theorem fitsPointee_extends {t u : TyId} (h : fitsPointee tt t u = true) :
    fitsPointee tt' t u = true := by
  unfold fitsPointee at h ⊢
  rw [Bool.or_eq_true] at h ⊢
  refine h.imp_right fun h => ?_
  split at h
  · rename_i n s e hv hp
    rw [ht.shape_eq hv (by simp), ht.shape_eq hp (by simp)]
    exact h
  · cases h

theorem operandPair_extends {l r : Operand} {x : TyId × Scalar × Option Nat}
    (hops : Replaces tt f f' σ [l, r]) (h : operandPair tt f l r = .ok x) :
    operandPair tt' f' (σ l) (σ r) = .ok x ∧ x.1 < tt.size := by
  simp only [operandPair, bind_eq_ok_iff, same_eq_ok] at h ⊢
  obtain ⟨lt, hl, rt, hr, _, rfl, ⟨s, lanes⟩, hsv, hx⟩ := h
  obtain ⟨hl', hlt⟩ := hops l (by simp) lt hl
  cases hx
  exact ⟨⟨lt, hl', lt, hops.of_mem (by simp) hr, (), rfl, _, scalarOrVector_extends ht hsv, rfl⟩, hlt⟩

omit ht in
theorem allOf_replaces {t : TyId} : ∀ {vs : List Operand}, Replaces tt f f' σ vs →
    allOf tt f t vs = .ok () → allOf tt' f' t (vs.map σ) = .ok ()
  | [], _, _ => rfl
  | v :: vs, hops, h => by
    simp only [allOf, List.map_cons, bind_eq_ok_iff, same_eq_ok] at h ⊢
    obtain ⟨u, hu, _, rfl, hrest⟩ := h
    exact ⟨t, hops.of_mem List.mem_cons_self hu, (), rfl, allOf_replaces hops.tail hrest⟩

omit ht in
theorem allTyped_replaces : ∀ {vs : List Operand}, Replaces tt f f' σ vs →
    allTyped f vs = .ok () → allTyped f' (vs.map σ) = .ok ()
  | [], _, _ => rfl
  | v :: vs, hops, h => by
    simp only [allTyped, List.map_cons, bind_eq_ok_iff] at h ⊢
    obtain ⟨u, hu, hrest⟩ := h
    exact ⟨u, hops.of_mem List.mem_cons_self hu, allTyped_replaces hops.tail hrest⟩

/-- An operation keeps its type. -/
theorem resultTy_extends (hret : f'.ret = f.ret) (hretlt : f.ret < tt.size) {op : Op} {t : TyId}
    (htlt : t < tt.size) (hops : Replaces tt f f' σ op.operands) {ty : Ty}
    (h : resultTy tt f op (some t) = .ok ty) :
    resultTy tt' f' (op.mapOperands σ) (some t) = .ok ty := by
  cases op with
  | alloca t a => exact h
  | load p =>
    simp only [resultTy, Op.mapOperands, bind_eq_ok_iff, Option.getD_some] at h ⊢
    obtain ⟨pt, hp, target, htarget, h⟩ := h
    refine ⟨pt, hops.of_mem (by simp [Op.operands]) hp, target, pointee_extends ht htarget, ?_⟩
    split at h
    · rename_i hfit
      rw [if_pos (fitsPointee_extends ht hfit), ht.ty_eq htlt]
      exact h
    · cases h
  | store v p =>
    simp only [resultTy, Op.mapOperands, bind_eq_ok_iff] at h ⊢
    obtain ⟨pt, hp, target, htarget, vt, hv, h⟩ := h
    refine ⟨pt, hops.of_mem (by simp [Op.operands]) hp, target, pointee_extends ht htarget, vt,
      hops.of_mem (by simp [Op.operands]) hv, ?_⟩
    split at h
    · rename_i hfit
      rw [if_pos (fitsPointee_extends ht hfit)]
      exact h
    · cases h
  | gep b i =>
    simp only [resultTy, Op.mapOperands, bind_eq_ok_iff] at h ⊢
    obtain ⟨bt, hb, target, htarget, it, hi, h⟩ := h
    obtain ⟨hb', hlt⟩ := hops b (by simp [Op.operands]) bt hb
    refine ⟨bt, hb', target, pointee_extends ht htarget, it,
      hops.of_mem (by simp [Op.operands]) hi, ?_⟩
    cases hs : tt.shape it with
    | scalar s =>
      rw [hs] at h
      rw [ht.shape_eq hs (by simp), ht.ty_eq hlt]
      dsimp only at h ⊢
      split at h
      · rename_i hint
        rw [if_pos hint]
        exact h
      · cases h
    | _ =>
      rw [hs] at h
      cases h
  | binary o l r =>
    simp only [resultTy, Op.mapOperands, bind_eq_ok_iff] at h ⊢
    obtain ⟨⟨u, s, lanes⟩, hpair, h⟩ := h
    obtain ⟨hpair', hlt⟩ := operandPair_extends ht hops hpair
    refine ⟨_, hpair', ?_⟩
    dsimp only at h ⊢
    rw [ht.ty_eq hlt]
    split at h <;> rename_i ho <;> simp only [ho, if_true, Bool.false_eq_true, if_false] at h ⊢ <;>
      split at h
    · rename_i hs
      rw [if_pos hs]
      exact h
    · cases h
    · rename_i hs
      rw [if_pos hs]
      exact h
    · cases h
  | icmp o l r =>
    simp only [resultTy, Op.mapOperands, bind_eq_ok_iff] at h ⊢
    obtain ⟨⟨u, s, lanes⟩, hpair, h⟩ := h
    refine ⟨_, (operandPair_extends ht hops hpair).1, ?_⟩
    dsimp only at h ⊢
    split at h
    · rename_i hs
      rw [if_pos hs]
      exact h
    · cases h
  | fcmp o l r =>
    simp only [resultTy, Op.mapOperands, bind_eq_ok_iff] at h ⊢
    obtain ⟨⟨u, s, lanes⟩, hpair, h⟩ := h
    refine ⟨_, (operandPair_extends ht hops hpair).1, ?_⟩
    dsimp only at h ⊢
    split at h
    · rename_i hs
      rw [if_pos hs]
      exact h
    · cases h
  | select c x y =>
    simp only [resultTy, Op.mapOperands, bind_eq_ok_iff, same_eq_ok] at h ⊢
    obtain ⟨xt, hx, yt, hy, _, rfl, ct, hc, ⟨s, lanes⟩, hsv, h⟩ := h
    obtain ⟨hx', hlt⟩ := hops x (by simp [Op.operands]) xt hx
    refine ⟨xt, hx', xt, hops.of_mem (by simp [Op.operands]) hy, (), rfl, ct,
      hops.of_mem (by simp [Op.operands]) hc, _, scalarOrVector_extends ht hsv, ?_⟩
    have hlanes : tt'.lanes? xt = tt.lanes? xt := by
      unfold TypeTable.lanes?
      rw [ht.shape_eq_of_lt hlt]
    dsimp only at h ⊢
    rw [hlanes, ht.ty_eq hlt]
    split at h
    · rename_i hs
      rw [if_pos hs]
      exact h
    · cases h
  | phi incoming =>
    simp only [resultTy, Op.mapOperands, declaredTy, bind_eq_ok_iff, List.map_map] at h ⊢
    obtain ⟨u, hu, _, hall, h⟩ := h
    cases hu
    refine ⟨t, rfl, (), ?_, ?_⟩
    · have hall' : allOf tt' f' t ((incoming.map Prod.fst).map σ) = .ok () := allOf_replaces hops hall
      rwa [List.map_map] at hall'
    · rw [ht.ty_eq htlt]
      exact h
  | bitcast v =>
    simp only [resultTy, Op.mapOperands, declaredTy, bind_eq_ok_iff] at h ⊢
    obtain ⟨u, hu, vt, hv, _, hp, _, hq, h⟩ := h
    cases hu
    rw [← ht.ty_eq htlt] at h
    exact ⟨t, rfl, vt, hops.of_mem (by simp [Op.operands]) hv, _, pointee_extends ht hp, _,
      pointee_extends ht hq, h⟩
  | splat v =>
    simp only [resultTy, Op.mapOperands, declaredTy, bind_eq_ok_iff] at h ⊢
    obtain ⟨u, hu, vt, hv, h⟩ := h
    cases hu
    refine ⟨t, rfl, vt, hops.of_mem (by simp [Op.operands]) hv, ?_⟩
    split at h
    · rename_i s n e hs he
      rw [ht.shape_eq hs (by simp), ht.shape_eq he (by simp), ht.ty_eq htlt]
      dsimp only
      split at h
      · rename_i heq
        rw [if_pos heq]
        exact h
      · cases h
    · cases h
  | call c args =>
    simp only [resultTy, Op.mapOperands, declaredTy, bind_eq_ok_iff] at h ⊢
    obtain ⟨u, hu, _, hall, h⟩ := h
    cases hu
    rw [← ht.ty_eq htlt] at h
    exact ⟨t, rfl, (), allTyped_replaces hops hall, h⟩
  | br c => exact h
  | condBr c x y =>
    simp only [resultTy, Op.mapOperands, bind_eq_ok_iff] at h ⊢
    obtain ⟨ct, hc, h⟩ := h
    refine ⟨ct, hops.of_mem (by simp [Op.operands]) hc, ?_⟩
    split at h
    · rename_i hs
      rw [if_pos (ht.shape_eq hs (by simp))]
      exact h
    · cases h
  | ret v =>
    cases v with
    | none =>
      simp only [resultTy, Op.mapOperands, Option.map_none, hret] at h ⊢
      have hvoid : tt'.isVoid f.ret = tt.isVoid f.ret := by
        unfold TypeTable.isVoid
        rw [ht.shape_eq_of_lt hretlt]
      rw [hvoid]
      split at h
      · rename_i hv
        rw [if_pos hv]
        exact h
      · cases h
    | some v =>
      simp only [resultTy, Op.mapOperands, Option.map_some, hret, bind_eq_ok_iff, same_eq_ok] at h ⊢
      obtain ⟨vt, hv, _, rfl, h⟩ := h
      exact ⟨f.ret, hops.of_mem (by simp [Op.operands]) hv, (), rfl, h⟩

end

end Typing

end LoopNest
