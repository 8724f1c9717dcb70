import LoopNest.Proofs.Func.Grow
import LoopNest.Proofs.Typing.Extends
import LoopNest.Proofs.Typing.Rules

/-!
# Declared and stored types

The type of an operation is found twice: when the instruction is added, often with no type
declared, and when it is verified, with the stored type declared.  In a table where every type
stands under one handle, both give the same type (`Typing.resultTy_stored`).
-/

namespace LoopNest

/-! ## Tables of distinct types -/

namespace TypeTable

variable {tt tt' : TypeTable} {t u : TyId} {ty : Ty}

/-- Every type stands under one handle. -/
def Distinct (tt : TypeTable) : Prop := tt.items.toList.Nodup

instance : Decidable tt.Distinct := inferInstanceAs (Decidable (List.Nodup _))

theorem Distinct.eq_of_get? (hd : tt.Distinct) (ht : tt.get? t = some ty)
    (hu : tt.get? u = some ty) : t = u := by
  simp only [Pool.get?, ← Array.getElem?_toList] at ht hu
  have hlt : t < tt.items.toList.length := (List.getElem?_eq_some_iff.mp ht).1
  exact (List.getElem?_inj hlt hd).mp (ht.trans hu.symm)

theorem distinct_insert (hd : tt.Distinct) (ty : Ty) : TypeTable.Distinct (tt.insert ty).2 := by
  unfold Pool.insert
  cases hl : tt.lookup ty with
  | some t => exact hd
  | none =>
    have hnot : ty ∉ tt.items.toList := by
      simp only [Pool.lookup, Array.findIdx?_eq_none_iff, decide_eq_false_iff_not] at hl
      exact fun hmem => hl ty (Array.mem_toList_iff.mp hmem) rfl
    simp only [Distinct, Array.toList_push]
    refine List.nodup_append.mpr ⟨hd, List.nodup_singleton ty, fun a ha b hb heq => ?_⟩
    rw [List.mem_singleton.mp hb] at heq
    exact hnot (heq ▸ ha)

/-- Interning a type that is there gives its handle. -/
theorem Distinct.insert_ty (hd : tt.Distinct) (ht : t < tt.size) : tt.insert (tt.ty t) = (t, tt) := by
  obtain ⟨a, ha⟩ := lt_size_iff.mp ht
  have hlook : tt.lookup a = some t := lookup_eq_some_iff.mpr
    ⟨ha, fun u hu hget => Nat.ne_of_lt hu (hd.eq_of_get? hget ha)⟩
  have hty : tt.ty t = a := by rw [TypeTable.ty, ha, Option.getD_some]
  rw [hty, Pool.insert, hlook]

theorem Closed.components_ty_lt (hc : tt.Closed) : ∀ c ∈ (tt.ty t).shape.components, c < tt.size := by
  intro c hmem
  rw [shape_ty] at hmem
  have ht : t < tt.size := lt_size_of_shape fun h => by
    rw [h] at hmem
    exact absurd hmem List.not_mem_nil
  exact Nat.lt_trans (hc.component_lt hmem) ht

end TypeTable

/-! ## The type that is stored -/

/-- The operations whose result type has to be declared, or may be. -/
def Op.isDeclared : Op → Bool
  | .load _ | .phi _ | .bitcast _ | .splat _ | .call _ _ => true
  | _ => false

namespace Typing

variable {tt : TypeTable} {f : Func} {op : Op} {declared : Option TyId} {ty : Ty}

theorem resultTy_of_not_isDeclared (h : op.isDeclared = false) (d d' : Option TyId) :
    resultTy tt f op d = resultTy tt f op d' := by
  cases op with
  | load | phi | bitcast | splat | call => cases h
  | ret v => cases v <;> rfl
  | _ => rfl

/-- A result type that depends on the declared one is that of a handle, which may be declared. -/
theorem resultTy_of_isDeclared (hc : tt.Closed) (hop : op.isDeclared = true)
    (hd : ∀ t, declared = some t → t < tt.size) (h : resultTy tt f op declared = .ok ty) :
    ∃ t < tt.size, ty = tt.ty t ∧ resultTy tt f op (some t) = .ok ty := by
  cases declared with
  | some t =>
    refine ⟨t, hd t rfl, ?_, h⟩
    cases op with
    | load p => exact (resultTy_load.mp h).choose_spec.choose_spec.2.2.2.symm
    | phi incoming => exact (resultTy_phi.mp h).2.symm
    | bitcast v =>
      obtain ⟨_, _, _, _, _, _, rfl⟩ := resultTy_bitcast.mp h
      rfl
    | splat v =>
      obtain ⟨_, _, _, _, _, _, rfl⟩ := resultTy_splat.mp h
      rfl
    | call c args =>
      simp only [resultTy, declaredTy, bind_eq_ok_iff] at h
      obtain ⟨_, ht, _, _, h⟩ := h
      cases ht
      exact (Except.ok.inj h).symm
    | _ => cases hop
  | none =>
    cases op with
    | load p =>
      simp only [resultTy, bind_eq_ok_iff, Option.getD_none] at h
      obtain ⟨pt, hp, target, htarget, h⟩ := h
      rw [pointee_eq_ok] at htarget
      split at h
      · rename_i hfit
        have hty := Except.ok.inj h
        exact ⟨target, hc.pointee_lt htarget, hty.symm,
          resultTy_load.mpr ⟨pt, target, hp, htarget, hfit, hty⟩⟩
      · cases h
    | phi | bitcast | splat | call =>
      simp only [resultTy, declaredTy, bind_eq_ok_iff] at h
      obtain ⟨_, ht, _⟩ := h
      cases ht
    | _ => cases hop

/-- The result type refers to types of the table. -/
theorem components_resultTy_lt (hc : tt.Closed) (halloc : ∀ t a, op = .alloca t a → t < tt.size)
    (hd : ∀ t, declared = some t → t < tt.size) (h : resultTy tt f op declared = .ok ty) :
    ∀ c ∈ ty.shape.components, c < tt.size := by
  have hno {u : Ty} (hu : u.shape.components = []) : ∀ c ∈ u.shape.components, c < tt.size := by
    rw [hu]
    exact fun c hmem => absurd hmem List.not_mem_nil
  have hbool (lanes : Option Nat) : (boolLike lanes).shape.components = [] := by cases lanes <;> rfl
  by_cases hop : op.isDeclared = true
  · obtain ⟨t, _, rfl, _⟩ := resultTy_of_isDeclared hc hop hd h
    exact hc.components_ty_lt
  · cases op with
    | load | phi | bitcast | splat | call => exact absurd rfl hop
    | alloca t a =>
      cases Except.ok.inj h
      intro c hmem
      rw [List.mem_singleton.mp hmem]
      exact halloc t a rfl
    | store v p =>
      obtain ⟨_, _, _, _, _, _, _, rfl⟩ := resultTy_store.mp h
      exact hno rfl
    | gep b i =>
      obtain ⟨_, _, _, _, _, _, _, _, _, rfl⟩ := resultTy_gep.mp h
      exact hc.components_ty_lt
    | binary o l r =>
      obtain ⟨_, _, _, _, _, rfl⟩ := resultTy_binary.mp h
      exact hc.components_ty_lt
    | icmp o l r =>
      obtain ⟨_, _, lanes, _, _, rfl⟩ := resultTy_icmp.mp h
      exact hno (hbool lanes)
    | fcmp o l r =>
      obtain ⟨_, _, lanes, _, _, rfl⟩ := resultTy_fcmp.mp h
      exact hno (hbool lanes)
    | select c x y =>
      obtain ⟨_, _, _, _, _, _, _, _, rfl⟩ := resultTy_select.mp h
      exact hc.components_ty_lt
    | br t =>
      cases Except.ok.inj h
      exact hno rfl
    | condBr c x y =>
      obtain ⟨_, _, _, rfl⟩ := resultTy_condBr.mp h
      exact hno rfl
    | ret v =>
      cases v with
      | none =>
        simp only [resultTy] at h
        split at h
        · cases Except.ok.inj h
          exact hno rfl
        · cases h
      | some v =>
        obtain ⟨_, rfl⟩ := resultTy_ret.mp h
        exact hno rfl

/-- A type found for an instruction is found again with the stored handle declared. -/
theorem resultTy_stored (hdist : tt.Distinct) (hc : tt.Closed) (htys : ∀ t ∈ f.tys, t < tt.size)
    (hd : ∀ t, declared = some t → t < tt.size) (h : resultTy tt f op declared = .ok ty) :
    resultTy (tt.insert ty).2 f op (some (tt.insert ty).1) = .ok ty := by
  by_cases hop : op.isDeclared = true
  · obtain ⟨t, ht, rfl, hty⟩ := resultTy_of_isDeclared hc hop hd h
    rw [hdist.insert_ty ht]
    exact hty
  · rw [Bool.not_eq_true] at hop
    have hret : f.ret < tt.size := htys _ List.mem_cons_self
    rw [resultTy_of_not_isDeclared hop declared (some f.ret)] at h
    rw [resultTy_of_not_isDeclared hop _ (some f.ret)]
    have hsame : Replaces tt f f id op.operands :=
      fun v _ t ht => ⟨ht, htys t (Func.mem_tys_of_operandTy ht)⟩
    have hty := resultTy_extends (tt.extends_insert ty) rfl hret hret hsame h
    rwa [Func.mapOperands_eq_self (k := id) fun _ _ => rfl] at hty

theorem allTyped_eq_ok : ∀ {vs : List Operand}, allTyped f vs = .ok () ↔
    ∀ v ∈ vs, ∃ t, f.operandTy v = .ok t
  | [] => by simp [allTyped]
  | v :: vs => by
    simp only [allTyped, bind_eq_ok_iff, allTyped_eq_ok, List.forall_mem_cons]
    constructor
    · rintro ⟨t, ht, hvs⟩
      exact ⟨⟨t, ht⟩, hvs⟩
    · rintro ⟨⟨t, ht⟩, hvs⟩
      exact ⟨t, ht, hvs⟩

/-- The operands of an operation that has a type have types. -/
theorem exists_operandTy_of_resultTy (h : resultTy tt f op declared = .ok ty) :
    ∀ v ∈ op.operands, ∃ t, f.operandTy v = .ok t := by
  intro v hv
  cases op with
  | alloca t a => exact absurd hv List.not_mem_nil
  | load p =>
    simp only [resultTy, bind_eq_ok_iff] at h
    obtain ⟨pt, hp, _⟩ := h
    rw [List.mem_singleton.mp hv]
    exact ⟨pt, hp⟩
  | store x p =>
    obtain ⟨pt, _, vt, hp, _, hx, _, _⟩ := resultTy_store.mp h
    rcases List.mem_pair.mp hv with rfl | rfl
    · exact ⟨vt, hx⟩
    · exact ⟨pt, hp⟩
  | gep b i =>
    obtain ⟨bt, _, it, _, hb, _, hi, _⟩ := resultTy_gep.mp h
    rcases List.mem_pair.mp hv with rfl | rfl
    · exact ⟨bt, hb⟩
    · exact ⟨it, hi⟩
  | binary o l r =>
    obtain ⟨t, _, _, hp, _⟩ := resultTy_binary.mp h
    obtain ⟨hl, hr, _⟩ := operandPair_iff.mp hp
    rcases List.mem_pair.mp hv with rfl | rfl
    · exact ⟨t, hl⟩
    · exact ⟨t, hr⟩
  | icmp o l r =>
    obtain ⟨t, _, _, hp, _⟩ := resultTy_icmp.mp h
    obtain ⟨hl, hr, _⟩ := operandPair_iff.mp hp
    rcases List.mem_pair.mp hv with rfl | rfl
    · exact ⟨t, hl⟩
    · exact ⟨t, hr⟩
  | fcmp o l r =>
    obtain ⟨t, _, _, hp, _⟩ := resultTy_fcmp.mp h
    obtain ⟨hl, hr, _⟩ := operandPair_iff.mp hp
    rcases List.mem_pair.mp hv with rfl | rfl
    · exact ⟨t, hl⟩
    · exact ⟨t, hr⟩
  | select c x y =>
    obtain ⟨vt, ct, _, hx, hy, hc, _⟩ := resultTy_select.mp h
    simp only [Op.operands, List.mem_cons, List.not_mem_nil, or_false] at hv
    rcases hv with rfl | rfl | rfl
    · exact ⟨ct, hc⟩
    · exact ⟨vt, hx⟩
    · exact ⟨vt, hy⟩
  | phi incoming =>
    simp only [resultTy, bind_eq_ok_iff] at h
    obtain ⟨t, _, _, hall, _⟩ := h
    exact ⟨t, allOf_eq_ok.mp hall v hv⟩
  | bitcast x =>
    simp only [resultTy, bind_eq_ok_iff] at h
    obtain ⟨_, _, vt, hx, _⟩ := h
    rw [List.mem_singleton.mp hv]
    exact ⟨vt, hx⟩
  | splat x =>
    simp only [resultTy, bind_eq_ok_iff] at h
    obtain ⟨_, _, vt, hx, _⟩ := h
    rw [List.mem_singleton.mp hv]
    exact ⟨vt, hx⟩
  | call c args =>
    simp only [resultTy, bind_eq_ok_iff] at h
    obtain ⟨_, _, _, hall, _⟩ := h
    exact allTyped_eq_ok.mp hall v hv
  | br t => exact absurd hv List.not_mem_nil
  | condBr c x y =>
    obtain ⟨ct, hc, _⟩ := resultTy_condBr.mp h
    rw [List.mem_singleton.mp hv]
    exact ⟨ct, hc⟩
  | ret x =>
    cases x with
    | none => exact absurd hv List.not_mem_nil
    | some x =>
      rw [List.mem_singleton.mp hv]
      exact ⟨f.ret, (resultTy_ret.mp h).1⟩

end Typing

end LoopNest
