import LoopNest.Proofs.Builder.Checked
import LoopNest.Proofs.Builder.Loop

/-!
# What a step of construction draws

`World.Does` says what built code does when it is run.  `Build.Draws` says what it *is*: the edits
that a step makes to the function, one after the other, with the shapes of the types that the new
instructions get.  The numbers of types depend on the table and are left open.  With the rules for
all steps of some code its function can be written down, and then be evaluated.

What is known of types is a list of *traits*, found by instance search.
-/

namespace LoopNest

/-! ## Traits -/

/-- Something that is known of types. -/
inductive Trait where
  /-- The type of an operand. -/
  | ty (v : Operand) (t : TyId)
  /-- The shape of a type. -/
  | shape (t : TyId) (sh : Shape)

/-- What is known of types. -/
abbrev Traits := List Trait

/-- An operand has a known type. -/
class Traits.Types (Γ : Traits) (v : Operand) (t : outParam TyId) : Prop where
  mem : .ty v t ∈ Γ

/-- A type has a known shape. -/
class Traits.Shapes (Γ : Traits) (t : TyId) (sh : outParam Shape) : Prop where
  mem : .shape t sh ∈ Γ

namespace Traits

variable {Γ : Traits} {v : Operand} {t : TyId} {sh : Shape}

instance (priority := 10000) : Types (.ty v t :: Γ) v t := ⟨List.mem_cons_self⟩

instance (e : Trait) [h : Types Γ v t] : Types (e :: Γ) v t := ⟨List.mem_cons_of_mem e h.mem⟩

instance (priority := 10000) : Shapes (.shape t sh :: Γ) t sh := ⟨List.mem_cons_self⟩

instance (e : Trait) [h : Shapes Γ t sh] : Shapes (e :: Γ) t sh := ⟨List.mem_cons_of_mem e h.mem⟩

end Traits

namespace Site

/-- The trait holds at a site. -/
def Has (s : Site) : Trait → Prop
  | .ty v t => s.func.operandTy v = .ok t
  | .shape t sh => s.types.shape t = sh ∧ sh ≠ .void

/-- All traits hold at a site. -/
def HasAll (s : Site) (Γ : Traits) : Prop := ∀ e ∈ Γ, s.Has e

variable {s s' : Site} {Γ : Traits}

theorem HasAll.keep (h : s.HasAll Γ) (hk : s.KeepsTypes s') : s'.HasAll Γ := fun e he => by
  have hs := h e he
  cases e with
  | ty v t => exact hk.func.operandTy_eq v t hs
  | shape t sh => exact ⟨hk.types.shape_eq hs.1 hs.2, hs.2⟩

theorem HasAll.cons {e : Trait} (he : s.Has e) (h : s.HasAll Γ) : s.HasAll (e :: Γ) := by
  intro e' he'
  rcases List.mem_cons.mp he' with rfl | he'
  · exact he
  · exact h e' he'

theorem HasAll.operandTy_eq (h : s.HasAll Γ) (v : Operand) {t : TyId} [hv : Γ.Types v t] :
    s.func.operandTy v = .ok t := h _ hv.mem

theorem HasAll.shape_eq (h : s.HasAll Γ) (t : TyId) {sh : Shape} [ht : Γ.Shapes t sh] :
    s.types.shape t = sh := (h _ ht.mem).1

end Site

/-! ## Steps -/

namespace Build

/-- The step, taken with a function and some traits, gives a result, a function and traits. -/
structure Draws {α : Type} (x : Build α) (f : Func) (Γ : Traits)
    (Q : α → Func → Traits → Prop) : Prop where
  outcome : ∀ {s s' : Site} {a : α}, s.func = f → s.HasAll Γ → x s = (.ok a, s') →
    ∃ Γ', Q a s'.func Γ' ∧ s'.HasAll Γ'

namespace Draws

variable {α β : Type} {f : Func} {Γ : Traits} {here : BlockId}

section

variable {Q : α → Func → Traits → Prop}

theorem bind {x : Build β} {k : β → Build α}
    (h : x.Draws f Γ fun b f Γ => (k b).Draws f Γ Q) : Draws (x >>= k) f Γ Q := by
  refine ⟨fun {s s' a} hs hΓ ha => ?_⟩
  obtain ⟨b, t, hb, ha⟩ := bind_eq_ok.mp ha
  obtain ⟨Γ', hk, hΓ'⟩ := h.outcome hs hΓ hb
  exact hk.outcome rfl hΓ' ha

theorem pure {a : α} (h : Q a f Γ) : Draws (Pure.pure a) f Γ Q := by
  refine ⟨fun {s s' b} hs hΓ hb => ?_⟩
  obtain ⟨rfl, rfl⟩ := pure_eq_ok.mp hb
  exact ⟨Γ, hs ▸ h, hΓ⟩

/-- Traits may be forgotten. -/
theorem forget {x : Build α} (h : x.Draws f Γ fun a f Γ => ∃ Γ' ⊆ Γ, Q a f Γ') :
    x.Draws f Γ Q := by
  refine ⟨fun {s s' a} hs hΓ ha => ?_⟩
  obtain ⟨Γ₁, ⟨Γ', hsub, hq⟩, hΓ₁⟩ := h.outcome hs hΓ ha
  exact ⟨Γ', hq, fun e he => hΓ₁ e (hsub he)⟩

end

theorem block {name : String} {Q : BlockId → Func → Traits → Prop}
    (hQ : Q f.blocks.size (f.addBlock name).2 Γ) : (Build.block name).Draws f Γ Q := by
  refine ⟨fun {s s' b} hs hΓ hb => ?_⟩
  obtain ⟨rfl, rfl⟩ := block_eq_ok.mp hb
  subst hs
  exact ⟨Γ, hQ, hΓ.keep ⟨.refl _, (s.func.grows_addBlock name).keepsTypes⟩⟩

theorem intern {sh : Shape} (hsh : sh ≠ .void) {Q : TyId → Func → Traits → Prop}
    (hQ : ∀ t, Q t f (.shape t sh :: Γ)) : (Build.intern sh).Draws f Γ Q := by
  refine ⟨fun {s s' t} hs hΓ ht => ?_⟩
  obtain ⟨rfl, rfl⟩ := internTy_eq_ok.mp ht
  subst hs
  refine ⟨_, hQ _, .cons ⟨s.types.shape_intern sh, hsh⟩ (hΓ.keep ?_)⟩
  exact ⟨s.types.extends_insert _, .refl _⟩

variable {Q : Operand → Func → Traits → Prop}

theorem param {k : Nat} (hQ : Q (.param k) f Γ) : (Build.param k).Draws f Γ Q := by
  refine ⟨fun {s s' v} hs hΓ hv => ?_⟩
  obtain ⟨rfl, rfl⟩ := param_eq_ok hv
  exact ⟨Γ, hs ▸ hQ, hΓ⟩

theorem constant {sc : Scalar} {l : Literal}
    (hQ : ∀ t, Q (.const f.constants.size) (f.addConstant t l).2
      (.ty (.const f.constants.size) t :: .shape t (.scalar sc) :: Γ)) :
    (Build.constant sc l).Draws f Γ Q := by
  refine ⟨fun {s s' v} hs hΓ hv => ?_⟩
  obtain ⟨rfl, rfl⟩ := constant_eq_ok.mp hv
  subst hs
  have hkeep := (s.func.below_addConstant (s.types.intern (.scalar sc)).1 l).keepsTypes
  refine ⟨_, hQ (s.types.intern (.scalar sc)).1, .cons ?_ (.cons ⟨s.types.shape_intern _, by simp⟩
    (hΓ.keep ⟨s.types.extends_intern _, hkeep⟩))⟩
  simp [Site.Has, Func.operandTy, Func.constants_addConstant]

/-! ## Instructions -/

/-- An instruction is appended, with a type of the shape that the rules give. -/
theorem emit {op : Op} {declared : Option TyId} {name : Option String} {sh : Shape}
    {Q : InstId → Func → Traits → Prop} (hsh : sh ≠ .void)
    (hshape : ∀ {s : Site} {ty : Ty}, s.HasAll Γ →
      Typing.resultTy s.types s.func op declared = .ok ty → ty.shape = sh)
    (hQ : ∀ t, Q f.insts.size (f.appendInst here ⟨op, t, name⟩).2
      (.ty (.inst f.insts.size) t :: .shape t sh :: Γ)) :
    (Build.emit here op declared name).Draws f Γ Q := by
  refine ⟨fun {s s' i} hs hΓ hi => ?_⟩
  obtain ⟨_, ty, hty, rfl, rfl⟩ := emit_eq_ok hi
  subst hs
  have hkeep := (s.func.below_insertInst here (s.func.body here).length
    ⟨op, (s.types.insert ty).1, name⟩).keepsTypes
  refine ⟨_, hQ (s.types.insert ty).1, .cons ?_ (.cons ⟨?_, hsh⟩
    (hΓ.keep ⟨s.types.extends_insert ty, hkeep⟩))⟩
  · show Func.operandTy (s.func.appendInst _ _).2 _ = _
    rw [Func.operandTy_inst (by simp), Func.inst_appendInst, if_pos rfl]
  · exact (TypeTable.shape_of_get? (Pool.get?_insert s.types ty)).trans (hshape hΓ hty)

/-- An instruction is appended. -/
theorem effect {op : Op} {Q : Unit → Func → Traits → Prop}
    (hQ : ∀ t, Q () (f.appendInst here ⟨op, t, none⟩).2 Γ) :
    (Build.effect here op).Draws f Γ Q := by
  refine ⟨fun {s s' u} hs hΓ hu => ?_⟩
  obtain ⟨i, hi⟩ := effect_eq_ok.mp hu
  obtain ⟨_, ty, _, _, rfl⟩ := emit_eq_ok hi
  subst hs
  exact ⟨Γ, hQ _, hΓ.keep ⟨s.types.extends_insert ty, (s.func.below_insertInst ..).keepsTypes⟩⟩

theorem value {op : Op} {name : String} {sh : Shape} (hsh : sh ≠ .void)
    (hshape : ∀ {s : Site} {ty : Ty}, s.HasAll Γ →
      Typing.resultTy s.types s.func op none = .ok ty → ty.shape = sh)
    (hQ : ∀ t, Q (.inst f.insts.size) (f.appendInst here ⟨op, t, some name⟩).2
      (.ty (.inst f.insts.size) t :: .shape t sh :: Γ)) :
    (Build.value here op name).Draws f Γ Q :=
  .bind (.emit hsh hshape fun t => .pure (hQ t))

variable {name : String} {t u : TyId} {sc : Scalar}

theorem gep {b x : Operand} [Γ.Types b t] [Γ.Shapes t (.pointer u)]
    (hQ : ∀ t', Q (.inst f.insts.size) (f.appendInst here ⟨.gep b x, t', some name⟩).2
      (.ty (.inst f.insts.size) t' :: .shape t' (.pointer u) :: Γ)) :
    (Build.gep here b x name).Draws f Γ Q := by
  refine .value (by simp) (fun {s ty} hΓ hty => ?_) hQ
  rw [← Typing.ty_of_gep hty (hΓ.operandTy_eq b), TypeTable.shape_ty, hΓ.shape_eq t]

theorem load {p : Operand} [Γ.Types p t] [Γ.Shapes t (.pointer u)] [Γ.Shapes u (.scalar sc)]
    (hQ : ∀ t', Q (.inst f.insts.size) (f.appendInst here ⟨.load p, t', some name⟩).2
      (.ty (.inst f.insts.size) t' :: .shape t' (.scalar sc) :: Γ)) :
    (Build.load here p name).Draws f Γ Q := by
  refine .value (by simp) (fun {s ty} hΓ hty => ?_) hQ
  rw [← Typing.ty_of_load hty (hΓ.operandTy_eq p) (hΓ.shape_eq t), TypeTable.shape_ty,
    hΓ.shape_eq u]

/-- An operator gives a result of the type of its operands. -/
theorem binary {o : BinaryOp} {l r : Operand} [Γ.Types l t] [Γ.Shapes t (.scalar sc)]
    (hQ : ∀ t', Q (.inst f.insts.size) (f.appendInst here ⟨.binary o l r, t', some name⟩).2
      (.ty (.inst f.insts.size) t' :: .shape t' (.scalar sc) :: Γ)) :
    (Build.binary here o l r name).Draws f Γ Q := by
  refine .value (by simp) (fun {s ty} hΓ hty => ?_) hQ
  obtain ⟨_, _, _, hpair, _, rfl⟩ := Typing.resultTy_binary.mp hty
  cases (Typing.operandPair_iff.mp hpair).1.symm.trans (hΓ.operandTy_eq l)
  rw [TypeTable.shape_ty, hΓ.shape_eq t]

/-- Scalars are compared to a truth value. -/
theorem shape_boolLike {l r : Operand} [Γ.Types l t] [Γ.Shapes t (.scalar sc)] {s : Site}
    (hΓ : s.HasAll Γ) {t' : TyId} {sc' : Scalar} {lanes : Option Nat}
    (h : Typing.operandPair s.types s.func l r = .ok (t', sc', lanes)) :
    (Typing.boolLike lanes).shape = .scalar .bool := by
  obtain ⟨hl, _, hsv⟩ := Typing.operandPair_iff.mp h
  cases hl.symm.trans (hΓ.operandTy_eq l)
  rcases Typing.scalarOrVector_eq_ok.mp hsv with ⟨_, rfl⟩ | ⟨n, hs, _⟩
  · rfl
  · cases hs.symm.trans (hΓ.shape_eq t)

theorem icmp {o : IntPredicate} {l r : Operand} [Γ.Types l t] [Γ.Shapes t (.scalar sc)]
    (hQ : ∀ t', Q (.inst f.insts.size) (f.appendInst here ⟨.icmp o l r, t', some name⟩).2
      (.ty (.inst f.insts.size) t' :: .shape t' (.scalar .bool) :: Γ)) :
    (Build.icmp here o l r name).Draws f Γ Q := by
  refine .value (by simp) (fun {s ty} hΓ hty => ?_) hQ
  obtain ⟨_, _, _, hpair, _, rfl⟩ := Typing.resultTy_icmp.mp hty
  exact shape_boolLike hΓ hpair

theorem fcmp {o : FloatPredicate} {l r : Operand} [Γ.Types l t] [Γ.Shapes t (.scalar sc)]
    (hQ : ∀ t', Q (.inst f.insts.size) (f.appendInst here ⟨.fcmp o l r, t', some name⟩).2
      (.ty (.inst f.insts.size) t' :: .shape t' (.scalar .bool) :: Γ)) :
    (Build.fcmp here o l r name).Draws f Γ Q := by
  refine .value (by simp) (fun {s ty} hΓ hty => ?_) hQ
  obtain ⟨_, _, _, hpair, _, rfl⟩ := Typing.resultTy_fcmp.mp hty
  exact shape_boolLike hΓ hpair

theorem select {c x y : Operand} [Γ.Types x t] [Γ.Shapes t (.scalar sc)]
    (hQ : ∀ t', Q (.inst f.insts.size) (f.appendInst here ⟨.select c x y, t', some name⟩).2
      (.ty (.inst f.insts.size) t' :: .shape t' (.scalar sc) :: Γ)) :
    (Build.select here c x y name).Draws f Γ Q := by
  refine .value (by simp) (fun {s ty} hΓ hty => ?_) hQ
  obtain ⟨_, _, _, hx, _, _, _, _, rfl⟩ := Typing.resultTy_select.mp hty
  cases hx.symm.trans (hΓ.operandTy_eq x)
  rw [TypeTable.shape_ty, hΓ.shape_eq t]

theorem bitcast {v : Operand} [Γ.Shapes t (.pointer u)]
    (hQ : ∀ t', Q (.inst f.insts.size) (f.appendInst here ⟨.bitcast v, t', some name⟩).2
      (.ty (.inst f.insts.size) t' :: .shape t' (.pointer u) :: Γ)) :
    (Build.bitcast here v t name).Draws f Γ Q := by
  refine .bind (.emit (by simp) (fun {s ty} hΓ hty => ?_) fun t' => .pure (hQ t'))
  rw [← Typing.ty_of_bitcast hty, TypeTable.shape_ty, hΓ.shape_eq t]

theorem phi {incoming : List (Operand × BlockId)} [Γ.Shapes t (.scalar sc)]
    (hQ : ∀ t', Q (.inst f.insts.size) (f.insertPhi here incoming t' (some name)).2
      (.ty (.inst f.insts.size) t' :: .shape t' (.scalar sc) :: Γ)) :
    (Build.phi here t incoming name).Draws f Γ Q := by
  refine ⟨fun {s s' v} hs hΓ hv => ?_⟩
  obtain ⟨rfl, rfl⟩ := phi_eq_ok hv
  subst hs
  have hkeep := (s.func.below_insertInst here (s.func.phis here).length
    ⟨.phi incoming, (s.types.insert (s.types.ty t)).1, some name⟩).keepsTypes
  refine ⟨_, hQ _, .cons ?_ (.cons ⟨?_, by simp⟩
    (hΓ.keep ⟨s.types.extends_insert _, hkeep⟩))⟩
  · show Func.operandTy (s.func.insertInst _ _ _).2 _ = _
    rw [Func.operandTy_inst (by simp), Func.inst_insertInst, if_pos rfl]
  · rw [TypeTable.shape_of_get? (Pool.get?_insert s.types _), TypeTable.shape_ty, hΓ.shape_eq t]

theorem addIncoming {i : InstId} {v : Operand} {pred : BlockId} {Q : Unit → Func → Traits → Prop}
    (hQ : Q () (f.addIncoming i v pred) Γ) : (Build.addIncoming (.inst i) v pred).Draws f Γ Q := by
  refine ⟨fun {s s' u} hs hΓ hu => ?_⟩
  obtain ⟨_, ⟨⟩, _, rfl⟩ := addIncoming_eq_ok hu
  subst hs
  exact ⟨Γ, hQ, hΓ.keep ⟨.refl _, (s.func.grows_addIncoming i v pred).keepsTypes⟩⟩

/-! ## Loops -/

theorem boundScalar {start stop : Operand} [Γ.Types start t] [Γ.Shapes t (.scalar sc)]
    {Q : TyId × Scalar → Func → Traits → Prop} (hQ : Q (t, sc) f Γ) :
    (Build.boundScalar start stop).Draws f Γ Q := by
  refine ⟨fun {s s' r} hs hΓ hr => ?_⟩
  obtain ⟨rfl, hstart, hsc⟩ := boundScalar_eq_ok hr
  obtain ⟨t', sc'⟩ := r
  obtain rfl : t' = t := Except.ok.inj (hstart.symm.trans (hΓ.operandTy_eq start))
  obtain rfl : sc' = sc := Option.some.inj
    (hsc.symm.trans (TypeTable.elementScalar_of_scalar (hΓ.shape_eq t')))
  exact ⟨Γ, hs ▸ hQ, hΓ⟩

end Draws

end Build

end LoopNest
