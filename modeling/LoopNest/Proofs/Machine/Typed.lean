import LoopNest.Proofs.Machine.Defined
import LoopNest.Proofs.Typing.Rules

/-!
# Data of a type

A datum *has a type* when it is of the kind that the shape of the type asks for: a truth value,
an integer, a number, a pointer, nothing, or a vector with as many lanes as the type, each of the
kind of its scalar.  No datum has an array or a struct type.

`Yields` says what a computation gives and why it may fail.  An instruction that passes the type
check, on operands that have their types, gives a datum of its own type or stops for a reason
that no check can rule out: an access out of bounds, a division by zero, or something that the
machine does not do (`Frame.compute_yields`).
-/

namespace LoopNest

/-! ## Data of a type -/

namespace Datum

/-- The datum is a value of a scalar type. -/
def OfScalar (s : Scalar) : Datum → Prop
  | .bool _ => s.kind = .bool
  | .int _ => s.isInteger = true
  | .f32 _ => s.isFloat = true
  | _ => False

/-- The datum is of the kind that a shape asks for. -/
def OfShape : Shape → Datum → Prop
  | .void, .void => True
  | .scalar s, d => d.OfScalar s
  | .vector n s, .vector ds => ds.length = n ∧ ∀ d ∈ ds, d.OfScalar s
  | .pointer _, .ptr _ => True
  | _, _ => False

/-- The datum has a type. -/
def OfType (tt : TypeTable) (t : TyId) (d : Datum) : Prop := d.OfShape (tt.shape t)

instance (s : Scalar) (d : Datum) : Decidable (d.OfScalar s) := by
  cases d <;> unfold OfScalar <;> infer_instance

instance (sh : Shape) (d : Datum) : Decidable (d.OfShape sh) := by
  unfold OfShape
  split <;> infer_instance

instance (tt : TypeTable) (t : TyId) (d : Datum) : Decidable (d.OfType tt t) :=
  inferInstanceAs (Decidable (d.OfShape _))

variable {d : Datum} {s : Scalar}

theorem ofType_iff {tt : TypeTable} {t : TyId} {sh : Shape} (h : tt.shape t = sh) :
    d.OfType tt t ↔ d.OfShape sh := by
  rw [← h]
  rfl

theorem OfScalar.exists_bool (h : d.OfScalar s) (hs : s.kind = .bool) : ∃ b, d = .bool b := by
  cases d <;> simp_all [OfScalar, Scalar.isInteger, Scalar.isFloat]

theorem OfScalar.exists_int (h : d.OfScalar s) (hs : s.isInteger = true) : ∃ n, d = .int n := by
  cases d <;> cases hk : s.kind <;> simp_all [OfScalar, Scalar.isInteger, Scalar.isFloat]

theorem OfScalar.exists_f32 (h : d.OfScalar s) (hs : s.isFloat = true) : ∃ x, d = .f32 x := by
  cases d <;> cases hk : s.kind <;> simp_all [OfScalar, Scalar.isInteger, Scalar.isFloat]

theorem OfShape.exists_ptr {t : TyId} (h : d.OfShape (.pointer t)) : ∃ q, d = .ptr q := by
  cases d <;> simp_all [OfShape]

theorem OfShape.exists_vector {n : Nat} (h : d.OfShape (.vector n s)) :
    ∃ ds, d = .vector ds ∧ ds.length = n ∧ ∀ d ∈ ds, d.OfScalar s := by
  cases d with
  | vector ds => exact ⟨ds, rfl, h⟩
  | _ => exact h.elim

end Datum

/-- The shape of one scalar, or of some lanes of it. -/
def Shape.ofLanes (s : Scalar) : Option Nat → Shape
  | none => .scalar s
  | some n => .vector n s

theorem Typing.shape_of_scalarOrVector {tt : TypeTable} {t : TyId} {s : Scalar}
    {lanes : Option Nat} (h : scalarOrVector tt t = .ok (s, lanes)) :
    tt.shape t = .ofLanes s lanes := by
  rcases scalarOrVector_eq_ok.mp h with ⟨hs, rfl⟩ | ⟨n, hs, rfl⟩ <;> exact hs

theorem Typing.shape_boolLike (lanes : Option Nat) :
    (boolLike lanes).shape = .ofLanes .bool lanes := by
  cases lanes <;> rfl

theorem TypeTable.elementScalar_ofLanes {tt : TypeTable} {t : TyId} {s : Scalar}
    {lanes : Option Nat} (h : tt.shape t = .ofLanes s lanes) : tt.elementScalar? t = some s := by
  cases lanes with
  | none => exact TypeTable.elementScalar_eq_some.mpr (.inl h)
  | some n => exact TypeTable.elementScalar_eq_some.mpr (.inr ⟨n, h⟩)

/-! ## Results and faults -/

/-- The fault is one that verified code may run into. -/
def Fault.ofRun : Fault → Bool
  | .outOfBounds _ _ _ _ | .divisionByZero | .stepLimit _ | .unsupported _ => true
  | _ => false

/-- A computation that succeeds meets a condition, and one that fails another. -/
structure Yields {α : Type} (ok : Fault → Prop) (P : α → Prop) (x : Except Fault α) : Prop where
  /-- What is computed. -/
  result : ∀ a, x = .ok a → P a
  /-- Why there is no result. -/
  fault : FailsIn ok x

namespace Yields

variable {α β : Type} {ok : Fault → Prop} {P : α → Prop} {Q : β → Prop}

theorem of_ok {a : α} (h : P a) : Yields ok P (.ok a) :=
  ⟨fun _ heq => Except.ok.inj heq ▸ h, .of_ok a⟩

theorem of_error {e : Fault} (h : ok e) : Yields ok P (.error e) :=
  ⟨fun _ heq => (by cases heq), .of_error h⟩

theorem bind {x : Except Fault α} {k : α → Except Fault β} (hx : Yields ok P x)
    (hk : ∀ a, P a → Yields ok Q (k a)) : Yields ok Q (x >>= k) := by
  cases x with
  | ok a => exact hk a (hx.result a rfl)
  | error e => exact .of_error (hx.fault e rfl)

theorem mono {P' : α → Prop} {x : Except Fault α} (hx : Yields ok P x) (h : ∀ a, P a → P' a) :
    Yields ok P' x :=
  ⟨fun a ha => h a (hx.result a ha), hx.fault⟩

theorem mapM {k : α → Except Fault β} : ∀ {as : List α}, (∀ a ∈ as, Yields ok Q (k a)) →
    Yields ok (fun bs => bs.length = as.length ∧ ∀ b ∈ bs, Q b) (as.mapM k)
  | [], _ => .of_ok (by simp)
  | a :: as, h => by
    rw [List.mapM_cons]
    refine .bind (h a List.mem_cons_self) fun b hb =>
      .bind (mapM fun a' ha' => h a' (List.mem_cons_of_mem _ ha')) fun bs hbs => .of_ok ?_
    exact ⟨by simp [hbs.1], List.forall_mem_cons.mpr ⟨hb, hbs.2⟩⟩

end Yields

/-- The same for an access, in every memory. -/
def Access.Yields {α : Type} (ok : Fault → Prop) (P : α → Prop) (x : Access α) : Prop :=
  ∀ m, LoopNest.Yields ok P (x m).1

namespace Access.Yields

variable {α β : Type} {ok : Fault → Prop} {P : α → Prop} {Q : β → Prop}

theorem bind {x : Access α} {k : α → Access β} (hx : Access.Yields ok P x)
    (hk : ∀ a, P a → Access.Yields ok Q (k a)) : Access.Yields ok Q (x >>= k) := by
  intro m
  rw [Access.bind_eq]
  have h := hx m
  split
  · rename_i a m₁ heq
    rw [heq] at h
    exact hk a (h.result a rfl) m₁
  · rename_i e m₁ heq
    rw [heq] at h
    exact .of_error (h.fault e rfl)

theorem pure {a : α} (h : P a) : Access.Yields ok P (Pure.pure a : Access α) := fun _ => .of_ok h

theorem ofExcept {x : Except Fault α} (hx : LoopNest.Yields ok P x) :
    Access.Yields ok P (Access.ofExcept x) := fun _ => hx

end Access.Yields

/-! ## Operators -/

section

variable {ok : Fault → Prop} (hok : ∀ e : Fault, e.ofRun = true → ok e)

theorem Datum.yields_asPtr {d : Datum} {t : TyId} (h : d.OfShape (.pointer t)) :
    Yields ok (fun _ => True) d.asPtr := by
  obtain ⟨q, rfl⟩ := h.exists_ptr
  exact .of_ok trivial

theorem Datum.yields_asInt {d : Datum} {s : Scalar} (h : d.OfScalar s) (hs : s.isInteger = true) :
    Yields ok (fun _ => True) d.asInt := by
  obtain ⟨n, rfl⟩ := h.exists_int hs
  exact .of_ok trivial

theorem Datum.yields_asF32 {d : Datum} {s : Scalar} (h : d.OfScalar s) (hs : s.isFloat = true) :
    Yields ok (fun _ => True) d.asF32 := by
  obtain ⟨x, rfl⟩ := h.exists_f32 hs
  exact .of_ok trivial

theorem Datum.yields_asBool {d : Datum} (h : d.OfScalar .bool) :
    Yields ok (fun _ => True) d.asBool := by
  obtain ⟨b, rfl⟩ := h.exists_bool rfl
  exact .of_ok trivial

/-- An operation on scalars, applied lane by lane. -/
theorem yields_lanewise {k : Datum → Datum → Except Fault Datum} {s s' : Scalar}
    (hk : ∀ a b, a.OfScalar s → b.OfScalar s → Yields ok (Datum.OfScalar s') (k a b))
    {lanes : Option Nat} {a b : Datum} (ha : a.OfShape (.ofLanes s lanes))
    (hb : b.OfShape (.ofLanes s lanes)) :
    Yields ok (Datum.OfShape (.ofLanes s' lanes)) (lanewise k a b) := by
  cases lanes with
  | none =>
    have h : lanewise k a b = k a b := by
      cases a <;> first | rfl | exact ha.elim
    rw [h]
    exact hk a b ha hb
  | some n =>
    obtain ⟨xs, rfl, hxs, hx⟩ := ha.exists_vector
    obtain ⟨ys, rfl, hys, hy⟩ := hb.exists_vector
    refine .bind (.mapM fun e he => hk e.1 e.2 ?_ ?_) fun ds hds => .of_ok ⟨?_, hds.2⟩
    · exact hx e.1 (List.of_mem_zip he).1
    · exact hy e.2 (List.of_mem_zip he).2
    · simp [hds.1, hxs, hys]

include hok

theorem BinaryOp.yields_onInt (op : BinaryOp) (s : Scalar) (x y : Int64) :
    Yields ok (fun _ => True) (op.onInt s x y) := by
  cases op <;> simp only [BinaryOp.onInt] <;>
    first
    | exact .of_ok trivial
    | split
      · exact .of_error (hok _ rfl)
      · exact .of_ok trivial

theorem BinaryOp.yields_onBool (op : BinaryOp) (x y : Bool) :
    Yields ok (fun _ => True) (op.onBool x y) := by
  cases op <;> first | exact .of_ok trivial | exact .of_error (hok _ rfl)

theorem BinaryOp.yields_apply {op : BinaryOp} {s : Scalar} (hs : op.admits s = true) {a b : Datum}
    (ha : a.OfScalar s) (hb : b.OfScalar s) : Yields ok (Datum.OfScalar s) (op.apply s a b) := by
  unfold BinaryOp.admits at hs
  unfold BinaryOp.apply
  split at hs
  · rename_i hfloat
    rw [if_pos hfloat]
    exact .bind (Datum.yields_asF32 ha hs) fun _ _ =>
      .bind (Datum.yields_asF32 hb hs) fun _ _ => .of_ok hs
  · rename_i hfloat
    rw [if_neg hfloat]
    rcases Bool.or_eq_true _ _ |>.mp hs with hint | hbool
    · obtain ⟨x, rfl⟩ := ha.exists_int hint
      obtain ⟨y, rfl⟩ := hb.exists_int hint
      exact .bind (P := fun _ => True) (.of_ok trivial) fun _ _ =>
        .bind (P := fun _ => True) (.of_ok trivial) fun _ _ =>
          .bind (op.yields_onInt hok s _ _) fun _ _ => .of_ok hint
    · have hkind : s.kind = .bool := beq_iff_eq.mp hbool
      obtain ⟨x, rfl⟩ := ha.exists_bool hkind
      obtain ⟨y, rfl⟩ := hb.exists_bool hkind
      exact .bind (op.yields_onBool hok x y) fun _ _ => .of_ok hkind

omit hok in
theorem IntPredicate.yields_apply {pred : IntPredicate} {s : Scalar} (hs : s.isInteger = true)
    {a b : Datum} (ha : a.OfScalar s) (hb : b.OfScalar s) :
    Yields ok (Datum.OfScalar .bool) (pred.apply s a b) :=
  .bind (Datum.yields_asInt ha hs) fun _ _ => .bind (Datum.yields_asInt hb hs) fun _ _ => .of_ok rfl

omit hok in
theorem FloatPredicate.yields_apply {pred : FloatPredicate} {s : Scalar} (hs : s.isFloat = true)
    {a b : Datum} (ha : a.OfScalar s) (hb : b.OfScalar s) :
    Yields ok (Datum.OfScalar .bool) (pred.apply a b) :=
  .bind (Datum.yields_asF32 ha hs) fun _ _ => .bind (Datum.yields_asF32 hb hs) fun _ _ => .of_ok rfl

omit hok in
/-- A choice by one truth value, between data of any shape. -/
theorem Datum.yields_choose {c t e : Datum} {sh : Shape} (hc : c.OfScalar .bool)
    (ht : t.OfShape sh) (he : e.OfShape sh) : Yields ok (Datum.OfShape sh) (c.choose t e) := by
  obtain ⟨b, rfl⟩ := hc.exists_bool rfl
  refine .bind (P := fun _ => True) (.of_ok trivial) fun b _ => .of_ok ?_
  cases b
  · exact he
  · exact ht

omit hok in
/-- A choice lane by lane. -/
theorem Datum.yields_choose_lanes {c t e : Datum} {n : Nat} {s : Scalar}
    (hc : c.OfShape (.vector n .bool)) (ht : t.OfShape (.vector n s))
    (he : e.OfShape (.vector n s)) :
    Yields ok (Datum.OfShape (.vector n s)) (c.choose t e) := by
  obtain ⟨cs, rfl, hcs, hc⟩ := hc.exists_vector
  obtain ⟨ts, rfl, hts, ht⟩ := ht.exists_vector
  obtain ⟨es, rfl, hes, he⟩ := he.exists_vector
  refine .bind (P := fun ds => ds.length = (cs.zip (ts.zip es)).length ∧
    ∀ d ∈ ds, Datum.OfScalar s d) (.mapM fun x hx => ?_) fun ds hds => .of_ok ⟨?_, hds.2⟩
  · obtain ⟨hxc, hxte⟩ := List.of_mem_zip hx
    obtain ⟨hxt, hxe⟩ := List.of_mem_zip hxte
    refine .bind (Datum.yields_asBool (hc x.1 hxc)) fun b _ => .of_ok ?_
    cases b
    · exact he x.2.2 hxe
    · exact ht x.2.1 hxt
  · simp [hds.1, hcs, hts, hes]

/-! ## Memory -/

theorem Memory.yields_start (m : Memory) (p : Pointer) (size : Nat) :
    Yields ok (fun _ => True) (m.start p size) := by
  unfold Memory.start
  split
  · exact .of_ok trivial
  · exact .of_error (hok _ rfl)

theorem Memory.yields_loadScalar (m : Memory) (p : Pointer) (s : Scalar) :
    Yields ok (Datum.OfScalar s) (m.loadScalar p s) := by
  refine .bind (P := fun _ => True) (.bind (m.yields_start hok p s.width) fun _ _ => .of_ok trivial)
    fun bytes _ => .of_ok ?_
  cases hk : s.kind <;> simp [Datum.OfScalar, Scalar.isInteger, Scalar.isFloat, hk]

theorem Memory.yields_loadLanes (m : Memory) (s : Scalar) : ∀ (lanes : Nat) (p : Pointer),
    Yields ok (fun ds => ds.length = lanes ∧ ∀ d ∈ ds, d.OfScalar s) (m.loadLanes s lanes p)
  | 0, _ => .of_ok (by simp)
  | n + 1, p => .bind (m.yields_loadScalar hok p s) fun d hd =>
      .bind (m.yields_loadLanes s n _) fun ds hds =>
        .of_ok ⟨by simp [hds.1], List.forall_mem_cons.mpr ⟨hd, hds.2⟩⟩

theorem Memory.yields_load (m : Memory) (tt : TypeTable) (p : Pointer) (t : TyId) :
    Yields ok (Datum.OfType tt t) (m.load tt p t) := by
  unfold Memory.load Datum.OfType
  cases tt.shape t with
  | scalar s => exact m.yields_loadScalar hok p s
  | vector n s => exact .bind (m.yields_loadLanes hok s n p) fun _ hds => .of_ok hds
  | _ => exact .of_error (hok _ rfl)

theorem Access.yields_writeBytes (p : Pointer) (bytes : List UInt8) :
    Access.Yields ok (fun _ => True) (Access.writeBytes p bytes) := by
  intro m
  have h := m.yields_start hok p bytes.length
  unfold Access.writeBytes
  split
  · exact .of_ok trivial
  · rename_i e heq
    rw [heq] at h
    exact .of_error (h.fault e rfl)

theorem Memory.yields_storeLanes : ∀ (ds : List Datum) (p : Pointer),
    Access.Yields ok (fun _ => True) (Memory.storeLanes p ds)
  | [], _ => .pure trivial
  | d :: ds, p => by
    unfold Memory.storeLanes
    split
    · exact .bind (Access.yields_writeBytes hok _ _) fun _ _ => Memory.yields_storeLanes ds _
    · exact .ofExcept (.of_error (hok _ rfl))

/-- Only the store of an integer looks at the type of the value. -/
theorem yields_storeAccess {tt : TypeTable} {t : TyId} {d : Datum} (hd : d.OfType tt t)
    (q : Pointer) : Access.Yields ok (· = .void) (storeAccess tt t d q) := by
  unfold storeAccess
  split
  · have hs : ∃ s, tt.elementScalar? t = some s := by
      unfold Datum.OfType at hd
      cases hsh : tt.shape t with
      | scalar s => exact ⟨s, TypeTable.elementScalar_of_scalar hsh⟩
      | _ =>
        rw [hsh] at hd
        exact hd.elim
    obtain ⟨s, hs⟩ := hs
    refine .bind (P := fun _ => True) (.ofExcept ?_) fun _ _ =>
      .bind (Access.yields_writeBytes hok _ _) fun _ _ => .pure rfl
    rw [Frame.scalarOf_eq_ok.mpr hs]
    exact .of_ok trivial
  · refine .bind (P := fun _ => True) ?_ fun _ _ => .pure rfl
    unfold Memory.storeDatum
    split
    · exact Memory.yields_storeLanes hok _ q
    · split
      · exact Access.yields_writeBytes hok _ _
      · exact .ofExcept (.of_error (hok _ rfl))

end

/-! ## Instructions -/

/-- The type of an operand is the one that its recorded type has. -/
theorem TypeTable.shape_of_lookup_ty {tt : TypeTable} {t u : TyId}
    (h : tt.lookup (tt.ty t) = some u) : tt.shape u = tt.shape t :=
  (TypeTable.shape_of_lookup h).trans (tt.shape_ty t)

/-- An instruction that passes the check gives a datum of its type, if its operands have
theirs. -/
theorem Frame.compute_yields {ok : Fault → Prop} (hok : ∀ e : Fault, e.ofRun = true → ok e)
    {tt : TypeTable} {fr : Frame} {x : Inst} {ty : Ty}
    (hty : Typing.resultTy tt fr.func x.op (some x.ty) = .ok ty) (hl : tt.lookup ty = some x.ty)
    (hplain : x.op.isPlain = true) (hphi : x.op.isPhi = false)
    (hval : ∀ v ∈ x.op.operands, ∀ t, fr.func.operandTy v = .ok t →
      Yields ok (Datum.OfType tt t) (fr.eval tt v)) :
    Access.Yields ok (Datum.OfType tt x.ty) (fr.compute tt x) := by
  have hshape := TypeTable.shape_of_lookup hl
  unfold Frame.compute
  cases hop : x.op with
  | alloca t a =>
    rw [hop] at hty
    cases hty
    refine .bind (P := fun _ => True) (fun _ => .of_ok trivial) fun _ _ => .pure ?_
    exact (Datum.ofType_iff hshape).mpr trivial
  | load p =>
    rw [hop] at hty hval
    obtain ⟨pt, target, hp, hpt, _, _⟩ := Typing.resultTy_load.mp hty
    refine .bind (.ofExcept (hval p (by simp [Op.operands]) pt hp)) fun d hd =>
      .bind (.ofExcept (Datum.yields_asPtr ((Datum.ofType_iff hpt).mp hd))) fun q _ =>
        .bind (P := fun _ => True) (fun _ => .of_ok trivial) fun _ _ m => ?_
    exact m.yields_load hok tt q x.ty
  | store v p =>
    rw [hop] at hty hval
    obtain ⟨pt, target, vt, hp, hpt, hv, _, rfl⟩ := Typing.resultTy_store.mp hty
    refine .bind (.ofExcept (hval p (by simp [Op.operands]) pt hp)) fun d hd =>
      .bind (.ofExcept (Datum.yields_asPtr ((Datum.ofType_iff hpt).mp hd))) fun q _ =>
        .bind (.ofExcept (hval v (by simp [Op.operands]) vt hv)) fun d hd =>
          .bind (P := fun _ => True) (fun _ => .of_ok trivial) fun _ _ m => ?_
    refine (yields_storeAccess hok (t := fr.func.tyOf v) ?_ q m).mono ?_
    · rw [Typing.tyOf_of_operandTy hv]
      exact hd
    · rintro _ rfl
      exact (Datum.ofType_iff hshape).mpr trivial
  | gep b i =>
    rw [hop] at hty hval
    obtain ⟨bt, target, it, s, hb, hbt, hi, hit, hs, rfl⟩ := Typing.resultTy_gep.mp hty
    have hxt : tt.shape x.ty = .pointer target := (TypeTable.shape_of_lookup_ty hl).trans hbt
    refine .bind (.ofExcept (hval b (by simp [Op.operands]) bt hb)) fun d hd =>
      .bind (.ofExcept (Datum.yields_asPtr ((Datum.ofType_iff hbt).mp hd))) fun q _ =>
        .bind (.ofExcept (hval i (by simp [Op.operands]) it hi)) fun d hd =>
          .bind (.ofExcept (Datum.yields_asInt ((Datum.ofType_iff hit).mp hd) hs)) fun n _ => ?_
    rw [TypeTable.pointee_eq_some.mpr hxt]
    exact .pure ((Datum.ofType_iff hxt).mpr trivial)
  | binary op l r =>
    rw [hop] at hty hval
    obtain ⟨t, s, lanes, hpair, hadm, rfl⟩ := Typing.resultTy_binary.mp hty
    obtain ⟨hlt, hrt, hsv⟩ := Typing.operandPair_iff.mp hpair
    have ht := Typing.shape_of_scalarOrVector hsv
    have hxt := (TypeTable.shape_of_lookup_ty hl).trans ht
    refine .bind (P := (· = s)) (.ofExcept ?_) fun s' hs' =>
      .bind (.ofExcept (hval l (by simp [Op.operands]) t hlt)) fun a ha =>
        .bind (.ofExcept (hval r (by simp [Op.operands]) t hrt)) fun b hb => .ofExcept ?_
    · rw [Frame.scalarOf_eq_ok.mpr (TypeTable.elementScalar_ofLanes hxt)]
      exact .of_ok rfl
    · subst hs'
      refine (yields_lanewise (fun _ _ => BinaryOp.yields_apply hok hadm)
        ((Datum.ofType_iff ht).mp ha) ((Datum.ofType_iff ht).mp hb)).mono fun _ => ?_
      exact (Datum.ofType_iff hxt).mpr
  | icmp pred l r =>
    rw [hop] at hty hval
    obtain ⟨t, s, lanes, hpair, hint, rfl⟩ := Typing.resultTy_icmp.mp hty
    obtain ⟨hlt, hrt, hsv⟩ := Typing.operandPair_iff.mp hpair
    have ht := Typing.shape_of_scalarOrVector hsv
    refine .bind (P := (· = s)) (.ofExcept ?_) fun s' hs' =>
      .bind (.ofExcept (hval l (by simp [Op.operands]) t hlt)) fun a ha =>
        .bind (.ofExcept (hval r (by simp [Op.operands]) t hrt)) fun b hb => .ofExcept ?_
    · rw [Typing.tyOf_of_operandTy hlt,
        Frame.scalarOf_eq_ok.mpr (TypeTable.elementScalar_ofLanes ht)]
      exact .of_ok rfl
    · subst hs'
      refine (yields_lanewise (fun _ _ => IntPredicate.yields_apply hint)
        ((Datum.ofType_iff ht).mp ha) ((Datum.ofType_iff ht).mp hb)).mono fun _ => ?_
      exact (Datum.ofType_iff (hshape.trans (Typing.shape_boolLike lanes))).mpr
  | fcmp pred l r =>
    rw [hop] at hty hval
    obtain ⟨t, s, lanes, hpair, hfloat, rfl⟩ := Typing.resultTy_fcmp.mp hty
    obtain ⟨hlt, hrt, hsv⟩ := Typing.operandPair_iff.mp hpair
    have ht := Typing.shape_of_scalarOrVector hsv
    refine .bind (.ofExcept (hval l (by simp [Op.operands]) t hlt)) fun a ha =>
      .bind (.ofExcept (hval r (by simp [Op.operands]) t hrt)) fun b hb => .ofExcept ?_
    refine (yields_lanewise (fun _ _ => FloatPredicate.yields_apply hfloat)
      ((Datum.ofType_iff ht).mp ha) ((Datum.ofType_iff ht).mp hb)).mono fun _ => ?_
    exact (Datum.ofType_iff (hshape.trans (Typing.shape_boolLike lanes))).mpr
  | select c y z =>
    rw [hop] at hty hval
    obtain ⟨vt, ct, lanes, hy, hz, hc, hsv, hlanes, rfl⟩ := Typing.resultTy_select.mp hty
    have hct := Typing.shape_of_scalarOrVector hsv
    refine .bind (.ofExcept (hval c (by simp [Op.operands]) ct hc)) fun dc hdc =>
      .bind (.ofExcept (hval y (by simp [Op.operands]) vt hy)) fun dy hdy =>
        .bind (.ofExcept (hval z (by simp [Op.operands]) vt hz)) fun dz hdz => .ofExcept ?_
    have hxt := TypeTable.shape_of_lookup_ty hl
    have hdc := (Datum.ofType_iff hct).mp hdc
    cases lanes with
    | none =>
      exact (Datum.yields_choose hdc hdy hdz).mono fun _ => (Datum.ofType_iff hxt).mpr
    | some n =>
      obtain ⟨s, hs⟩ := TypeTable.lanes_eq_some.mp (hlanes.resolve_left (Option.some_ne_none n)).symm
      refine (Datum.yields_choose_lanes hdc ((Datum.ofType_iff hs).mp hdy)
        ((Datum.ofType_iff hs).mp hdz)).mono fun _ => ?_
      exact (Datum.ofType_iff (hxt.trans hs)).mpr
  | bitcast v =>
    rw [hop] at hty hval
    obtain ⟨vt, u, target, hv, hvt, htarget, _⟩ := Typing.resultTy_bitcast.mp hty
    refine .ofExcept ((hval v (by simp [Op.operands]) vt hv).mono fun d hd => ?_)
    obtain ⟨q, rfl⟩ := ((Datum.ofType_iff hvt).mp hd).exists_ptr
    exact (Datum.ofType_iff htarget).mpr trivial
  | splat v =>
    rw [hop] at hty hval
    obtain ⟨vt, s, n, hv, hvt, hxt, _⟩ := Typing.resultTy_splat.mp hty
    refine .bind (.ofExcept (hval v (by simp [Op.operands]) vt hv)) fun d hd => .pure ?_
    rw [TypeTable.lanes_eq_some.mpr ⟨s, hxt⟩]
    refine (Datum.ofType_iff hxt).mpr ⟨by simp, fun d' hd' => ?_⟩
    rw [List.eq_of_mem_replicate hd']
    exact (Datum.ofType_iff hvt).mp hd
  | phi incoming =>
    rw [hop] at hphi
    cases hphi
  | _ =>
    rw [hop] at hplain
    cases hplain

end LoopNest
