import LoopNest.Proofs.Loop.Searched
import LoopNest.Proofs.Machine.Arith
import LoopNest.Proofs.Machine.Coherent
import LoopNest.Proofs.Typing

/-!
# Strides

The stride of an index expression is found in integers without bounds, and the machine computes
with the bits of a type.  Still the stride is right up to the range of the type.

`NaturalLoop.Worth` is what an expression is worth for an induction value, when what is invariant
has the values that it has at some moment.  For two induction values that differ by `k`, an integer
expression of stride `c` differs by `c * k`, up to normalizing (`Worth.shifted`).

Two moments are *apart* by `k` when both have the results of pure instructions up to date, agree on
what is invariant, and have induction values that differ by `k` (`NaturalLoop.Apart`).  An
expression has the datum at either moment that it is worth there, so it advances by its stride
times `k` (`Apart.shifted`).  Data other than integers do not depend on the induction value at all.
-/

namespace LoopNest

/-! ## Integer operations -/

/-- An operation on single integers takes integers and gives one.  Otherwise no operand and no
result is an integer. -/
theorem BinaryOp.ints_or_none {op : BinaryOp} {s : Scalar} {a b d : Datum}
    (hop : op.isFloat = false) (h : lanewise (op.apply s) a b = .ok d) :
    (∃ m n x, a = .int m ∧ b = .int n ∧ d = .int x ∧ op.onInt s m n = .ok x) ∨
      (∀ m, a ≠ .int m) ∧ (∀ n, b ≠ .int n) ∧ ∀ x, d ≠ .int x := by
  have happly : op.apply s a b = .ok d →
      (∃ m n x, a = .int m ∧ b = .int n ∧ d = .int x ∧ op.onInt s m n = .ok x) ∨
        (∀ m, a ≠ .int m) ∧ (∀ n, b ≠ .int n) ∧ ∀ x, d ≠ .int x := by
    intro h
    unfold BinaryOp.apply at h
    simp only [hop, Bool.false_eq_true, if_false] at h
    cases a with
    | int m =>
      cases b with
      | int n =>
        change (op.onInt s m n >>= fun x => pure (Datum.int x)) = .ok d at h
        obtain ⟨x, hx, h⟩ := bind_eq_ok_iff.mp h
        cases h
        exact .inl ⟨m, n, x, rfl, rfl, rfl, hx⟩
      | _ => cases h
    | bool m =>
      cases b with
      | bool n =>
        obtain ⟨x, hx, h⟩ := bind_eq_ok_iff.mp h
        cases h
        exact .inr ⟨fun _ => Datum.noConfusion, fun _ => Datum.noConfusion,
          fun _ => Datum.noConfusion⟩
      | _ => cases h
    | _ => cases h
  cases a with
  | vector xs =>
    cases b with
    | vector ys =>
      obtain ⟨x, hx, h⟩ := bind_eq_ok_iff.mp h
      cases h
      exact .inr ⟨fun _ => Datum.noConfusion, fun _ => Datum.noConfusion,
        fun _ => Datum.noConfusion⟩
    | _ => exact happly h
  | _ => exact happly h

/-- Integer results fit their type. -/
theorem BinaryOp.normalize_of_onInt {op : BinaryOp} {s : Scalar} {m n x : Int64}
    (h : op.onInt s m n = .ok x) : s.normalize x = x := by
  unfold onInt at h
  have hok : ∀ v : Int64, Except.ok (s.normalize v) = (.ok x : Except Fault Int64) →
      s.normalize x = x := by
    rintro v ⟨⟩
    exact Scalar.normalize_normalize s v
  split at h
  all_goals
    first
    | exact hok _ h
    | split at h
      · cases h
      · exact hok _ h

/-- The operands of an instruction with a result have values. -/
theorem value_of_pureResult {tt : TypeTable} {value : Operand → Option Datum}
    {tyOf : Operand → TyId} {ty : TyId} {op : Op} {d : Datum}
    (h : pureResult tt value tyOf ty op = some d) : ∀ v ∈ op.operands, ∃ x, value v = some x := by
  cases op with
  | bitcast v => simpa [Op.operands, pureResult] using ⟨d, h⟩
  | splat v =>
    obtain ⟨x, hx, _⟩ := Option.map_eq_some_iff.mp h
    simpa [Op.operands] using ⟨x, hx⟩
  | gep _ _ | binary _ _ _ | icmp _ _ _ | fcmp _ _ _ | select _ _ _ =>
    simp only [pureResult] at h
    split at h
    · simp_all [Op.operands]
    · cases h
  | _ => cases h

/-- The operands of an arithmetic instruction with a result have values. -/
theorem lanewise_of_pureResult {tt : TypeTable} {value : Operand → Option Datum}
    {tyOf : Operand → TyId} {ty : TyId} {op : BinaryOp} {l r : Operand} {d : Datum}
    (h : pureResult tt value tyOf ty (.binary op l r) = some d) :
    ∃ s a b, tt.elementScalar? ty = some s ∧ value l = some a ∧ value r = some b ∧
      lanewise (op.apply s) a b = .ok d := by
  simp only [pureResult] at h
  split at h
  · next s a b hs ha hb => exact ⟨s, a, b, hs, ha, hb, toOption_eq_some.mp h⟩
  · cases h

/-- A datum that is a number more than another one, in a type.  Data that are not integers stay as
they are. -/
def Datum.Shifted (s : Scalar) (t : Int64) (d d' : Datum) : Prop :=
  (∃ x y, d = .int x ∧ d' = .int y ∧ s.normalize y = s.normalize (x + t)) ∨
    (∀ x, d ≠ .int x) ∧ d' = d

namespace NaturalLoop

/-! ## What an expression is worth -/

/-- What an expression is worth for a given induction value, when what is invariant has given
values. -/
inductive Worth (tt : TypeTable) (f : Func) (args : List Datum) (l : NaturalLoop) (dom : DomTree)
    (iv : Operand) (ρ : Values) (x : Datum) : Operand → Datum → Prop where
  /-- The induction value. -/
  | self : Worth tt f args l dom iv ρ x iv x
  /-- What is invariant. -/
  | invariant {v : Operand} {d : Datum} : v ≠ iv → l.isInvariant f dom v = true →
      f.value tt args ρ v = some d → Worth tt f args l dom iv ρ x v d
  /-- An operation on two expressions of one type. -/
  | operation {i : InstId} {o : BinaryOp} {a b : Operand} {s : Scalar} {da db d : Datum} :
      l.Follows f dom iv i o a b → tt.elementScalar? (f.tyOf a) = some s →
      tt.elementScalar? (f.tyOf b) = some s → tt.elementScalar? (f.inst i).ty = some s →
      Worth tt f args l dom iv ρ x a da → Worth tt f args l dom iv ρ x b db →
      lanewise (o.apply s) da db = .ok d → Worth tt f args l dom iv ρ x (.inst i) d

theorem eq_ofInt_of_checkedI64 {v : Int} {c : Int64} (h : checkedI64 v = some c) :
    c = Int64.ofInt v := by
  unfold checkedI64 at h
  split at h
  · exact (Option.some.inj h).symm
  · cases h

section

variable {tt : TypeTable} {f : Func} {args : List Datum} {l : NaturalLoop} {dom : DomTree}
  {iv : Operand} {s : Scalar} {k : Int64} {ρ ρ' : Values} {x x' d d' : Datum} {v a b : Operand}
  {i : InstId} {o : BinaryOp}

theorem Worth.eq_of_iv (h : Worth tt f args l dom iv ρ x v d) (hv : v = iv) : d = x := by
  cases h with
  | self => rfl
  | invariant hne _ _ => exact absurd hv hne
  | operation hf _ _ _ _ _ _ => exact absurd hv hf.ne

theorem Worth.value_of_invariant (h : Worth tt f args l dom iv ρ x v d) (hv : v ≠ iv)
    (hinv : l.isInvariant f dom v = true) : f.value tt args ρ v = some d := by
  cases h with
  | self => exact absurd rfl hv
  | invariant _ _ hd => exact hd
  | operation hf _ _ _ _ _ _ => cases hf.varies.symm.trans hinv

/-- What the operands of an operation are worth. -/
theorem Worth.operands (h : Worth tt f args l dom iv ρ x (.inst i) d)
    (hf : l.Follows f dom iv i o a b) (hs : tt.elementScalar? (f.tyOf (.inst i)) = some s) :
    ∃ da db, tt.elementScalar? (f.tyOf a) = some s ∧ tt.elementScalar? (f.tyOf b) = some s ∧
      Worth tt f args l dom iv ρ x a da ∧ Worth tt f args l dom iv ρ x b db ∧
      lanewise (o.apply s) da db = .ok d := by
  generalize hv : Operand.inst i = v at h
  cases h with
  | self => exact absurd hv hf.ne
  | invariant _ hinv _ => cases (hv ▸ hf.varies).symm.trans hinv
  | operation hf' ha hb hs' hda hdb hd =>
    cases hv
    cases hf.op_eq.symm.trans hf'.op_eq
    rw [Func.tyOf_inst, hs'] at hs
    cases hs
    exact ⟨_, _, ha, hb, hda, hdb, hd⟩

/-- A result that is up to date is what the operation is worth, if its operands have the data that
they are worth. -/
theorem worth_of_pureResult (hf : l.Follows f dom iv i o a b) (hty : f.tyOf a = f.tyOf b)
    (htys : tt.elementScalar? (f.tyOf a) = tt.elementScalar? (f.inst i).ty)
    (hd : pureResult tt (f.value tt args ρ') f.tyOf (f.inst i).ty (f.op i) = some d)
    (ha : ∀ da, f.value tt args ρ' a = some da → Worth tt f args l dom iv ρ x a da)
    (hb : ∀ db, f.value tt args ρ' b = some db → Worth tt f args l dom iv ρ x b db) :
    Worth tt f args l dom iv ρ x (.inst i) d := by
  rw [hf.op_eq] at hd
  obtain ⟨s, da, db, hs, hda, hdb, hres⟩ := lanewise_of_pureResult hd
  exact .operation hf (htys.trans hs) (hty ▸ htys.trans hs) hs (ha da hda) (hb db hdb) hres

/-! ## Strides are right up to normalizing -/

/-- An integer constant stands for its literal. -/
theorem normalize_of_intLiteral {n y : Int64} (hn : f.intLiteral? v = some n)
    (hs : tt.elementScalar? (f.tyOf v) = some s) (hy : f.value tt args ρ v = some (.int y)) :
    s.normalize y = s.normalize n := by
  rw [Func.value_of_intLiteral hn, hs] at hy
  cases hy
  exact Scalar.normalize_normalize s n

/-- A product with a constant advances by a multiple of the constant. -/
theorem normalize_mul_of_literal {c x₁ x₂ y₁ y₂ n : Int64}
    (hx : s.normalize y₁ = s.normalize (x₁ + c * k)) (hy : s.normalize y₂ = s.normalize x₂)
    (hn : s.normalize x₂ = s.normalize n) :
    s.normalize (y₁ * y₂) = s.normalize (x₁ * x₂ + n * c * k) := by
  calc s.normalize (y₁ * y₂) = s.normalize ((x₁ + c * k) * x₂) := Scalar.normalize_mul_congr hx hy
    _ = s.normalize (x₁ * x₂ + x₂ * (c * k)) := congrArg _ (by grind)
    _ = s.normalize (x₁ * x₂ + n * (c * k)) :=
      Scalar.normalize_add_congr rfl (Scalar.normalize_mul_congr hn rfl)
    _ = s.normalize (x₁ * x₂ + n * c * k) := congrArg _ (by grind)

/-- A product advances by the stride of the product. -/
theorem normalize_of_productStride {c₁ c₂ c x₁ x₂ y₁ y₂ : Int64}
    (hc : productStride f a b c₁ c₂ = some c) (h₁ : s.normalize y₁ = s.normalize (x₁ + c₁ * k))
    (h₂ : s.normalize y₂ = s.normalize (x₂ + c₂ * k))
    (ha : c₁ = 0 → ∀ n, f.intLiteral? a = some n → s.normalize x₁ = s.normalize n)
    (hb : c₂ = 0 → ∀ n, f.intLiteral? b = some n → s.normalize x₂ = s.normalize n) :
    s.normalize (y₁ * y₂) = s.normalize (x₁ * x₂ + c * k) := by
  have hzero : ∀ z : Int64, z + 0 * k = z := by
    intro z
    grind
  unfold productStride at hc
  split at hc
  · next hz₂ =>
    rw [hz₂, hzero] at h₂
    split at hc
    · next hz₁ =>
      cases hc
      rw [hz₁, hzero] at h₁
      rw [Scalar.normalize_mul_congr h₁ h₂, hzero]
    · obtain ⟨n, hn, hc⟩ := Option.bind_eq_some_iff.mp hc
      rw [eq_ofInt_of_checkedI64 hc, Int64.ofInt_mul, Int64.ofInt_toInt, Int64.ofInt_toInt]
      exact normalize_mul_of_literal h₁ h₂ (hb hz₂ n hn)
  · split at hc
    · next hz₁ =>
      rw [hz₁, hzero] at h₁
      obtain ⟨n, hn, hc⟩ := Option.bind_eq_some_iff.mp hc
      rw [eq_ofInt_of_checkedI64 hc, Int64.ofInt_mul, Int64.ofInt_toInt, Int64.ofInt_toInt,
        Int64.mul_comm y₁ y₂, Int64.mul_comm x₁ x₂]
      exact normalize_mul_of_literal h₂ h₁ (ha hz₁ n hn)
    · cases hc

/-- The result of an operation advances by its stride. -/
theorem normalize_of_operationStride {c₁ c₂ c x₁ x₂ x y₁ y₂ y : Int64}
    (hc : operationStride f o a b c₁ c₂ = some c) (h₁ : s.normalize y₁ = s.normalize (x₁ + c₁ * k))
    (h₂ : s.normalize y₂ = s.normalize (x₂ + c₂ * k))
    (ha : c₁ = 0 → ∀ n, f.intLiteral? a = some n → s.normalize x₁ = s.normalize n)
    (hb : c₂ = 0 → ∀ n, f.intLiteral? b = some n → s.normalize x₂ = s.normalize n)
    (hx : o.onInt s x₁ x₂ = .ok x) (hy : o.onInt s y₁ y₂ = .ok y) :
    s.normalize y = s.normalize (x + c * k) := by
  cases o with
  | add =>
    cases hx
    cases hy
    rw [Scalar.normalize_normalize, eq_ofInt_of_checkedI64 hc, Int64.ofInt_add,
      Int64.ofInt_toInt, Int64.ofInt_toInt, Scalar.normalize_add_congr h₁ h₂,
      Scalar.normalize_add_congr (Scalar.normalize_normalize s (x₁ + x₂)) rfl]
    exact congrArg _ (by grind)
  | sub =>
    cases hx
    cases hy
    rw [Scalar.normalize_normalize, eq_ofInt_of_checkedI64 hc, Int64.ofInt_sub,
      Int64.ofInt_toInt, Int64.ofInt_toInt, Scalar.normalize_sub_congr h₁ h₂,
      Scalar.normalize_add_congr (Scalar.normalize_normalize s (x₁ - x₂)) rfl]
    exact congrArg _ (by grind)
  | mul =>
    cases hx
    cases hy
    rw [Scalar.normalize_normalize,
      Scalar.normalize_add_congr (Scalar.normalize_normalize s (x₁ * x₂)) rfl]
    exact normalize_of_productStride hc h₁ h₂ ha hb
  | _ => cases hc

/-- For another induction value, an integer expression is worth as much more as its stride says. -/
theorem Worth.shifted {c y y' : Int64} (h : l.Searched f dom iv v (some c))
    (hy : Worth tt f args l dom iv ρ x v (.int y)) (hy' : Worth tt f args l dom iv ρ x' v (.int y'))
    (hs : tt.elementScalar? (f.tyOf v) = some s)
    (hk : ∀ m m', x = .int m → x' = .int m' → ∀ s, tt.elementScalar? (f.tyOf iv) = some s →
      s.normalize m' = s.normalize (m + k)) : s.normalize y' = s.normalize (y + c * k) := by
  generalize hr : some c = r at h
  induction h generalizing c y y' with
  | self =>
    cases hr
    rw [Int64.one_mul]
    exact hk y y' (hy.eq_of_iv rfl).symm (hy'.eq_of_iv rfl).symm s hs
  | @invariant v hv hinv =>
    cases hr
    cases (hy.value_of_invariant hv hinv).symm.trans (hy'.value_of_invariant hv hinv)
    rw [Int64.zero_mul, Int64.add_zero]
  | other _ _ _ _ => cases hr
  | left _ _ _ => cases hr
  | right _ _ _ _ _ => cases hr
  | @both i o a b c₁ c₂ hf ha hb _ iha ihb =>
    obtain ⟨da, db, hsa, hsb, hda, hdb, hres⟩ := hy.operands hf hs
    obtain ⟨da', db', _, _, hda', hdb', hres'⟩ := hy'.operands hf hs
    have hfloat := BinaryOp.isFloat_of_isAffine hf.affine
    obtain ⟨x₁, x₂, _, rfl, rfl, ⟨⟩, hx⟩ := (BinaryOp.ints_or_none hfloat hres).resolve_right
      fun hno => hno.2.2 y rfl
    obtain ⟨y₁, y₂, _, rfl, rfl, ⟨⟩, hx'⟩ := (BinaryOp.ints_or_none hfloat hres').resolve_right
      fun hno => hno.2.2 y' rfl
    -- A factor of stride zero that is a constant is not the induction value.
    have literal : ∀ {w : Operand} {z : Int64} {c₀ : Int64}, l.Searched f dom iv w (some c₀) →
        Worth tt f args l dom iv ρ x w (.int z) → tt.elementScalar? (f.tyOf w) = some s →
        c₀ = 0 → ∀ n, f.intLiteral? w = some n → s.normalize z = s.normalize n := by
      rintro w z _ hw hz hsw rfl n hn
      have hne : w ≠ iv := by
        rintro rfl
        cases hw.stride?_eq.symm.trans (Searched.self (l := l) (f := f)).stride?_eq
      refine normalize_of_intLiteral hn hsw (hz.value_of_invariant hne ?_)
      cases w with
      | inst j => cases hn
      | _ => rfl
    exact normalize_of_operationStride hr.symm (iha hda hda' hsa rfl) (ihb hdb hdb' hsb rfl)
      (literal ha hda hsa) (literal hb hdb hsb) hx hx'

/-- What is no integer is worth the same for other induction values. -/
theorem Worth.eq_of_not_int (h : Worth tt f args l dom iv ρ x v d) (hd : ∀ y, d ≠ .int y)
    (hx : ∃ m, x = .int m) (h' : Worth tt f args l dom iv ρ x' v d') : d' = d := by
  induction h generalizing d' with
  | self =>
    obtain ⟨m, rfl⟩ := hx
    exact absurd rfl (hd m)
  | invariant hv hinv hval =>
    exact Option.some.inj ((h'.value_of_invariant hv hinv).symm.trans hval)
  | @operation i o a b s da db d hf hsa hsb hs _ _ hres iha ihb =>
    obtain ⟨da', db', _, _, hda', hdb', hres'⟩ := h'.operands hf ((f.tyOf_inst i).symm ▸ hs)
    obtain ⟨hna, hnb, _⟩ := (BinaryOp.ints_or_none (BinaryOp.isFloat_of_isAffine hf.affine)
      hres).resolve_left fun ⟨_, _, z, _, _, hz, _⟩ => hd z hz
    rw [iha hna hda', ihb hnb hdb', hres] at hres'
    exact (Except.ok.inj hres').symm

end

/-! ## Two moments -/

section

variable (tt : TypeTable) (f : Func) (args : List Datum)

/-- The results of the pure instructions of a set are those that their operands have now. -/
def UpToDate (A : InstId → Prop) (ρ : Values) : Prop :=
  ∀ j, A j → (f.op j).isPure = true → ∀ d, ρ j = some d →
    pureResult tt (f.value tt args ρ) f.tyOf (f.inst j).ty (f.op j) = some d

/-- Two moments in a loop between which the induction value is counted up by `k`, as seen from a
point at which the instructions of a set are available. -/
structure Apart (l : NaturalLoop) (dom : DomTree) (iv : Operand) (A : InstId → Prop) (k : Int64)
    (ρ ρ' : Values) : Prop where
  before : UpToDate tt f args A ρ
  after : UpToDate tt f args A ρ'
  /-- The operands of pure instructions are available, too. -/
  closed : ∀ j, A j → (f.op j).isPure = true → ∀ i, Operand.inst i ∈ (f.op j).operands → A i
  /-- An arithmetic instruction has the type of its operands. -/
  typed : ∀ j o a b, A j → f.op j = .binary o a b → f.tyOf a = f.tyOf b ∧
    tt.elementScalar? (f.tyOf a) = tt.elementScalar? (f.inst j).ty
  invariant : ∀ v, l.isInvariant f dom v = true → f.value tt args ρ' v = f.value tt args ρ v
  counts : ∃ x y, f.value tt args ρ iv = some (.int x) ∧ f.value tt args ρ' iv = some (.int y) ∧
    ∀ s, tt.elementScalar? (f.tyOf iv) = some s → s.normalize y = s.normalize (x + k)

end

/-- At a moment when results are up to date, an expression has the datum that it is worth. -/
theorem UpToDate.worth {tt : TypeTable} {f : Func} {args : List Datum} {l : NaturalLoop}
    {dom : DomTree} {iv : Operand} {A : InstId → Prop} {ρ ρ₀ : Values} {x : Datum}
    (h : UpToDate tt f args A ρ)
    (closed : ∀ j, A j → (f.op j).isPure = true → ∀ i, Operand.inst i ∈ (f.op j).operands → A i)
    (typed : ∀ j o a b, A j → f.op j = .binary o a b → f.tyOf a = f.tyOf b ∧
      tt.elementScalar? (f.tyOf a) = tt.elementScalar? (f.inst j).ty)
    (hx : f.value tt args ρ iv = some x)
    (hinv : ∀ v, l.isInvariant f dom v = true → f.value tt args ρ v = f.value tt args ρ₀ v)
    {v : Operand} {r : Option Int64} (hv : l.Searched f dom iv v r) (hr : r.isSome)
    (hA : ∀ j, v = .inst j → A j) {d : Datum} (hd : f.value tt args ρ v = some d) :
    Worth tt f args l dom iv ρ₀ x v d := by
  induction hv generalizing d with
  | self =>
    cases hd.symm.trans hx
    exact .self
  | invariant hne hi => exact .invariant hne hi ((hinv _ hi).symm.trans hd)
  | other _ _ _ _ => cases hr
  | left _ _ _ => cases hr
  | right _ _ _ _ _ => cases hr
  | @both i o a b c₁ c₂ hf _ _ _ iha ihb =>
    have hi := hA i rfl
    have hpure : (f.op i).isPure = true := by rw [hf.op_eq]; rfl
    obtain ⟨hty, htys⟩ := typed i o a b hi hf.op_eq
    have hcl := closed i hi hpure
    rw [hf.op_eq] at hcl
    refine worth_of_pureResult hf hty htys (h i hi hpure d hd) (fun da hda => ?_) fun db hdb => ?_
    · refine iha rfl ?_ hda
      rintro j rfl
      exact hcl j List.mem_cons_self
    · refine ihb rfl ?_ hdb
      rintro j rfl
      exact hcl j (List.mem_cons_of_mem _ List.mem_cons_self)

/-- Between two moments apart by `k`, an expression of stride `c` advances by `c * k`, up to
normalizing. -/
theorem Apart.shifted {tt : TypeTable} {f : Func} {args : List Datum} {l : NaturalLoop}
    {dom : DomTree} {iv : Operand} {A : InstId → Prop} {s : Scalar} {k : Int64} {ρ ρ' : Values}
    (h : Apart tt f args l dom iv A k ρ ρ') {v : Operand} {c : Int64}
    (hc : l.stride? f dom v iv = some c) (hA : ∀ j, v = .inst j → A j)
    (hs : tt.elementScalar? (f.tyOf v) = some s) {d d' : Datum}
    (hd : f.value tt args ρ v = some d) (hd' : f.value tt args ρ' v = some d') :
    d.Shifted s (c * k) d' := by
  obtain ⟨x, y, hx, hy, hk⟩ := h.counts
  have hv := searched_of_stride? hc
  have hw := h.before.worth h.closed h.typed hx (fun _ _ => rfl) hv rfl hA hd
  have hw' := h.after.worth h.closed h.typed hy h.invariant hv rfl hA hd'
  cases d with
  | int z =>
    cases d' with
    | int z' =>
      refine .inl ⟨z, z', rfl, rfl, hw.shifted hv hw' hs ?_⟩
      rintro _ _ ⟨⟩ ⟨⟩
      exact hk
    | _ => cases hw'.eq_of_not_int (fun _ => Datum.noConfusion) ⟨y, rfl⟩ hw
  | _ =>
    exact .inr ⟨fun _ => Datum.noConfusion,
      hw.eq_of_not_int (fun _ => Datum.noConfusion) ⟨x, rfl⟩ hw'⟩

end NaturalLoop

end LoopNest
