import LoopNest.Pass.Vectorize.Apply
import LoopNest.Proofs.Func.Grow
import LoopNest.Proofs.Machine.Arith
import LoopNest.Proofs.Machine.Runs
import LoopNest.Proofs.Typing

/-!
# Where the vector loop ends

The vector loop does the largest multiple of its width that is not above the trip count, and the
old loop does the rest.  The preheader computes where the one ends and the other starts
(`computeEnd`), in the width of the induction type, from a start and a bound anywhere in it.  No step
of that wraps around harmfully, and neither does the induction value of the vector loop
(`computeEnd_splits`).  For constant bounds the end is found in advance, with the same result.
-/

namespace LoopNest

namespace Vectorize

/-! ## The split -/

/-- The end `v` of a vector loop of some width, for a loop from `x` up to `y`.  Without iterations
the difference of bound and start is cut off at zero. -/
structure Splits (s : Scalar) (width : Nat) (x y v : Int64) : Prop where
  /-- The end is an integer of the type. -/
  normalized : s.normalize v = v
  /-- Nothing is done from a start that is not below the bound. -/
  of_le : s.lowBits y ≤ s.lowBits x → s.lowBits v = s.lowBits x
  /-- Otherwise the vector loop does the iterations that fill vectors. -/
  of_lt : s.lowBits x < s.lowBits y → s.lowBits v =
    s.lowBits x + ((s.lowBits y - s.lowBits x) - (s.lowBits y - s.lowBits x) % width)
  /-- It stops at the bound or before, with less than a vector left. -/
  within : s.lowBits x < s.lowBits y → s.lowBits x ≤ s.lowBits v ∧ s.lowBits v ≤ s.lowBits y ∧
    s.lowBits y - s.lowBits v < width
  /-- From the start on, each lap adds the width, without wrapping around.  The value stays below the
  end until it is the end. -/
  laps : ∃ z : Nat → Int64, z 0 = x ∧
    (∀ k, BinaryOp.add.onInt s (z k) (.ofNat width) = .ok (z (k + 1))) ∧
    (∀ k ≤ (s.lowBits y - s.lowBits x) / width, s.lowBits (z k) = s.lowBits x + k * width) ∧
    (∀ k < (s.lowBits y - s.lowBits x) / width, IntPredicate.ult.holds s (z k) v = true) ∧
    IntPredicate.ult.holds s (z ((s.lowBits y - s.lowBits x) / width)) v = false ∧
    s.lowBits (z ((s.lowBits y - s.lowBits x) / width)) = s.lowBits v

/-- The induction value of the vector loop. -/
def stepped (s : Scalar) (width x : Int64) : Nat → Int64
  | 0 => x
  | k + 1 => s.normalize (stepped s width x k + width)

variable {s : Scalar} {w : Nat} {x y v : Int64}

/-- It is not wrapped around while it stays in the type. -/
theorem lowBits_stepped (hs : s.bits ≤ 64) (hw : w < 2 ^ s.bits) : ∀ {k : Nat},
    s.lowBits x + k * w < 2 ^ s.bits →
    s.lowBits (stepped s (.ofNat w) x k) = s.lowBits x + k * w
  | 0, _ => by rw [stepped, Nat.zero_mul, Nat.add_zero]
  | k + 1, h => by
    rw [Nat.succ_mul, ← Nat.add_assoc] at h ⊢
    have ih := lowBits_stepped hs hw (Nat.lt_of_le_of_lt (Nat.le_add_right _ w) h)
    rw [stepped, Scalar.lowBits_normalize, Scalar.lowBits_add_of_lt hs, ih,
      Scalar.lowBits_ofNat hs hw]
    rwa [ih, Scalar.lowBits_ofNat hs hw]

/-- The end is determined by its bits. -/
theorem splits_of_lowBits (hs : s.bits ≤ 64) (hw : 0 < w) (hlt : w < 2 ^ s.bits)
    (hnorm : s.normalize v = v) (hv : s.lowBits v =
      s.lowBits x + ((s.lowBits y - s.lowBits x) - (s.lowBits y - s.lowBits x) % w)) :
    Splits s w x y v := by
  have hx := s.lowBits_lt_pow x
  have hy := s.lowBits_lt_pow y
  generalize ht : s.lowBits y - s.lowBits x = t at hv
  have hdiv : t - t % w = t / w * w := by
    have := Nat.div_add_mod' t w
    omega
  have hmod := Nat.mod_lt t hw
  have hend : s.lowBits v = s.lowBits x + t / w * w := hdiv ▸ hv
  have hlaps : ∀ k ≤ t / w, s.lowBits (stepped s (.ofNat w) x k) = s.lowBits x + k * w := by
    intro k hk
    refine lowBits_stepped hs hlt ?_
    have hmul : k * w ≤ t / w * w := Nat.mul_le_mul_right w hk
    omega
  refine ⟨hnorm, fun hle => ?_, fun _ => ht ▸ hv, fun hxy => ⟨by omega, by omega, by omega⟩,
    stepped s (.ofNat w) x, rfl, fun _ => rfl, ht ▸ hlaps, fun k hk => ?_, ?_, ?_⟩
  · have : t = 0 := by omega
    simpa [this] using hv
  · rw [ht] at hk
    have hmul : (k + 1) * w ≤ t / w * w := Nat.mul_le_mul_right w hk
    rw [Nat.succ_mul] at hmul
    refine decide_eq_true ?_
    rw [hlaps k (Nat.le_of_lt hk), hend]
    omega
  · rw [ht]
    refine decide_eq_false ?_
    rw [hlaps _ (Nat.le_refl _), hend]
    exact Nat.lt_irrefl _
  · rw [ht, hlaps _ (Nat.le_refl _), hend]

/-- What the code computes: the span, or nothing, less what is left over. -/
theorem splits_of_code (hs : s.bits ≤ 64) (hw : 0 < w) (hlt : w < 2 ^ s.bits) {d t r m : Int64}
    (hd : BinaryOp.sub.onInt s y x = .ok d)
    (ht : t = if IntPredicate.ult.holds s x y = true then d else s.normalize 0)
    (hr : BinaryOp.urem.onInt s t (s.normalize (.ofNat w)) = .ok r)
    (hm : BinaryOp.sub.onInt s t r = .ok m) (hv : BinaryOp.add.onInt s x m = .ok v) :
    Splits s w x y v := by
  have hx := s.lowBits_lt_pow x
  have hy := s.lowBits_lt_pow y
  have hwidth : s.lowBits (s.normalize (.ofNat w)) = w := by
    rw [Scalar.lowBits_normalize, Scalar.lowBits_ofNat hs hlt]
  have htrip : s.lowBits t = s.lowBits y - s.lowBits x := by
    obtain rfl := Except.ok.inj hd
    by_cases hxy : s.lowBits x < s.lowBits y
    · have hholds : IntPredicate.ult.holds s x y = true := decide_eq_true hxy
      rw [ht, if_pos hholds, Scalar.lowBits_normalize,
        Scalar.lowBits_sub_of_le hs (Nat.le_of_lt hxy)]
    · have hholds : IntPredicate.ult.holds s x y = false := decide_eq_false hxy
      have hzero : s.lowBits 0 = 0 := Scalar.lowBits_ofNat hs (Nat.two_pow_pos _)
      rw [ht, hholds, if_neg Bool.false_ne_true, Scalar.lowBits_normalize, hzero]
      omega
  change (if s.lowBits (s.normalize (.ofNat w)) = 0 then _ else _) = _ at hr
  rw [hwidth, if_neg (Nat.pos_iff_ne_zero.mp hw)] at hr
  have hrem : s.lowBits r = s.lowBits t % w := by
    obtain rfl := Except.ok.inj hr
    rw [Scalar.lowBits_normalize, Scalar.lowBits_ofNat hs]
    exact Nat.lt_of_le_of_lt (Nat.mod_le _ _) (s.lowBits_lt_pow t)
  have hmain : s.lowBits m = s.lowBits t - s.lowBits t % w := by
    obtain rfl := Except.ok.inj hm
    rw [Scalar.lowBits_normalize, Scalar.lowBits_sub_of_le hs (hrem ▸ Nat.mod_le _ _), hrem]
  obtain rfl := Except.ok.inj hv
  refine splits_of_lowBits hs hw hlt (Scalar.normalize_normalize _ _) ?_
  rw [Scalar.lowBits_normalize, Scalar.lowBits_add_of_lt hs (by omega), hmain, htrip]

end Vectorize

/-- Operands keep their values in a function that has more in it. -/
theorem Func.Below.value_eq {f g : Func} {tt : TypeTable} {args : List Datum} {ρ σ : Values}
    (h : f.Below g) {v : Operand} {t : TyId} (hv : f.operandTy v = .ok t)
    (hσ : ∀ j < f.insts.size, σ j = ρ j) : g.value tt args σ v = f.value tt args ρ v := by
  cases v with
  | inst j => exact hσ j (Func.lt_of_operandTy hv).1
  | param k => rfl
  | const c =>
    simp only [Func.operandTy] at hv
    split at hv
    · rename_i x hx
      simp only [Func.value, Func.constantValue, hx, h.constant_eq c x hx]
    · cases hv

/-! ## The code -/

section

variable {tt : TypeTable} {value : Operand → Option Datum} {tyOf : Operand → TyId} {ty : TyId}
  {l r c : Operand} {s : Scalar} {a b d : Int64}

theorem pureResult_binary {o : BinaryOp} (ho : o.isFloat = false)
    (hs : tt.elementScalar? ty = some s) (hl : value l = some (.int a))
    (hr : value r = some (.int b)) (h : o.onInt s a b = .ok d) :
    pureResult tt value tyOf ty (.binary o l r) = some (.int d) := by
  have happly : o.apply s (.int a) (.int b) = .ok (.int d) := by
    rw [BinaryOp.apply, ho, if_neg Bool.false_ne_true]
    · change (o.onInt s a b >>= fun v => Pure.pure (Datum.int v)) = _
      rw [h]
      rfl
    · nofun
  simp only [pureResult, hs, hl, hr, lanewise, happly]
  rfl

theorem pureResult_icmp {o : IntPredicate} (hs : tt.elementScalar? (tyOf l) = some s)
    (hl : value l = some (.int a)) (hr : value r = some (.int b)) :
    pureResult tt value tyOf ty (.icmp o l r) = some (.bool (o.holds s a b)) := by
  simp only [pureResult, hs, hl, hr]
  rfl

theorem pureResult_select {q : Bool} (hc : value c = some (.bool q)) (hl : value l = some (.int a))
    (hr : value r = some (.int b)) :
    pureResult tt value tyOf ty (.select c l r) = some (.int (if q = true then a else b)) := by
  simp only [pureResult, hc, hl, hr]
  cases q <;> rfl

end

/-- An instruction that does not touch memory, before others. -/
theorem Straight.pure {tt : TypeTable} {f : Func} {args : List Datum} {i : InstId}
    {is : List InstId} {ρ : Values} {rs : Array Region} {δ : List Chunk} {s' : Snapshot} (d : Datum)
    (hd : pureResult tt (f.value tt args ρ) f.tyOf (f.inst i).ty (f.op i) = some d)
    (h : Straight tt f args is ⟨ρ.set i d, rs⟩ δ s') : Straight tt f args (i :: is) ⟨ρ, rs⟩ δ s' :=
  .cons (.pure hd) h

namespace Vectorize

/-- The code that computes the end, from the number of its first instruction and that of its first
constant, with the types of the results. -/
def endCode (p : VectorPlan) (n : InstId) (c : ConstId) : List (Op × TyId) :=
  [(.icmp .ult p.loop.start p.loop.bound, p.boolTy),
   (.binary .sub p.loop.bound p.loop.start, p.ivTy),
   (.select (.inst n) (.inst (n + 1)) (.const c), p.ivTy),
   (.binary .urem (.inst (n + 2)) (.const (c + 1)), p.ivTy),
   (.binary .sub (.inst (n + 2)) (.inst (n + 3)), p.ivTy),
   (.binary .add p.loop.start (.inst (n + 4)), p.ivTy)]

/-- The numbers of its instructions. -/
def endInsts (n : InstId) : List InstId := [n, n + 1, n + 2, n + 3, n + 4, n + 5]

/-- The code was added to a function. -/
structure HasEnd (f : Func) (p : VectorPlan) (width : Int64) (g : Func) : Prop extends f.Below g where
  code_eq : ∀ (k : Nat) x, (endCode p f.insts.size f.constants.size)[k]? = some x →
    g.op (f.insts.size + k) = x.1 ∧ (g.inst (f.insts.size + k)).ty = x.2
  zero_eq : g.constants[f.constants.size]? = some ⟨p.ivTy, .int 0⟩
  width_eq : g.constants[f.constants.size + 1]? = some ⟨p.ivTy, .int width⟩

variable {tt : TypeTable} {f g : Func} {p : VectorPlan} {width : Int64} {args : List Datum}
  {ρ σ : Values} {s : Scalar} {x y : Int64}

theorem hasEnd_computeEnd (f : Func) (p : VectorPlan) (width : Int64) :
    HasEnd f p width (computeEnd f p width).2 := by
  have hconst : (computeEnd f p width).2.constants =
      (f.constants.push ⟨p.ivTy, .int 0⟩).push ⟨p.ivTy, .int width⟩ := by
    simp [computeEnd, addBefore]
  have hadd (f : Func) (op : Op) (t : TyId) (name : String) :
      f.Below (addBefore f p.loop.preheader op t name).2 := f.below_insertInst _ _ _
  refine ⟨?_, fun k x h => ?_, ?_, ?_⟩
  · rw [computeEnd]
    exact (f.below_addConstant _ _).trans <| (Func.below_addConstant _ _ _).trans <|
      (hadd _ _ _ _).trans <| (hadd _ _ _ _).trans <| (hadd _ _ _ _).trans <|
      (hadd _ _ _ _).trans <| (hadd _ _ _ _).trans (hadd _ _ _ _)
  · match k, h with
    | 0, h | 1, h | 2, h | 3, h | 4, h | 5, h =>
      cases h
      simp [computeEnd, addBefore, Func.op, Nat.add_assoc]
  · rw [hconst, Array.getElem?_push, if_neg (by simp), Array.getElem?_push_size]
  · rw [hconst, Array.getElem?_push, if_pos (by simp)]

theorem fst_computeEnd (f : Func) (p : VectorPlan) (width : Int64) :
    (computeEnd f p width).1 = .inst (f.insts.size + 5) := by
  simp [computeEnd, addBefore]

/-- The code computes the end, whatever start and bound are worth. -/
theorem HasEnd.straight (h : HasEnd f p width g) (hiv : tt.elementScalar? p.ivTy = some s)
    (hstart : f.operandTy p.loop.start = .ok p.ivTy)
    (hbound : f.operandTy p.loop.bound = .ok p.ivTy)
    (hx : f.value tt args ρ p.loop.start = some (.int x))
    (hy : f.value tt args ρ p.loop.bound = some (.int y)) (rs : Array Region) {d t r m v : Int64}
    (hd : BinaryOp.sub.onInt s y x = .ok d)
    (ht : t = if IntPredicate.ult.holds s x y = true then d else s.normalize 0)
    (hr : BinaryOp.urem.onInt s t (s.normalize width) = .ok r)
    (hm : BinaryOp.sub.onInt s t r = .ok m) (hv : BinaryOp.add.onInt s x m = .ok v) :
    ∃ σ, Straight tt g args (endInsts f.insts.size) ⟨ρ, rs⟩ [] ⟨σ, rs⟩ ∧
      σ (f.insts.size + 5) = some (.int v) := by
  have hzero (σ : Values) : g.value tt args σ (.const f.constants.size) =
      some (.int (s.normalize 0)) := by
    simp only [Func.value, Func.constantValue, h.zero_eq, hiv, Option.map_some]
  have hwidth (σ : Values) : g.value tt args σ (.const (f.constants.size + 1)) =
      some (.int (s.normalize width)) := by
    simp only [Func.value, Func.constantValue, h.width_eq, hiv, Option.map_some]
  have hty : g.tyOf p.loop.start = p.ivTy :=
    Typing.tyOf_of_operandTy (h.toBelow.keepsTypes.operandTy_eq _ _ hstart)
  have old {σ : Values} (hσ : ∀ j < f.insts.size, σ j = ρ j) :
      g.value tt args σ p.loop.start = some (.int x) ∧
        g.value tt args σ p.loop.bound = some (.int y) :=
    ⟨(h.toBelow.value_eq hstart hσ).trans hx, (h.toBelow.value_eq hbound hσ).trans hy⟩
  have past {σ : Values} (hσ : ∀ j < f.insts.size, σ j = ρ j) (k : Nat) (e : Datum) :
      ∀ j < f.insts.size, σ.set (f.insts.size + k) e j = ρ j := fun j hj => by
    rw [Values.set_of_ne (Nat.ne_of_lt (Nat.lt_add_right k hj)), hσ j hj]
  have hρ : ∀ j < f.insts.size, ρ j = ρ j := fun _ _ => rfl
  have h₁ := past hρ 0 (.bool (IntPredicate.ult.holds s x y))
  have h₂ := past h₁ 1 (.int d)
  have h₃ := past h₂ 2 (.int t)
  have h₄ := past h₃ 3 (.int r)
  have h₅ := past h₄ 4 (.int m)
  refine ⟨_, .pure (.bool (IntPredicate.ult.holds s x y)) ?_ <| .pure (.int d) ?_ <|
    .pure (.int t) ?_ <| .pure (.int r) ?_ <| .pure (.int m) ?_ <| .pure (.int v) ?_ .nil,
    Values.set_self _ _ _⟩
  · obtain ⟨hop, _⟩ := h.code_eq 0 _ rfl
    rw [Nat.add_zero] at hop
    rw [hop]
    exact pureResult_icmp (hty ▸ hiv) (old hρ).1 (old hρ).2
  · obtain ⟨hop, hres⟩ := h.code_eq 1 _ rfl
    rw [hop, hres]
    exact pureResult_binary rfl hiv (old h₁).2 (old h₁).1 hd
  · obtain ⟨hop, _⟩ := h.code_eq 2 _ rfl
    rw [hop]
    exact ht ▸ pureResult_select (by simp [Func.value, Values.set]) (Values.set_self _ _ _) (hzero _)
  · obtain ⟨hop, hres⟩ := h.code_eq 3 _ rfl
    rw [hop, hres]
    exact pureResult_binary rfl hiv (Values.set_self _ _ _) (hwidth _) hr
  · obtain ⟨hop, hres⟩ := h.code_eq 4 _ rfl
    rw [hop, hres]
    exact pureResult_binary rfl hiv (by simp [Func.value, Values.set]) (Values.set_self _ _ _) hm
  · obtain ⟨hop, hres⟩ := h.code_eq 5 _ rfl
    rw [hop, hres]
    exact pureResult_binary rfl hiv (old h₅).1 (Values.set_self _ _ _) hv

/-- A block ends in a terminator, with some instructions in front of it. -/
structure EndsIn (f : Func) (b : BlockId) (front : List InstId) (t : InstId) : Prop where
  body_eq : f.body b = front ++ [t]
  isTerminator : (f.op t).isTerminator = true
  block_lt : b < f.blocks.size
  inst_lt : t < f.insts.size

variable {tt : TypeTable} {f : Func} {p : VectorPlan} {s : Scalar} {w : Nat} {b : BlockId}
  {front : List InstId} {t : InstId}

theorem EndsIn.addConstant (h : EndsIn f b front t) (u : TyId) (l : Literal) :
    EndsIn (f.addConstant u l).2 b front t := ⟨h.body_eq, h.isTerminator, h.block_lt, h.inst_lt⟩

theorem size_addBefore (f : Func) (b : BlockId) (op : Op) (u : TyId) (name : String) :
    (addBefore f b op u name).2.insts.size = f.insts.size + 1 :=
  f.insts_size_insertBeforeTerminator b ⟨op, u, some name⟩

theorem EndsIn.addBefore (h : EndsIn f b front t) (op : Op) (u : TyId) (name : String) :
    EndsIn (addBefore f b op u name).2 b (front ++ [f.insts.size]) t := by
  refine ⟨?_, ?_, ?_, size_addBefore f b op u name ▸ Nat.lt_succ_of_lt h.inst_lt⟩
  · exact (f.body_insertBeforeTerminator h.body_eq h.isTerminator h.block_lt _ b).trans (if_pos rfl)
  · simpa [Vectorize.addBefore, Func.op, Nat.ne_of_lt h.inst_lt] using h.isTerminator
  · simpa [Vectorize.addBefore] using h.block_lt

/-- The code stands before the terminator of the preheader. -/
theorem body_computeEnd {width : Int64} (h : EndsIn f p.loop.preheader front t) :
    (computeEnd f p width).2.body p.loop.preheader = front ++ endInsts f.insts.size ++ [t] := by
  have h₀ := (h.addConstant p.ivTy (.int 0)).addConstant p.ivTy (.int width)
  rw [computeEnd]
  refine ((((((h₀.addBefore _ _ _).addBefore _ _ _).addBefore _ _ _).addBefore _ _ _).addBefore
    _ _ _).addBefore _ _ _).body_eq.trans ?_
  simp [size_addBefore, endInsts]

/-- A constant end is the end that the code computes. -/
theorem vectorEnd_of_literals (c : Context) {v x y a b : Int64} (hstep : c.loop.step = 1)
    (hs : s.bits ≤ 64) (hk : s.kind ≠ .bool)
    (hel : tt.elementScalar? (c.func.tyOf c.loop.start) = some s)
    (ha : c.func.intLiteral? c.loop.start = some a) (hb : c.func.intLiteral? c.loop.bound = some b)
    (hx : s.lowBits x = s.lowBits a) (hy : s.lowBits y = s.lowBits b) (hw : 0 < c.config.width)
    (hle : c.config.width ≤ s.lowBits y - s.lowBits x) (hv : Splits s c.config.width x y v) :
    ∃ k, vectorEnd c tt = .ok (.constant k,
      decide ((s.lowBits y - s.lowBits x) % c.config.width ≠ 0)) ∧ s.normalize k = v := by
  have hxy : s.lowBits x < s.lowBits y := by omega
  have hcount : c.loop.tripCount? tt c.func c.dom c.natural =
      some (.constant (s.lowBits y - s.lowBits x)) := by
    have hone : (1 : Int64).toUInt64.toNat = 1 := rfl
    simp [CountedLoop.tripCount?, ha, hb, hel, hstep, stepsBetween, hx, hy, hone]
  have hend := hv.of_lt hxy
  have hlt := s.lowBits_lt_pow v
  generalize ht : s.lowBits y - s.lowBits x = t at hcount hle hend ⊢
  have hmain : s.lowBits (Int64.ofNat (t - t % c.config.width)) = t - t % c.config.width :=
    Scalar.lowBits_ofNat hs (by omega)
  refine ⟨a + Int64.ofNat (t - t % c.config.width), ?_, ?_⟩
  · rw [vectorEnd, hcount]
    dsimp only
    rw [if_neg (Nat.not_lt.mpr hle), ha, Option.getD_some]
  · rw [← hv.normalized, Scalar.normalize_eq_iff hk, Scalar.lowBits_add_of_lt hs (by omega), hmain,
      hend, hx]

/-- Where the vector loop ends.  For an induction type of at most 64 bits and any width from two to
the largest number of the type, the code in the preheader is executed without a fault and computes
the split, whatever start and bound are worth.  For constants, the end that is found in advance is
the same. -/
theorem computeEnd_splits (f : Func) (p : VectorPlan) (dom : DomTree) (l : NaturalLoop)
    (config : VectorConfig)
    (hty : tt.shape p.ivTy = .scalar s) (hi : s.isInteger = true) (hs : s.bits ≤ 64)
    (hw : 2 ≤ config.width) (hlt : config.width < 2 ^ s.bits) (hstep : p.loop.step = 1)
    (hstart : f.operandTy p.loop.start = .ok p.ivTy)
    (hbound : f.operandTy p.loop.bound = .ok p.ivTy)
    (hend : EndsIn f p.loop.preheader front t) {args : List Datum} {ρ : Values} {x y : Int64}
    (hx : f.value tt args ρ p.loop.start = some (.int x))
    (hy : f.value tt args ρ p.loop.bound = some (.int y)) (rs : Array Region) :
    ∃ code σ v,
      (computeEnd f p (.ofNat config.width)).2.body p.loop.preheader = front ++ code ++ [t] ∧
      Straight tt (computeEnd f p (.ofNat config.width)).2 args code ⟨ρ, rs⟩ [] ⟨σ, rs⟩ ∧
      (computeEnd f p (.ofNat config.width)).2.value tt args σ
        (computeEnd f p (.ofNat config.width)).1 = some (.int v) ∧
      Splits s config.width x y v ∧
      ∀ a b, f.intLiteral? p.loop.start = some a → f.intLiteral? p.loop.bound = some b →
        config.width ≤ s.lowBits y - s.lowBits x →
        ∃ k, vectorEnd ⟨f, dom, l, p.loop, config⟩ tt = .ok (.constant k,
          decide ((s.lowBits y - s.lowBits x) % config.width ≠ 0)) ∧ s.normalize k = v := by
  have hiv : tt.elementScalar? p.ivTy = some s := by rw [TypeTable.elementScalar?, hty]
  have hk : s.kind ≠ .bool := by
    intro hk
    simp [Scalar.isInteger, hk] at hi
  have hne : s.lowBits (s.normalize (.ofNat config.width)) ≠ 0 := by
    rw [Scalar.lowBits_normalize, Scalar.lowBits_ofNat hs hlt]
    omega
  obtain ⟨σ, hrun, hv⟩ := (hasEnd_computeEnd f p (.ofNat config.width)).straight hiv hstart hbound
    hx hy rs rfl rfl (if_neg hne) rfl rfl
  have hsplits := splits_of_code (x := x) (y := y) hs (by omega) hlt rfl rfl (if_neg hne) rfl rfl
  have literal {v : Operand} {z n : Int64} (hv : f.operandTy v = .ok p.ivTy)
      (hz : f.value tt args ρ v = some (.int z)) (hn : f.intLiteral? v = some n) :
      s.lowBits z = s.lowBits n := by
    rw [Func.value_of_intLiteral hn, Typing.tyOf_of_operandTy hv, hiv] at hz
    cases hz
    exact Scalar.lowBits_normalize s n
  refine ⟨_, σ, _, body_computeEnd hend, hrun, ?_, hsplits, fun a b ha hb hle => ?_⟩
  · rw [fst_computeEnd]
    exact hv
  · exact vectorEnd_of_literals ⟨f, dom, l, p.loop, config⟩ hstep hs hk
      (Typing.tyOf_of_operandTy hstart ▸ hiv) ha hb (literal hstart hx ha) (literal hbound hy hb)
      (by dsimp only; omega) hle hsplits

/-- Unsigned integers of eight bits. -/
def byteTypes : TypeTable :=
  ⟨#[⟨none, .void⟩, ⟨none, .scalar .bool⟩, ⟨none, .scalar ⟨.uint, 1⟩⟩]⟩

/-- The preheader of a loop over them, from a literal up to a parameter. -/
def byteFunc (start bound : Int64) : Func where
  name := "f"
  params := #[]
  ret := 0
  blocks := #[⟨"entry", [0], false⟩]
  insts := #[⟨.br 1, 0, none, some 0⟩]
  constants := #[⟨2, .int start⟩, ⟨2, .int bound⟩]
  layout := [0]

/-- What is planned for the loop. -/
def bytePlan : VectorPlan where
  loop := ⟨0, 1, 2, 3, [], 2, 1, .const 0, .const 1, 1, 2, 3⟩
  steps := []
  stop := .computed
  epilogue := true
  ivTy := 2
  boolTy := 1
  voidTy := 0
  base := "i"

/-- Five iterations at the end of the type: four fill a vector. -/
theorem computeEnd_splits_byteFunc : ∃ code σ v,
    (computeEnd (byteFunc 250 255) bytePlan 4).2.body 0 = [] ++ code ++ [0] ∧
    Straight byteTypes (computeEnd (byteFunc 250 255) bytePlan 4).2 [] code ⟨fun _ => none, #[]⟩ []
      ⟨σ, #[]⟩ ∧
    Scalar.lowBits ⟨.uint, 1⟩ v = 254 ∧
    ∃ k, vectorEnd ⟨byteFunc 250 255, default, default, bytePlan.loop, .standard⟩ byteTypes =
      .ok (.constant k, true) ∧ Scalar.normalize ⟨.uint, 1⟩ k = v := by
  have hend : EndsIn (byteFunc 250 255) bytePlan.loop.preheader [] 0 :=
    ⟨rfl, rfl, by decide, by decide⟩
  have hty : byteTypes.shape bytePlan.ivTy = .scalar ⟨.uint, 1⟩ := rfl
  have hstart : (byteFunc 250 255).value byteTypes [] (fun _ => none) (.const 0) =
      some (.int 250) := rfl
  have hbound : (byteFunc 250 255).value byteTypes [] (fun _ => none) (.const 1) =
      some (.int 255) := rfl
  obtain ⟨code, σ, v, hcode, hrun, _, hsplits, hconst⟩ :=
    computeEnd_splits (byteFunc 250 255) bytePlan default default .standard hty rfl (by decide)
      (by decide) (by decide) rfl rfl rfl hend hstart hbound #[]
  exact ⟨code, σ, v, hcode, hrun, hsplits.of_lt (by decide), hconst 250 255 rfl rfl (by decide)⟩

end Vectorize

end LoopNest
