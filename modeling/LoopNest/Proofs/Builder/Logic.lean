import LoopNest.Proofs.Builder.Grows
import LoopNest.Proofs.Machine.Points
import LoopNest.Proofs.Machine.Signed
import LoopNest.Proofs.Typing.Rules

/-!
# What built code does

Construction and execution are two stages: a step of construction emits instructions, and the
finished function is run.  `World.Does` speaks of both at once.  It says of a step that the
instructions which it emits, run in the finished function, take control from one place to
another, and what is known of operands and regions there.  Its rules follow the code of a step
one emitted instruction after the other, as in weakest preconditions.

What is known is a list of *facts* (`Fact`), each the type and the value of an operand, or the
shape of a type.  Facts are found by instance search (`Facts.Has`).  An emitted instruction adds a
fact and keeps the others, since no code that is emitted later changes an earlier result
without passing through it again.

Integers in facts are of any size and stand for data up to the range of their type.  Where an
address is computed its index must be in range, and may have to meet a further condition
(`World.ok`), which lets a proof collect what all the addresses of a run have in common.
-/

namespace LoopNest

/-! ## Facts -/

/-- What an operand means: its type and its value. -/
inductive Meaning where
  /-- An integer of a signed type, up to the range of the type. -/
  | int (s : Scalar) (n : Int)
  /-- A truth value. -/
  | bool (b : Bool)
  /-- A single-precision number. -/
  | f32 (x : F32)
  /-- A pointer to single-precision numbers, or to an array of them of a given length. -/
  | ptr (length : Option Nat) (p : Pointer)

/-- The value of an operand. -/
def Meaning.datum : Meaning → Datum
  | .int s n => .int (s.wrap n)
  | .bool b => .bool b
  | .f32 x => .f32 x
  | .ptr _ p => .ptr p

/-- Whether a type is that of an operand. -/
def Meaning.OfType (tt : TypeTable) (t : TyId) : Meaning → Prop
  | .int s _ => tt.shape t = .scalar s ∧ s.IsSigned
  | .bool _ => tt.shape t = .scalar .bool
  | .f32 _ => tt.shape t = .scalar .f32
  | .ptr none _ => ∃ u, tt.shape t = .pointer u ∧ tt.shape u = .scalar .f32
  | .ptr (some _) _ => ∃ u, tt.shape t = .pointer u

/-- Something that is known while a function is built. -/
inductive Fact where
  /-- The meaning of an operand. -/
  | val (v : Operand) (m : Meaning)
  /-- The shape of a type. -/
  | shape (t : TyId) (sh : Shape)
  /-- The name of a phi. -/
  | name (v : Operand) (name : String)

/-- What is known while a function is built. -/
abbrev Facts := List Fact

/-- An operand has a known meaning. -/
class Facts.Has (Γ : Facts) (v : Operand) (m : outParam Meaning) : Prop where
  mem : .val v m ∈ Γ

/-- A type has a known shape. -/
class Facts.Shaped (Γ : Facts) (t : TyId) (sh : outParam Shape) : Prop where
  mem : .shape t sh ∈ Γ

/-- An operand is a phi with a known name. -/
class Facts.Named (Γ : Facts) (v : Operand) (name : outParam String) : Prop where
  mem : .name v name ∈ Γ

namespace Facts

variable {Γ : Facts} {v : Operand} {m : Meaning} {t : TyId} {sh : Shape} {name : String}

instance (priority := 10000) : Has (.val v m :: Γ) v m := ⟨List.mem_cons_self⟩

instance (e : Fact) [h : Has Γ v m] : Has (e :: Γ) v m := ⟨List.mem_cons_of_mem e h.mem⟩

instance (priority := 10000) : Shaped (.shape t sh :: Γ) t sh := ⟨List.mem_cons_self⟩

instance (e : Fact) [h : Shaped Γ t sh] : Shaped (e :: Γ) t sh := ⟨List.mem_cons_of_mem e h.mem⟩

instance (priority := 10000) : Named (.name v name :: Γ) v name := ⟨List.mem_cons_self⟩

instance (e : Fact) [h : Named Γ v name] : Named (e :: Γ) v name := ⟨List.mem_cons_of_mem e h.mem⟩

end Facts

/-! ## Worlds -/

/-- A finished function and a call of it. -/
structure World where
  /-- The types. -/
  types : TypeTable
  /-- The function. -/
  func : Func
  /-- The arguments of the call. -/
  args : List Datum
  /-- What is demanded of every address that is computed, by the values of operands, the base
  and the index. -/
  ok : (Operand → Option Datum) → Operand → Operand → Prop

namespace World

variable (W : World)

/-- The finished function as a site. -/
def site : Site := ⟨W.types, W.func⟩

/-- The value of an operand. -/
def value (ρ : Values) : Operand → Option Datum := W.func.value W.types W.args ρ

/-- The demand on addresses is met by the next instruction. -/
def Ok (P : Point) : Prop :=
  ∀ i is b x, P.rest = i :: is → W.func.op i = .gep b x → W.ok (W.value P.values) b x

/-- The run goes from one point to another, and meets the demand on addresses. -/
def Goes : Point → Point → Prop := Passes W.types W.func W.args W.Ok

/-- The point of a block that construction has come to. -/
def point (s : Site) (here : BlockId) (ρ : Values) (rs : Array Region) : Point :=
  ⟨here, (W.func.body here).drop (s.func.body here).length, ρ, rs⟩

/-- An operand is a phi with a name. -/
def Named (v : Operand) (name : String) : Prop :=
  ∃ i, v = .inst i ∧ (W.func.op i).isPhi = true ∧ (W.func.inst i).name = some name

/-- The fact holds at a site, and for the values of a run. -/
def Holds (s : Site) (ρ : Values) : Fact → Prop
  | .val v m => (∃ t, s.func.operandTy v = .ok t ∧ m.OfType s.types t) ∧ W.value ρ v = some m.datum
  | .shape t sh => s.types.shape t = sh ∧ sh ≠ .void
  | .name v name => W.Named v name

/-- All facts hold. -/
def Knows (s : Site) (ρ : Values) (Γ : Facts) : Prop := ∀ e ∈ Γ, W.Holds s ρ e

/-- The step, built and run from `here` with some facts and regions, ends in a place with facts
and regions for its result.  Results of earlier instructions stay. -/
structure Does {α : Type} (x : Build α) (here : BlockId) (Γ : Facts) (rs : Array Region)
    (Q : α → BlockId → Facts → Array Region → Prop) : Prop where
  outcome : ∀ {s s' : Site} {a : α}, s.Ready here → x s = (.ok a, s') →
    ∃ there Γ' rs', Q a there Γ' rs' ∧ s.Continues s' here there ∧
      (s'.Grows W.site → ∀ {ρ : Values}, W.Knows s ρ Γ →
        ∃ ρ', W.Goes (W.point s here ρ rs) (W.point s' there ρ' rs') ∧ W.Knows s' ρ' Γ' ∧
          ∀ i < s.func.insts.size, ρ' i = ρ i)

end World

/-! ## Facts stay -/

theorem Meaning.OfType.extends {tt tt' : TypeTable} {t : TyId} {m : Meaning}
    (h : m.OfType tt t) (ht : tt.Extends tt') : m.OfType tt' t := by
  cases m with
  | int s n => exact ⟨ht.shape_eq h.1 (by simp), h.2⟩
  | bool b => exact ht.shape_eq h (by simp)
  | f32 x => exact ht.shape_eq h (by simp)
  | ptr length p =>
    cases length with
    | none =>
      obtain ⟨u, hu, hs⟩ := h
      exact ⟨u, ht.shape_eq hu (by simp), ht.shape_eq hs (by simp)⟩
    | some n =>
      obtain ⟨u, hu⟩ := h
      exact ⟨u, ht.shape_eq hu (by simp)⟩

namespace World

variable {W : World} {s s' : Site} {ρ ρ' : Values} {Γ : Facts}

/-- Results that a fact does not speak of may change. -/
theorem Holds.grows {e : Fact} (h : W.Holds s ρ e) (hg : s.Grows s')
    (hρ : ∀ i < s.func.insts.size, ρ' i = ρ i) : W.Holds s' ρ' e := by
  cases e with
  | shape t sh => exact ⟨hg.types.shape_eq h.1 h.2, h.2⟩
  | name v name => exact h
  | val v m =>
    obtain ⟨⟨t, ht, hm⟩, hv⟩ := h
    refine ⟨⟨t, hg.func.keepsTypes.operandTy_eq v t ht, hm.extends hg.types⟩, ?_⟩
    rw [← hv]
    cases v with
    | inst i => exact hρ i (Func.lt_of_operandTy ht).1
    | param k => rfl
    | const c => rfl

theorem Knows.grows (h : W.Knows s ρ Γ) (hg : s.Grows s')
    (hρ : ∀ i < s.func.insts.size, ρ' i = ρ i) : W.Knows s' ρ' Γ :=
  fun e he => (h e he).grows hg hρ

theorem Knows.cons {e : Fact} (he : W.Holds s ρ e) (h : W.Knows s ρ Γ) : W.Knows s ρ (e :: Γ) := by
  intro e' he'
  rcases List.mem_cons.mp he' with rfl | he'
  · exact he
  · exact h e' he'

theorem Knows.fits (h : W.Knows s ρ Γ) (v : Operand) {m : Meaning} [hv : Γ.Has v m] :
    ∃ t, s.func.operandTy v = .ok t ∧ m.OfType s.types t := (h _ hv.mem).1

theorem Knows.value_eq (h : W.Knows s ρ Γ) (v : Operand) {m : Meaning} [hv : Γ.Has v m] :
    W.value ρ v = some m.datum := (h _ hv.mem).2

/-- A natural number in range is its own value. -/
theorem Knows.value_nat (h : W.Knows s ρ Γ) (v : Operand) {sc : Scalar} {n : Nat}
    [Γ.Has v (.int sc n)] (hn : n * 2 < 2 ^ sc.bits) :
    W.value ρ v = some (.int (Int64.ofNat n)) := by
  rw [h.value_eq v, Meaning.datum, Scalar.wrap_eq_ofInt (by omega) (by omega)]
  rfl

theorem Knows.shape_eq (h : W.Knows s ρ Γ) (t : TyId) {sh : Shape} [ht : Γ.Shaped t sh] :
    s.types.shape t = sh := (h _ ht.mem).1

theorem Knows.named (h : W.Knows s ρ Γ) (v : Operand) {name : String} [hv : Γ.Named v name] :
    W.Named v name := h _ hv.mem

/-! ## Sequences -/

variable {α β : Type} {here : BlockId} {rs : Array Region}
  {Q : α → BlockId → Facts → Array Region → Prop}

theorem Does.bind {x : Build β} {k : β → Build α}
    (h : W.Does x here Γ rs fun b here Γ rs => W.Does (k b) here Γ rs Q) :
    W.Does (x >>= k) here Γ rs Q := by
  refine ⟨fun {s s' a} hs hb => ?_⟩
  obtain ⟨b, t, hb, ha⟩ := Build.bind_eq_ok.mp hb
  obtain ⟨here₁, Γ₁, rs₁, hk, hst, hrun⟩ := h.outcome hs hb
  obtain ⟨here₂, Γ₂, rs₂, hQ, hts, hrun'⟩ := hk.outcome hst.ready ha
  refine ⟨here₂, Γ₂, rs₂, hQ, hst.trans hts, fun hg {ρ} hρ => ?_⟩
  obtain ⟨ρ₁, hgo, hknow, hkeep⟩ := hrun (hts.grows.trans hg) hρ
  obtain ⟨ρ₂, hgo', hknow', hkeep'⟩ := hrun' hg hknow
  refine ⟨ρ₂, hgo.trans hgo', hknow', fun i hi => ?_⟩
  rw [hkeep' i (Nat.lt_of_lt_of_le hi hst.grows.func.insts_le), hkeep i hi]

/-- Two ways to come to the same code. -/
theorem Does.ite_bind {b : Bool} {x y : Build β} {k : β → Build α}
    (h : W.Does (if b then x else y) here Γ rs fun a here Γ rs => W.Does (k a) here Γ rs Q) :
    W.Does (if b then x >>= k else y >>= k) here Γ rs Q := by
  cases b
  · exact .bind h
  · exact .bind h

theorem Does.pure {a : α} (h : Q a here Γ rs) : W.Does (Pure.pure a) here Γ rs Q := by
  refine ⟨fun {s s' b} hs hb => ?_⟩
  obtain ⟨rfl, rfl⟩ := Build.pure_eq_ok.mp hb
  exact ⟨here, Γ, rs, h, .refl hs, fun _ {ρ} hρ => ⟨ρ, .refl, hρ, fun _ _ => rfl⟩⟩

/-- Facts may be forgotten. -/
theorem Does.forget {x : Build α}
    (h : W.Does x here Γ rs fun a here Γ rs => ∃ Γ' ⊆ Γ, Q a here Γ' rs) :
    W.Does x here Γ rs Q := by
  refine ⟨fun {s s' a} hs ha => ?_⟩
  obtain ⟨there, Γ₁, rs', ⟨Γ', hsub, hQ⟩, hst, hrun⟩ := h.outcome hs ha
  refine ⟨there, Γ', rs', hQ, hst, fun hg {ρ} hρ => ?_⟩
  obtain ⟨ρ', hgo, hknow, hkeep⟩ := hrun hg hρ
  exact ⟨ρ', hgo, fun e he => hknow e (hsub he), hkeep⟩

/-- A step that emits no code and gives facts. -/
theorem Does.of_static {x : Build α} (f : α → Facts)
    (hx : ∀ {s s' : Site} {a : α}, s.Ready here → x s = (.ok a, s') → s.Continues s' here here ∧
      s'.func.body here = s.func.body here ∧
      (s'.Grows W.site → ∀ {ρ : Values}, W.Knows s ρ Γ → W.Knows s' ρ (f a)))
    (hQ : ∀ a, Q a here (f a ++ Γ) rs) : W.Does x here Γ rs Q := by
  refine ⟨fun {s s' a} hs ha => ?_⟩
  obtain ⟨hst, hbody, hf⟩ := hx hs ha
  refine ⟨here, _, rs, hQ a, hst, fun hg {ρ} hρ => ⟨ρ, ?_, fun e he => ?_, fun _ _ => rfl⟩⟩
  · rw [point, point, hbody]
    exact .refl
  · rcases List.mem_append.mp he with he | he
    · exact hf hg hρ e he
    · exact (hρ e he).grows hst.grows fun _ _ => rfl

/-! ## Emitted instructions -/

variable (W) in
/-- An instruction was emitted, and is found in the finished function. -/
structure Emitted (s s' : Site) (here : BlockId) (op : Op) (declared : Option TyId) (i : InstId)
    (ty : Ty) : Prop where
  typed : Typing.resultTy s.types s.func op declared = .ok ty
  inst_eq : i = s.func.insts.size
  grows : s.Grows s'
  final : s'.Within W.site
  lt : i < W.func.insts.size
  op_eq : W.func.op i = op
  operandTy_eq : s'.func.operandTy (.inst i) = .ok (W.func.inst i).ty
  get?_ty : s'.types.get? (W.func.inst i).ty = some ty
  rest : ∃ is, (W.func.body here).drop (s.func.body here).length = i :: is ∧
    (W.func.body here).drop (s'.func.body here).length = is

theorem emitted {op : Op} (hop : op.isPhi = false) {declared : Option TyId}
    {name : Option String} {i : InstId} (h : Build.emit here op declared name s = (.ok i, s'))
    (hg : s'.Within W.site) : ∃ ty, Emitted W s s' here op declared i ty := by
  obtain ⟨hb, ty, hty, rfl, rfl⟩ := Build.emit_eq_ok h
  have hlt : s.func.insts.size <
      (s.func.appendInst here ⟨op, (s.types.insert ty).1, name⟩).2.insts.size := by
    simp
  have hinst := s.func.inst_appendInst here ⟨op, (s.types.insert ty).1, name⟩ s.func.insts.size
  rw [if_pos rfl] at hinst
  have hfunc : (s.func.appendInst here ⟨op, (s.types.insert ty).1, name⟩).2.Within W.func := hg.func
  have hty' : (W.func.inst s.func.insts.size).ty = (s.types.insert ty).1 := by
    rw [hfunc.ty_eq _ hlt, hinst]
  obtain ⟨is, hbody, hdrop⟩ := hfunc.drop_body here
  refine ⟨ty, hty, rfl, ⟨s.types.extends_insert ty, Func.grows_appendInst hb _ hop⟩, hg,
    Nat.lt_of_lt_of_le hlt hfunc.insts_le, ?_, ?_, ?_, is, ?_, hdrop⟩
  · rw [hfunc.op_eq hlt (by rw [Func.op, hinst]; exact hop), Func.op, hinst]
  · rw [Func.operandTy_inst hlt, hinst, hty']
  · rw [hty']
    exact Pool.get?_insert s.types ty
  · rw [hbody, Func.body_appendInst _ _ hb, if_pos rfl, List.append_assoc, List.drop_left,
      List.singleton_append]

/-- An instruction that computes a result. -/
theorem Does.emit {op : Op} {declared : Option TyId} {name : Option String} {d : Datum}
    {rs' : Array Region} {Q : InstId → BlockId → Facts → Array Region → Prop} (f : InstId → Facts)
    (hop : op.isPhi = false)
    (hok : ∀ {s : Site} {ρ : Values} {b x : Operand}, W.Knows s ρ Γ → op = .gep b x →
      W.ok (W.value ρ) b x)
    (hx : ∀ {s s' : Site} {ρ : Values} {i : InstId} {ty : Ty},
      Emitted W s s' here op declared i ty → W.Knows s ρ Γ →
      (∃ δ, Computes W.types (W.value ρ) W.func.tyOf (W.func.inst i).ty op rs d δ rs') ∧
        W.Knows s' (ρ.set i d) (f i))
    (hQ : ∀ i, Q i here (f i ++ Γ) rs') :
    W.Does (Build.emit here op declared name) here Γ rs Q := by
  refine ⟨fun {s s' i} hs hi => ⟨here, _, rs', hQ i, Build.continues_of_emit hop hs.listed hi,
    fun hg {ρ} hρ => ?_⟩⟩
  obtain ⟨ty, he⟩ := emitted hop hi hg.within
  obtain ⟨⟨δ, hcomp⟩, hf⟩ := hx he hρ
  obtain ⟨is, hrest, hrest'⟩ := he.rest
  have hkeep : ∀ j < s.func.insts.size, ρ.set i d j = ρ j := fun j hj =>
    Values.set_of_ne (he.inst_eq ▸ Nat.ne_of_lt hj)
  refine ⟨ρ.set i d, .single ⟨?_, ?_⟩, fun e hmem => ?_, hkeep⟩
  · intro j js b x hj hgep
    rw [point, hrest] at hj
    cases hj
    exact hok hρ (he.op_eq.symm.trans hgep)
  · rw [point, point, hrest, hrest']
    exact .plain he.lt (he.op_eq ▸ hcomp)
  · rcases List.mem_append.mp hmem with hmem | hmem
    · exact hf e hmem
    · exact (hρ e hmem).grows he.grows hkeep

variable {op : Op} {rs' : Array Region} {name : String}

/-- An instruction whose result has a meaning. -/
theorem Does.result {declared : Option TyId} {m : Meaning}
    {Q : Operand → BlockId → Facts → Array Region → Prop} (hop : op.isPhi = false)
    (hok : ∀ {s : Site} {ρ : Values} {b x : Operand}, W.Knows s ρ Γ → op = .gep b x →
      W.ok (W.value ρ) b x)
    (hx : ∀ {s s' : Site} {ρ : Values} {i : InstId} {ty : Ty},
      Emitted W s s' here op declared i ty → W.Knows s ρ Γ →
      (∃ δ, Computes W.types (W.value ρ) W.func.tyOf (W.func.inst i).ty op rs m.datum δ rs') ∧
        m.OfType s'.types (W.func.inst i).ty)
    (hQ : ∀ v, Q v here (.val v m :: Γ) rs') :
    W.Does (Build.emit here op declared (some name) >>= fun i => Pure.pure (Operand.inst i))
      here Γ rs Q := by
  refine .bind (.emit (d := m.datum) (fun i => [.val (.inst i) m]) hop hok (fun he hρ => ?_)
    fun i => .pure (hQ _))
  obtain ⟨hcomp, hm⟩ := hx he hρ
  refine ⟨hcomp, fun e hmem => ?_⟩
  rw [List.mem_singleton.mp hmem]
  exact ⟨⟨_, he.operandTy_eq, hm⟩, Values.set_self _ _ _⟩

/-- An instruction without a result. -/
theorem Does.effect {Q : Unit → BlockId → Facts → Array Region → Prop} (hop : op.isPhi = false)
    (hok : ∀ b x, op ≠ .gep b x)
    (hx : ∀ {s s' : Site} {ρ : Values} {i : InstId} {ty : Ty},
      Emitted W s s' here op none i ty → W.Knows s ρ Γ →
      ∃ δ, Computes W.types (W.value ρ) W.func.tyOf (W.func.inst i).ty op rs .void δ rs')
    (hQ : Q () here Γ rs') : W.Does (Build.effect here op) here Γ rs Q := by
  refine .bind (.emit (d := .void) (fun _ => []) hop (fun _ h => absurd h (hok _ _))
    (fun he hρ => ⟨hx he hρ, fun _ h => absurd h List.not_mem_nil⟩) fun i => .pure hQ)

end World

end LoopNest
