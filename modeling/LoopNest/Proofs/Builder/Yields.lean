import LoopNest.Proofs.Builder.Shape

/-!
# What code yields

`Build.Yields` says of a step of construction where code goes on, which loops were built on the way,
and what is known of every function that the site grows into.  A block keeps the instructions that
were appended to it, so what was known once stays known.  The rules follow the code of the step.
-/

namespace LoopNest

/-- What is known of a finished function while it is built. -/
abbrev Remark := Func → Prop

/-- A block of the function holds an instruction. -/
def Func.Holds (f : Func) (b : BlockId) (i : InstId) (op : Op) : Prop := i ∈ f.body b ∧ f.op i = op

namespace Build

variable {P P' : Remark} {s s' : Site} {here there : BlockId}

/-- The step adds code to the function.  Building goes on in some place, with the calls that were
made and what is known. -/
structure Yields {α : Type} (x : Build α) (here : BlockId) (P : Remark)
    (Q : α → BlockId → Calls → Remark → Prop) : Prop where
  outcome : ∀ {s s' : Site} {a : α}, s.Ready here → x s = (.ok a, s') →
    ∃ calls there P', Emits s here calls s' there ∧ (∀ f, s'.func.Grows f → P f → P' f) ∧
      Q a there calls P'

/-- The code returns at its end, and then something holds of the function and the calls. -/
structure Ends (x : Build Unit) (here : BlockId) (P : Remark) (Q : Calls → Remark) : Prop where
  outcome : ∀ {s s' : Site}, s.Ready here → x s = (.ok (), s') → ∃ calls there s₁,
    Emits s here calls s₁ there ∧ Build.ret there none s₁ = (.ok (), s') ∧
      ∀ f, s'.func.Grows f → P f → Q calls f

/-- The code makes up a whole function. -/
structure Forms (x : Build Unit) (Q : Calls → Remark) : Prop where
  outcome : ∀ {types : TypeTable} {name : String} {params : Array Param} {ret : TyId} {s' : Site},
    x ⟨types, .declare name params ret⟩ = (.ok (), s') →
      ∃ calls, Whole calls s'.func ∧ Q calls s'.func

/-! ## Sequences -/

namespace Yields

variable {α β : Type} {Q : α → BlockId → Calls → Remark → Prop}

theorem bind {x : Build β} {k : β → Build α}
    (h : Yields x here P fun b here calls P =>
      Yields (k b) here P fun a there calls' => Q a there (calls.append calls')) :
    Yields (x >>= k) here P Q := by
  refine ⟨fun {s s' a} hs hx => ?_⟩
  obtain ⟨b, t, hb, ha⟩ := bind_eq_ok.mp hx
  obtain ⟨calls, e, P₁, hfirst, hknow, hk⟩ := h.outcome hs hb
  have hready := (hfirst.continues hs).ready
  obtain ⟨calls', there, P₂, hrest, hknow', hQ⟩ := hk.outcome hready ha
  have hgrows := (hrest.continues hready).grows.func
  exact ⟨_, there, P₂, hfirst.trans hrest,
    fun f hf hP => hknow' f hf (hknow f (hgrows.trans hf) hP), hQ⟩

theorem pure {a : α} (h : Q a here .none P) : Yields (Pure.pure a) here P Q := by
  refine ⟨fun {s s' b} _ hb => ?_⟩
  obtain ⟨rfl, rfl⟩ := pure_eq_ok.mp hb
  exact ⟨_, _, P, .done _ _, fun _ _ hP => hP, h⟩

/-- Not all that is known has to be kept in mind. -/
theorem forget {x : Build α} (h : Yields x here P fun a there calls P =>
    ∃ P', (∀ f, P f → P' f) ∧ Q a there calls P') : Yields x here P Q := by
  refine ⟨fun {s s' a} hs hx => ?_⟩
  obtain ⟨calls, there, P₁, hemits, hknow, P', hP', hQ⟩ := h.outcome hs hx
  exact ⟨calls, there, P', hemits, fun f hf hP => hP' f (hknow f hf hP), hQ⟩

/-- Two ways to come to the same code. -/
theorem ite_bind {b : Bool} {x y : Build β} {k : β → Build α}
    (h : Yields (if b then x else y) here P fun a here calls P =>
      Yields (k a) here P fun a there calls' => Q a there (calls.append calls')) :
    Yields (if b then x >>= k else y >>= k) here P Q := by
  cases b
  · exact .bind h
  · exact .bind h

end Yields

theorem Ends.bind {α : Type} {x : Build α} {k : α → Build Unit} {Q : Calls → Remark}
    (h : Yields x here P fun a here calls P => Ends (k a) here P fun calls' =>
      Q (calls.append calls')) : Ends (x >>= k) here P Q := by
  refine ⟨fun {s s'} hs hx => ?_⟩
  obtain ⟨a, t, ha, hk⟩ := bind_eq_ok.mp hx
  obtain ⟨calls, e, P₁, hfirst, hknow, hends⟩ := h.outcome hs ha
  have hready := (hfirst.continues hs).ready
  obtain ⟨calls', there, s₁, hrest, hret, hQ⟩ := hends.outcome hready hk
  have hready₁ := (hrest.continues hready).ready
  have hgrows := (hrest.continues hready).grows.func.trans
    (continues_of_effect rfl hready₁.listed hret).grows.func
  exact ⟨_, there, s₁, hfirst.trans hrest, hret,
    fun f hf hP => hQ f hf (hknow f (hgrows.trans hf) hP)⟩

theorem Ends.ret {Q : Calls → Remark} (h : ∀ f, P f → Q .none f) :
    Ends (Build.ret here none) here P Q :=
  ⟨fun _ hx => ⟨_, _, _, .done _ _, hx, fun f _ hP => h f hP⟩⟩

theorem Forms.block {label : String} {k : BlockId → Build Unit} {Q : Calls → Remark}
    (h : Ends (k 0) 0 (fun _ => True) Q) : Forms (Build.block label >>= k) Q := by
  refine ⟨fun {types name params ret s'} hx => ?_⟩
  obtain ⟨entry, s₁, hentry, hk⟩ := bind_eq_ok.mp hx
  have htidy := Site.Tidy.block ⟨Func.arranged_declare name params ret, rfl⟩ hentry
  obtain ⟨rfl, rfl⟩ := block_eq_ok.mp hentry
  have hready : Site.Ready ⟨types, ((Func.declare name params ret).addBlock label).2⟩ 0 :=
    ⟨htidy.arranged.listed, Nat.zero_lt_one⟩
  obtain ⟨calls, there, s₂, hcode, hret, hQ⟩ := h.outcome hready hk
  exact ⟨calls, .close hentry hcode hret, hQ _ (.refl _) trivial⟩

theorem Forms.intern {sh : Shape} {k : TyId → Build Unit} {Q : Calls → Remark}
    (h : ∀ t, Forms (k t) Q) : Forms (Build.intern sh >>= k) Q := by
  refine ⟨fun {types name params ret s'} hx => ?_⟩
  obtain ⟨t, s₁, ht, hk⟩ := bind_eq_ok.mp hx
  obtain ⟨rfl, rfl⟩ := internTy_eq_ok.mp ht
  exact (h _).outcome hk

/-! ## Steps -/

namespace Yields

theorem param {k : Nat} {Q : Operand → BlockId → Calls → Remark → Prop}
    (hQ : Q (.param k) here .none P) : Yields (Build.param k) here P Q := by
  refine ⟨fun {s s' v} _ hx => ?_⟩
  obtain ⟨rfl, rfl⟩ := param_eq_ok hx
  exact ⟨_, _, P, .done _ _, fun _ _ hP => hP, hQ⟩

theorem intern {sh : Shape} {Q : TyId → BlockId → Calls → Remark → Prop}
    (hQ : ∀ t, Q t here .none P) : Yields (Build.intern sh) here P Q :=
  ⟨fun _ hx => ⟨_, _, P, .step (.type hx) (.done _ _), fun _ _ hP => hP, hQ _⟩⟩

theorem constant {sc : Scalar} {l : Literal} {Q : Operand → BlockId → Calls → Remark → Prop}
    (hQ : ∀ v, Q v here .none P) : Yields (Build.constant sc l) here P Q :=
  ⟨fun _ hx => ⟨_, _, P, .step (.constant hx) (.done _ _), fun _ _ hP => hP, hQ _⟩⟩

variable {op : Op} {name : String}

theorem emit {declared : Option TyId} {label : Option String}
    {Q : InstId → BlockId → Calls → Remark → Prop} (hphi : op.isPhi = false)
    (hterm : op.isTerminator = false)
    (hQ : ∀ i, Q i here .none fun f => f.Holds here i op ∧ P f) :
    Yields (Build.emit here op declared label) here P Q :=
  ⟨fun _ hx => ⟨_, _, _, .step (.inst hphi hterm hx) (.done _ _),
    fun _ hf hP => ⟨mem_of_emit hphi hx hf.toWithin, hP⟩, hQ _⟩⟩

theorem value {Q : Operand → BlockId → Calls → Remark → Prop} (hphi : op.isPhi = false)
    (hterm : op.isTerminator = false)
    (hQ : ∀ i, Q (.inst i) here .none fun f => f.Holds here i op ∧ P f) :
    Yields (Build.value here op name) here P Q :=
  .bind (.emit hphi hterm fun i => .pure (hQ i))

theorem valueOf {t : TyId} {Q : Operand → BlockId → Calls → Remark → Prop} (hphi : op.isPhi = false)
    (hterm : op.isTerminator = false)
    (hQ : ∀ i, Q (.inst i) here .none fun f => f.Holds here i op ∧ P f) :
    Yields (Build.valueOf here op t name) here P Q :=
  .bind (.emit hphi hterm fun i => .pure (hQ i))

theorem effect {Q : Unit → BlockId → Calls → Remark → Prop} (hphi : op.isPhi = false)
    (hterm : op.isTerminator = false)
    (hQ : ∀ i, Q () here .none fun f => f.Holds here i op ∧ P f) :
    Yields (Build.effect here op) here P Q :=
  .bind (.emit hphi hterm fun i => .pure (hQ i))

/-- The body of a loop is known by its block and the induction value, and has to end where its last
block is. -/
theorem loop {start stop : Operand} {body : BlockId → Operand → Build BlockId}
    {Q : BuiltLoop → BlockId → Calls → Remark → Prop}
    (hbody : ∀ b φ, Yields (body b φ) b P fun e there inner P' => there = e ∧
      ∀ r : BuiltLoop, r.body = b → r.induction = φ →
        Q r r.exit (.call ⟨here, start, stop, r⟩ inner .none) P') :
    Yields (Build.loop here start stop name body) here P Q := by
  refine ⟨fun {s s' r} hs hx => ?_⟩
  obtain ⟨l, s₁, hopen, hrest⟩ := bind_eq_ok.mp hx
  obtain ⟨e, s₂, hcode, _⟩ := bind_eq_ok.mp hrest
  have hready : s₁.Ready l.body := by
    obtain ⟨mid, φ, hopened⟩ := opened hs hopen
    obtain ⟨_, _, hemit⟩ := value_eq_ok.mp hopened.test
    have htest := continues_of_emit rfl hopened.ready.listed hemit
    exact ⟨htest.ready.listed,
      Nat.lt_of_lt_of_le hopened.body_lt htest.grows.func.blocks_le⟩
  obtain ⟨inner, there, P', hinner, hknow, rfl, hQ⟩ :=
    (hbody l.body l.induction).outcome hready hcode
  obtain ⟨mid, φ, hloop, -⟩ := looped_of_emits hs hx hopen hcode hinner
  exact ⟨_, _, P', .loop hx hopen hcode hinner (.done _ _),
    fun f hf hP => hknow f (hloop.closed.grows.func.trans hf) hP,
    hQ r hloop.closed.body_eq (hloop.closed.induction_eq)⟩

end Yields

end Build

end LoopNest
