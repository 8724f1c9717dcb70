import LoopNest.Proofs.Builder.Scope

/-!
# Keeping to a scope

`Build.Keeps` says of a step of construction that what it emits keeps to a scope, and where code
goes on with which scope.  Its rules follow the code of the step.  What an instruction names is
found in the scope by instance search (`Scope.Has`), and the scope of the rest has the result.
-/

namespace LoopNest

/-- Something is in scope. -/
class Scope.Has (Γ : Scope) (k : Known) : Prop where
  mem : k ∈ Γ

namespace Scope

variable {Γ : Scope} {k : Known}

instance (priority := 10000) : Has (k :: Γ) k := ⟨List.mem_cons_self⟩

instance (j : Known) [h : Has Γ k] : Has (j :: Γ) k := ⟨List.mem_cons_of_mem j h.mem⟩

end Scope

namespace Build

variable {Γ Γ' Δ : Scope} {s s' mid : Site} {here there e : BlockId} {calls calls' : Calls}

/-- More may be in scope than is named. -/
theorem Writes.mono (h : Writes Γ s here calls Γ' s' there) (hΓ : Γ ⊆ Δ) :
    Writes Δ s here calls Γ' s' there := by
  induction h generalizing Δ with
  | done h s here => exact .done (fun _ hk => hΓ (h hk)) s here
  | param k _ ih => exact .param k (ih (List.cons_subset_cons _ hΓ))
  | type hty h _ ih => exact .type (fun c hc => hΓ (hty c hc)) h (ih (List.cons_subset_cons _ hΓ))
  | constant h _ ih => exact .constant h (ih (List.cons_subset_cons _ hΓ))
  | inst hphi hterm hop h _ ih =>
    refine .inst hphi hterm ?_ h (ih (List.cons_subset_cons _ hΓ))
    exact ⟨fun v hv => hΓ (hop.operands v hv), fun t a h => (hop.allocated t a h).imp (hΓ ·) (hΓ ·),
      fun t h => hΓ (hop.declared t h), hop.uncalled⟩
  | loop hstart hstop h hopen hbody _ _ ihinner ih =>
    exact .loop (hΓ hstart) (hΓ hstop) h hopen hbody (ihinner (List.cons_subset_cons _ hΓ)) (ih hΓ)

theorem Writes.trans (h : Writes Γ s here calls Δ mid e) (h' : Writes Δ mid e calls' Γ' s' there) :
    Writes Γ s here (calls.append calls') Γ' s' there := by
  induction h with
  | done h _ _ => exact h'.mono h
  | param k _ ih => exact .param k (ih h')
  | type hty h _ ih => exact .type hty h (ih h')
  | constant h _ ih => exact .constant h (ih h')
  | inst hphi hterm hop h _ ih => exact .inst hphi hterm hop h (ih h')
  | loop hstart hstop h hopen hbody hinner _ _ ih =>
    exact .loop hstart hstop h hopen hbody hinner (ih h')

/-- What the step emits keeps to the scope.  Code goes on in a place with a scope for the result. -/
structure Keeps {α : Type} (x : Build α) (here : BlockId) (Γ : Scope)
    (Q : α → BlockId → Scope → Prop) : Prop where
  writes : ∀ {s s' : Site} {a : α}, x s = (.ok a, s') →
    ∃ calls there Γ', Writes Γ s here calls Γ' s' there ∧ Q a there Γ'

/-- The code keeps to the scope and returns at its end. -/
structure Returns (x : Build Unit) (here : BlockId) (Γ : Scope) : Prop where
  writes : ∀ {s s' : Site}, x s = (.ok (), s') → ∃ calls there Γ' s₁,
    Writes Γ s here calls Γ' s₁ there ∧ Build.ret there none s₁ = (.ok (), s')

/-- The code of a whole function keeps to the scope. -/
structure Makes (x : Build Unit) (Γ : Scope) : Prop where
  written : ∀ {s s' : Site}, x s = (.ok (), s') → Written Γ s s'

/-! ## Sequences -/

namespace Keeps

variable {α β : Type} {Q : α → BlockId → Scope → Prop}

theorem bind {x : Build β} {k : β → Build α}
    (h : Keeps x here Γ fun b here Γ => Keeps (k b) here Γ Q) : Keeps (x >>= k) here Γ Q := by
  refine ⟨fun {s s' a} hx => ?_⟩
  obtain ⟨b, t, hb, ha⟩ := bind_eq_ok.mp hx
  obtain ⟨calls, e, Δ, hfirst, hk⟩ := h.writes hb
  obtain ⟨calls', there, Γ', hrest, hQ⟩ := hk.writes ha
  exact ⟨_, there, Γ', hfirst.trans hrest, hQ⟩

/-- Two ways to come to the same code. -/
theorem ite_bind {b : Bool} {x y : Build β} {k : β → Build α}
    (h : Keeps (if b then x else y) here Γ fun a here Γ => Keeps (k a) here Γ Q) :
    Keeps (if b then x >>= k else y >>= k) here Γ Q := by
  cases b
  · exact .bind h
  · exact .bind h

theorem pure {a : α} (h : Q a here Γ) : Keeps (Pure.pure a) here Γ Q := by
  refine ⟨fun {s s' b} hb => ?_⟩
  obtain ⟨rfl, rfl⟩ := pure_eq_ok.mp hb
  exact ⟨_, _, Γ, .done (List.Subset.refl Γ) _ _, h⟩

/-- The scope may shrink. -/
theorem forget {x : Build α} (h : Keeps x here Γ fun a here Γ => ∃ Γ' ⊆ Γ, Q a here Γ') :
    Keeps x here Γ Q := by
  refine ⟨fun {s s' a} hx => ?_⟩
  obtain ⟨calls, there, Δ, hw, Γ', hsub, hQ⟩ := h.writes hx
  exact ⟨_, there, Γ', hw.trans (.done hsub _ _), hQ⟩

end Keeps

theorem Returns.bind {α : Type} {x : Build α} {k : α → Build Unit}
    (h : Keeps x here Γ fun a here Γ => Returns (k a) here Γ) : Returns (x >>= k) here Γ := by
  refine ⟨fun {s s'} hx => ?_⟩
  obtain ⟨a, t, ha, hk⟩ := bind_eq_ok.mp hx
  obtain ⟨calls, e, Δ, hfirst, hreturns⟩ := h.writes ha
  obtain ⟨calls', there, Γ', s₁, hrest, hret⟩ := hreturns.writes hk
  exact ⟨_, there, Γ', s₁, hfirst.trans hrest, hret⟩

theorem Returns.ret : Returns (Build.ret here none) here Γ :=
  ⟨fun hx => ⟨_, _, Γ, _, .done (List.Subset.refl Γ) _ _, hx⟩⟩

theorem Makes.intern {sh : Shape} {k : TyId → Build Unit}
    (hsh : ∀ c ∈ sh.components, .type c ∈ Γ) (h : ∀ t, Makes (k t) (.type t :: Γ)) :
    Makes (Build.intern sh >>= k) Γ := by
  refine ⟨fun {s s'} hx => ?_⟩
  obtain ⟨t, s₁, ht, hk⟩ := bind_eq_ok.mp hx
  exact .type hsh ht ((h t).written hk)

/-- The type of a stack slot. -/
theorem Makes.internScalar {sc : Scalar} (hw : sc.width ≤ 8) {k : TyId → Build Unit}
    (h : ∀ t, Makes (k t) (.slot t :: .type t :: Γ)) : Makes (Build.intern (.scalar sc) >>= k) Γ := by
  refine ⟨fun {s s'} hx => ?_⟩
  obtain ⟨t, s₁, ht, hk⟩ := bind_eq_ok.mp hx
  have hnone : ∀ c ∈ (Shape.scalar sc).components, Known.type c ∈ Γ := by simp [Shape.components]
  have hshape : s₁.types.shape t = .scalar sc := by
    obtain ⟨rfl, rfl⟩ := internTy_eq_ok.mp ht
    exact s.types.shape_intern (.scalar sc)
  exact .type hnone ht (.slot hshape hw ((h t).written hk))

theorem Makes.block {label : String} {k : BlockId → Build Unit}
    (h : ∀ entry, Returns (k entry) entry Γ) : Makes (Build.block label >>= k) Γ := by
  refine ⟨fun {s s'} hx => ?_⟩
  obtain ⟨entry, s₁, hentry, hk⟩ := bind_eq_ok.mp hx
  obtain ⟨calls, there, Γ', s₂, hcode, hret⟩ := (h entry).writes hk
  refine .entry hentry hcode (fun u hu => ?_) hret
  cases hu

/-! ## Steps -/

namespace Keeps

variable {name : String} {Q : Operand → BlockId → Scope → Prop}

theorem param {k : Nat} (hQ : ∀ v, Q v here (.operand v :: Γ)) :
    Keeps (Build.param k) here Γ Q := by
  refine ⟨fun {s s' v} hx => ?_⟩
  obtain ⟨rfl, rfl⟩ := param_eq_ok hx
  exact ⟨_, _, _, .param k (.done (List.Subset.refl _) _ _), hQ _⟩

theorem intern {sh : Shape} {Q : TyId → BlockId → Scope → Prop}
    (hsh : ∀ c ∈ sh.components, .type c ∈ Γ) (hQ : ∀ t, Q t here (.type t :: Γ)) :
    Keeps (Build.intern sh) here Γ Q :=
  ⟨fun hx => ⟨_, _, _, .type hsh hx (.done (List.Subset.refl _) _ _), hQ _⟩⟩

theorem constant {sc : Scalar} {l : Literal} (hQ : ∀ v, Q v here (.operand v :: Γ)) :
    Keeps (Build.constant sc l) here Γ Q :=
  ⟨fun hx => ⟨_, _, _, .constant hx (.done (List.Subset.refl _) _ _), hQ _⟩⟩

theorem emit {op : Op} {declared : Option TyId} {label : Option String}
    {Q : InstId → BlockId → Scope → Prop} (hphi : op.isPhi = false)
    (hterm : op.isTerminator = false) (hop : Γ.Allows op declared)
    (hQ : ∀ i, Q i here (.operand (.inst i) :: Γ)) :
    Keeps (Build.emit here op declared label) here Γ Q :=
  ⟨fun hx => ⟨_, _, _, .inst hphi hterm hop hx (.done (List.Subset.refl _) _ _), hQ _⟩⟩

theorem value {op : Op} (hphi : op.isPhi = false) (hterm : op.isTerminator = false)
    (hop : Γ.Allows op none) (hQ : ∀ v, Q v here (.operand v :: Γ)) :
    Keeps (Build.value here op name) here Γ Q :=
  .bind (.emit hphi hterm hop fun i => .pure (hQ (.inst i)))

section

variable {l r c x y p b : Operand} {o : BinaryOp}

theorem binary [hl : Γ.Has (.operand l)] [hr : Γ.Has (.operand r)]
    (hQ : ∀ v, Q v here (.operand v :: Γ)) : Keeps (Build.binary here o l r name) here Γ Q :=
  .value rfl rfl ⟨by simp [Op.operands, hl.mem, hr.mem], nofun, nofun, nofun⟩ hQ

theorem icmp {pred : IntPredicate} [hl : Γ.Has (.operand l)] [hr : Γ.Has (.operand r)]
    (hQ : ∀ v, Q v here (.operand v :: Γ)) : Keeps (Build.icmp here pred l r name) here Γ Q :=
  .value rfl rfl ⟨by simp [Op.operands, hl.mem, hr.mem], nofun, nofun, nofun⟩ hQ

theorem fcmp {pred : FloatPredicate} [hl : Γ.Has (.operand l)] [hr : Γ.Has (.operand r)]
    (hQ : ∀ v, Q v here (.operand v :: Γ)) : Keeps (Build.fcmp here pred l r name) here Γ Q :=
  .value rfl rfl ⟨by simp [Op.operands, hl.mem, hr.mem], nofun, nofun, nofun⟩ hQ

theorem select [hc : Γ.Has (.operand c)] [hx : Γ.Has (.operand x)] [hy : Γ.Has (.operand y)]
    (hQ : ∀ v, Q v here (.operand v :: Γ)) : Keeps (Build.select here c x y name) here Γ Q :=
  .value rfl rfl ⟨by simp [Op.operands, hc.mem, hx.mem, hy.mem], nofun, nofun, nofun⟩ hQ

theorem gep [hb : Γ.Has (.operand b)] [hx : Γ.Has (.operand x)]
    (hQ : ∀ v, Q v here (.operand v :: Γ)) : Keeps (Build.gep here b x name) here Γ Q :=
  .value rfl rfl ⟨by simp [Op.operands, hb.mem, hx.mem], nofun, nofun, nofun⟩ hQ

theorem load [hp : Γ.Has (.operand p)] (hQ : ∀ v, Q v here (.operand v :: Γ)) :
    Keeps (Build.load here p name) here Γ Q :=
  .value rfl rfl ⟨by simp [Op.operands, hp.mem], nofun, nofun, nofun⟩ hQ

theorem alloca {t : TyId} {align : Nat} [ht : Γ.Has (.type t)] [hslot : Γ.Has (.slot t)]
    (hQ : ∀ v, Q v here (.operand v :: Γ)) : Keeps (Build.alloca here t align name) here Γ Q := by
  refine .value rfl rfl ⟨by simp [Op.operands], fun u a h => ?_, nofun, nofun⟩ hQ
  cases h
  exact ⟨ht.mem, hslot.mem⟩

theorem bitcast {t : TyId} [hx : Γ.Has (.operand x)] [ht : Γ.Has (.type t)]
    (hQ : ∀ v, Q v here (.operand v :: Γ)) : Keeps (Build.bitcast here x t name) here Γ Q := by
  refine .bind (.emit rfl rfl ⟨by simp [Op.operands, hx.mem], nofun, fun u h => ?_, nofun⟩ fun i =>
    .pure (hQ (.inst i)))
  cases h
  exact ht.mem

/-- A store gives nothing to name. -/
theorem store {Q : Unit → BlockId → Scope → Prop} [hx : Γ.Has (.operand x)]
    [hp : Γ.Has (.operand p)] (hQ : Q () here Γ) : Keeps (Build.store here x p) here Γ Q :=
  .forget (.bind (.emit rfl rfl ⟨by simp [Op.operands, hx.mem, hp.mem], nofun, nofun, nofun⟩ fun _ =>
    .pure ⟨Γ, List.subset_cons_self _ _, hQ⟩))

end

/-! ## Loops -/

/-- After a loop the scope is what it was before. -/
theorem loop {start stop : Operand} {body : BlockId → Operand → Build BlockId}
    {Q : BuiltLoop → BlockId → Scope → Prop} [hstart : Γ.Has (.operand start)]
    [hstop : Γ.Has (.operand stop)]
    (hbody : ∀ b φ, Keeps (body b φ) b (.operand φ :: Γ) fun e there _ => there = e)
    (hQ : ∀ r, Q r r.exit Γ) : Keeps (Build.loop here start stop name body) here Γ Q := by
  refine ⟨fun {s s' r} hx => ?_⟩
  obtain ⟨l, s₁, hopen, hrest⟩ := bind_eq_ok.mp hx
  obtain ⟨e, s₂, hcode, _⟩ := bind_eq_ok.mp hrest
  obtain ⟨inner, there, Γ₁, hinner, rfl⟩ := (hbody l.body l.induction).writes hcode
  exact ⟨_, _, _, .loop hstart.mem hstop.mem hx hopen hcode hinner
    (.done (List.Subset.refl Γ) _ _), hQ r⟩

end Keeps

end Build

end LoopNest
