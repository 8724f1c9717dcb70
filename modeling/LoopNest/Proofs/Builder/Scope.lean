import LoopNest.Proofs.Builder.Shape

/-!
# Code in scope

The type of an operand is checked when an instruction is emitted, but not that the operand has been
computed there on every path: the result of a body can be named behind the loop, where the loop may
not have been entered at all.  `Build.Writes` is `Build.Emits` for code that keeps to a scope.  What
an instruction names was made before it, in its own block or around the loops that it stands in,
and after a loop the scope is what it was before.

A function of such code passes the verifier (`Build.Written.verify`).  Its blocks and branches are
those of `Laid`, its types were checked when it was built (`Site.Built`), and what is in scope is
defined in a block that dominates the place that code has come to (`Scope.Dominates`).
-/

namespace LoopNest

open LoopCall FlowGraph Laid

theorem Func.lt_of_isPhi {f : Func} {i : InstId} (h : (f.op i).isPhi = true) :
    i < f.insts.size := by
  by_contra hge
  rw [Func.op, Func.inst, Array.getElem?_eq_none (Nat.le_of_not_lt hge)] at h
  cases h

theorem Func.exists_terminator {f : Func} {b : BlockId} (h : f.successors b ≠ []) :
    ∃ t, f.terminator? b = some t := by
  refine Option.ne_none_iff_exists'.mp fun hnone => h ?_
  simp [successors, hnone]

/-! ## Scopes -/

/-- Something that code can name. -/
inductive Known where
  /-- An operand. -/
  | operand (v : Operand)
  /-- A type. -/
  | type (t : TyId)
  /-- A type of small elements, for stack slots. -/
  | slot (t : TyId)

/-- What code can name at some place. -/
abbrev Scope := List Known

namespace Scope

/-- All that an operation names is in scope. -/
structure Allows (Γ : Scope) (op : Op) (declared : Option TyId) : Prop where
  operands : ∀ v ∈ op.operands, .operand v ∈ Γ
  allocated : ∀ t a, op = .alloca t a → .type t ∈ Γ ∧ .slot t ∈ Γ
  declared : ∀ t, declared = some t → .type t ∈ Γ
  /-- There is nothing to call. -/
  uncalled : ∀ callee args, op ≠ .call callee args

/-- The types in scope are in the table. -/
def Typed (Γ : Scope) (s : Site) : Prop := ∀ t, .type t ∈ Γ → t < s.types.size

/-- The instructions in scope stand in blocks that dominate a block of the finished function. -/
def Dominates (Γ : Scope) (f : Func) (s : Site) (here : BlockId) : Prop :=
  ∀ i, .operand (.inst i) ∈ Γ → ∃ d, i ∈ s.func.body d ∧ (ofFunc f).Dominates d here

variable {Γ : Scope} {f : Func} {s s' : Site} {here there : BlockId}

theorem Typed.extends (h : Γ.Typed s) (ht : s.types.Extends s'.types) : Γ.Typed s' :=
  fun t hmem => Nat.lt_of_lt_of_le (h t hmem) ht.size_le

theorem Typed.cons (h : Γ.Typed s) {k : Known} (hk : ∀ t, k ≠ .type t) : Typed (k :: Γ) s := by
  intro t ht
  rcases List.mem_cons.mp ht with heq | ht
  · exact absurd heq.symm (hk t)
  · exact h t ht

theorem Typed.cons_operand (h : Γ.Typed s) (v : Operand) : Typed (.operand v :: Γ) s :=
  h.cons nofun

theorem Dominates.trans (h : Γ.Dominates f s here)
    (hbody : ∀ d, s.func.body d <+: s'.func.body d) (hd : (ofFunc f).Dominates here there) :
    Γ.Dominates f s' there := by
  intro i hi
  obtain ⟨d, hmem, hdom⟩ := h i hi
  exact ⟨d, (hbody d).subset hmem, hdom.trans hd⟩

theorem Dominates.cons_inst (h : Γ.Dominates f s here) {i : InstId} {d : BlockId}
    (hi : i ∈ s.func.body d) (hd : (ofFunc f).Dominates d here) :
    Dominates (.operand (.inst i) :: Γ) f s here := by
  intro j hj
  rcases List.mem_cons.mp hj with heq | hj
  · cases heq
    exact ⟨d, hi, hd⟩
  · exact h j hj

/-- A parameter, a constant or a type comes into scope. -/
theorem Dominates.cons_static (h : Γ.Dominates f s here) {k : Known}
    (hk : ∀ i, k ≠ .operand (.inst i) := by nofun) : Dominates (k :: Γ) f s here := by
  intro i hi
  rcases List.mem_cons.mp hi with heq | hi
  · exact absurd heq.symm (hk i)
  · exact h i hi

end Scope

namespace Build

/-- Code that keeps to a scope was emitted from one site and block to others. -/
inductive Writes : Scope → Site → BlockId → Calls → Scope → Site → BlockId → Prop where
  | done {Γ Γ' : Scope} (h : Γ' ⊆ Γ) (s : Site) (here : BlockId) : Writes Γ s here .none Γ' s here
  | param {Γ Γ' : Scope} {s s' : Site} {here there : BlockId} {calls : Calls} (k : Nat)
      (rest : Writes (.operand (.param k) :: Γ) s here calls Γ' s' there) :
      Writes Γ s here calls Γ' s' there
  | type {Γ Γ' : Scope} {s s₁ s' : Site} {here there : BlockId} {calls : Calls} {ty : Ty} {t : TyId}
      (hty : ∀ c ∈ ty.shape.components, .type c ∈ Γ) (h : internTy ty s = (.ok t, s₁))
      (rest : Writes (.type t :: Γ) s₁ here calls Γ' s' there) : Writes Γ s here calls Γ' s' there
  | constant {Γ Γ' : Scope} {s s₁ s' : Site} {here there : BlockId} {calls : Calls} {sc : Scalar}
      {l : Literal} {v : Operand} (h : Build.constant sc l s = (.ok v, s₁))
      (rest : Writes (.operand v :: Γ) s₁ here calls Γ' s' there) :
      Writes Γ s here calls Γ' s' there
  | inst {Γ Γ' : Scope} {s s₁ s' : Site} {here there : BlockId} {calls : Calls} {op : Op}
      {declared : Option TyId} {name : Option String} {i : InstId} (hphi : op.isPhi = false)
      (hterm : op.isTerminator = false) (hop : Γ.Allows op declared)
      (h : emit here op declared name s = (.ok i, s₁))
      (rest : Writes (.operand (.inst i) :: Γ) s₁ here calls Γ' s' there) :
      Writes Γ s here calls Γ' s' there
  | loop {Γ Γ₁ Γ' : Scope} {s s₁ s₂ s₃ s' : Site} {here e there : BlockId} {inner later : Calls}
      {start stop : Operand} {name : String} {body : BlockId → Operand → Build BlockId}
      {l : OpenLoop} {r : BuiltLoop} (hstart : .operand start ∈ Γ) (hstop : .operand stop ∈ Γ)
      (h : loop here start stop name body s = (.ok r, s₃))
      (hopen : openLoop here start stop name s = (.ok l, s₁))
      (hbody : body l.body l.induction s₁ = (.ok e, s₂))
      (hinner : Writes (.operand l.induction :: Γ) s₁ l.body inner Γ₁ s₂ e)
      (rest : Writes Γ s₃ r.exit later Γ' s' there) :
      Writes Γ s here (.call ⟨here, start, stop, r⟩ inner later) Γ' s' there

variable {Γ Γ' Γ'' : Scope} {s s₁ s₂ s₃ mid s' : Site} {here there e : BlockId} {calls : Calls}
  {start stop : Operand} {name : String} {f : Func}

theorem Writes.emits (h : Writes Γ s here calls Γ' s' there) : Emits s here calls s' there := by
  induction h with
  | done _ s here => exact .done s here
  | param _ _ ih => exact ih
  | type _ h _ ih => exact .step (.type h) ih
  | constant h _ ih => exact .step (.constant h) ih
  | inst hphi hterm _ h _ ih => exact .step (.inst hphi hterm h) ih
  | loop _ _ h hopen hbody _ _ ihinner ih => exact .loop h hopen hbody ihinner ih

/-! ## Types -/

theorem Edits.of_ok {α : Type} {x : Build α} {a : α} (h : x.Edits s) (hx : x s = (.ok a, s')) :
    s.Edits s' := by
  have := h.1
  rwa [hx] at this

theorem edits_block {label : String} {b : BlockId} (h : block label s = (.ok b, s')) :
    s.Edits s' := by
  obtain ⟨_, rfl⟩ := block_eq_ok.mp h
  exact .single (.block label)

theorem edits_openLoop (hs : s.Built) {l : OpenLoop}
    (h : openLoop here start stop name s = (.ok l, s')) : s.Edits s' := by
  obtain ⟨⟨ty, sc⟩, s₀, hbound, hrest⟩ := bind_eq_ok.mp h
  obtain ⟨hs₀, hty, -⟩ := boundScalar_eq_ok hbound
  rw [hs₀] at hrest
  obtain ⟨header, s₁, hheader, hrest₁⟩ := bind_eq_ok.mp hrest
  obtain ⟨body, s₂, hbody, hrest₂⟩ := bind_eq_ok.mp hrest₁
  obtain ⟨_, s₃, hbr, hrest₃⟩ := bind_eq_ok.mp hrest₂
  obtain ⟨φ, s₄, hphi, hrest₄⟩ := bind_eq_ok.mp hrest₃
  obtain ⟨_, s₅, htest, hl⟩ := bind_eq_ok.mp hrest₄
  obtain ⟨rfl, rfl⟩ := pure_eq_ok.mp hl
  have he₂ := (edits_block hheader).trans (edits_block hbody)
  have he₃ : s.Edits s₃ := he₂.trans ((edits_effect (hs.edits he₂) rfl (by nofun)).of_ok hbr)
  have hlt : header < s₃.func.blocks.size := by
    rw [blocks_size_of_effect hbr]
    obtain ⟨rfl, rfl⟩ := block_eq_ok.mp hheader
    obtain ⟨rfl, rfl⟩ := block_eq_ok.mp hbody
    rw [Func.blocks_size_addBlock, Func.blocks_size_addBlock]
    exact Nat.lt_succ_of_lt (Nat.lt_succ_self _)
  have hty_lt : ty < s₃.types.size := Nat.lt_of_lt_of_le
    (hs.tys_lt ty (Func.mem_tys_of_operandTy hty)) he₃.keepsTypes.types.size_le
  have he₄ := he₃.trans ((edits_phi (hs.edits he₃) hlt hty_lt).of_ok hphi)
  exact he₄.trans ((edits_value (hs.edits he₄) rfl (by nofun)).of_ok htest)

theorem edits_closeLoop (hs : s.Built) {l : OpenLoop} {r : BuiltLoop}
    (h : closeLoop l e s = (.ok r, s')) : s.Edits s' := by
  obtain ⟨_, s₁, hlatch, hrest⟩ := bind_eq_ok.mp h
  obtain ⟨_, s₂, hexit, hrest₁⟩ := bind_eq_ok.mp hrest
  obtain ⟨_, s₃, hleave, hrest₂⟩ := bind_eq_ok.mp hrest₁
  obtain ⟨_, s₄, hbranch, hrest₃⟩ := bind_eq_ok.mp hrest₂
  obtain ⟨_, s₅, hone, hrest₄⟩ := bind_eq_ok.mp hrest₃
  obtain ⟨_, s₆, hadd, hrest₅⟩ := bind_eq_ok.mp hrest₄
  obtain ⟨_, s₇, hentry, hrest₆⟩ := bind_eq_ok.mp hrest₅
  obtain ⟨_, s₈, hback, hr⟩ := bind_eq_ok.mp hrest₆
  obtain ⟨rfl, rfl⟩ := pure_eq_ok.mp hr
  have he₂ := (edits_block hlatch).trans (edits_block hexit)
  have he₃ := he₂.trans ((edits_effect (hs.edits he₂) rfl (by nofun)).of_ok hleave)
  have he₄ := he₃.trans ((edits_effect (hs.edits he₃) rfl (by nofun)).of_ok hbranch)
  have he₅ := he₄.trans ((edits_constant (hs.edits he₄) _ _).of_ok hone)
  have he₆ := he₅.trans ((edits_value (hs.edits he₅) rfl (by nofun)).of_ok hadd)
  have hφ : ∀ i, l.induction = .inst i → i < s₆.func.insts.size := by
    intro i hi
    obtain ⟨j, hj, hphi, _⟩ := addIncoming_eq_ok hentry
    cases hi.symm.trans hj
    exact Func.lt_of_isPhi hphi
  have he₇ := he₆.trans ((edits_addIncoming hφ).of_ok hentry)
  exact he₇.trans ((edits_effect (hs.edits he₇) rfl (by nofun)).of_ok hback)

/-- Code in scope keeps types in order. -/
theorem Writes.edits (h : Writes Γ s here calls Γ' s' there) (hs : s.Built) (hΓ : Γ.Typed s) :
    s.Edits s' ∧ Γ'.Typed s' := by
  induction h with
  | done h => exact ⟨.refl, fun t ht => hΓ t (h ht)⟩
  | param k _ ih => exact ih hs (hΓ.cons_operand _)
  | @type Γ Γ' s s₁ s' here there calls ty t hty h _ ih =>
    obtain ⟨rfl, rfl⟩ := internTy_eq_ok.mp h
    have he : s.Edit ⟨(s.types.insert ty).2, s.func⟩ := .intern ty fun c hc => hΓ c (hty c hc)
    have hΓ' : Scope.Typed (.type (s.types.insert ty).1 :: Γ) ⟨(s.types.insert ty).2, s.func⟩ := by
      intro t ht
      rcases List.mem_cons.mp ht with heq | ht
      · cases heq
        exact TypeTable.lookup_lt (s.types.lookup_insert ty)
      · exact hΓ.extends he.keepsTypes.types t ht
    obtain ⟨hedits, htyped⟩ := ih (hs.edit he) hΓ'
    exact ⟨.trans (.single he) hedits, htyped⟩
  | constant h _ ih =>
    have he := (edits_constant hs _ _).of_ok h
    obtain ⟨hedits, htyped⟩ := ih (hs.edits he) ((hΓ.extends he.keepsTypes.types).cons_operand _)
    exact ⟨he.trans hedits, htyped⟩
  | inst hphi _ hop h _ ih =>
    have he := (edits_emit hs hphi (fun t a h => hΓ t (hop.allocated t a h).1)
      (fun t h => hΓ t (hop.declared t h))).of_ok h
    obtain ⟨hedits, htyped⟩ := ih (hs.edits he) ((hΓ.extends he.keepsTypes.types).cons_operand _)
    exact ⟨he.trans hedits, htyped⟩
  | loop _ _ h hopen hbody _ _ ihinner ih =>
    have he := edits_openLoop hs hopen
    obtain ⟨hinner, _⟩ := ihinner (hs.edits he) ((hΓ.extends he.keepsTypes.types).cons_operand _)
    have he₂ := he.trans hinner
    have he₃ := he₂.trans (edits_closeLoop (hs.edits he₂) (closeLoop_of_loop h hopen hbody))
    obtain ⟨hedits, htyped⟩ := ih (hs.edits he₃) (hΓ.extends (Site.Edits.keepsTypes he₃).types)
    exact ⟨he₃.trans hedits, htyped⟩

end Build

/-! ## Places -/

namespace Func

/-- What an instruction uses comes before it on every path. -/
structure Placed (f : Func) (b : BlockId) (i : InstId) : Prop where
  sources : ∀ incoming, f.op i = .phi incoming → (incoming.map Prod.snd).Nodup ∧
    (∀ p, p ∈ incoming.map Prod.snd ↔ p ∈ f.predecessors b) ∧
    ∀ j p, (Operand.inst j, p) ∈ incoming → ∀ d, f.owner j = some d → (ofFunc f).Dominates d p
  uses : (f.op i).isPhi = false → ∀ j, .inst j ∈ (f.op i).operands → ∃ d, f.owner j = some d ∧
    (d ≠ b → (ofFunc f).Dominates d b) ∧ (d = b → ∀ pre post, f.body b = pre ++ i :: post → j ∈ pre)

variable {f : Func} {b : BlockId} {i : InstId}

theorem placed_of_branch {x : BlockId} (hop : f.op i = .br x) : f.Placed b i := by
  refine ⟨fun incoming h => (by cases hop.symm.trans h), fun _ j hj => ?_⟩
  rw [hop] at hj
  exact absurd hj List.not_mem_nil

/-- An instruction that was appended to its block, when what it uses had been made in blocks that
dominate this one. -/
theorem Arranged.placed (hf : f.Arranged) {t : Func} (hbody : ∀ d, t.body d <+: f.body d)
    (hlast : t.body b ++ [i] <+: f.body b) (hnew : i ∉ t.body b) (hphi : (f.op i).isPhi = false)
    (huses : ∀ j, .inst j ∈ (f.op i).operands → ∃ d, j ∈ t.body d ∧ (ofFunc f).Dominates d b) :
    f.Placed b i := by
  refine ⟨fun incoming h => ?_, fun _ j hj => ?_⟩
  · rw [h] at hphi
    cases hphi
  · obtain ⟨d, hmem, hdom⟩ := huses j hj
    refine ⟨d, hf.owner_eq d j ((hbody d).subset hmem), fun _ => hdom, ?_⟩
    rintro rfl pre post heq
    -- The instruction is not among the earlier ones, so these come before its first place.
    obtain ⟨more, hmore⟩ := hlast
    rw [heq, List.append_assoc, List.append_eq_append_iff] at hmore
    rcases hmore with ⟨mid, rfl, _⟩ | ⟨mid, hpre, hrest⟩
    · exact List.mem_append_left _ hmem
    · cases mid with
      | nil => simpa [hpre] using hmem
      | cons k mid =>
        have hk : i = k := (List.cons.inj hrest).1
        exact absurd (by rw [hpre, hk]; simp) hnew

end Func

namespace Build

variable {Γ Γ' : Scope} {s s₁ s₂ mid s' : Site} {here there e : BlockId} {calls : Calls}
  {start stop : Operand} {name : String} {l : OpenLoop} {r : BuiltLoop} {φ i : InstId} {b : BlockId}

/-- The instructions of an opened loop. -/
theorem Opened.mem_body (h : Opened s mid s' here start stop name l φ) (hi : i ∈ mid.func.body b) :
    i ∈ s.func.body b ∨ (∃ x, mid.func.op i = .br x) ∨ b = l.header ∧ i = φ := by
  obtain ⟨k, _, hop, hhere⟩ := h.body_here
  by_cases hb : b < s.func.blocks.size
  · by_cases hbh : b = here
    · subst hbh
      rw [hhere, List.mem_append, List.mem_singleton] at hi
      rcases hi with hi | rfl
      · exact .inl hi
      · exact .inr (.inl ⟨_, hop⟩)
    · exact .inl (h.elsewhere b hb hbh ▸ hi)
  · by_cases hheader : b = l.header
    · subst hheader
      rw [h.body_header, List.mem_singleton] at hi
      exact .inr (.inr ⟨rfl, hi⟩)
    · have hempty : mid.func.body b = [] := by
        by_cases hbody : b = l.body
        · exact hbody ▸ h.body_body
        · have hlt : s.func.blocks.size < b := Nat.lt_of_le_of_ne (Nat.le_of_not_lt hb)
            fun hb => hheader (hb.symm.trans h.header_eq.symm)
          have hlt' : s.func.blocks.size + 1 < b :=
            Nat.lt_of_le_of_ne hlt fun hb => hbody (hb.symm.trans h.body_eq.symm)
          exact Func.body_of_le (h.size_eq ▸ hlt')
      rw [hempty] at hi
      exact absurd hi List.not_mem_nil

/-- The instructions of a closed loop. -/
theorem Closed.mem_body (h : Closed s s' l e r φ) (hi : i ∈ s'.func.body b) :
    i ∈ s.func.body b ∨ (∃ x, s'.func.op i = .br x) ∨
    (b = l.header ∧ s.func.insts.size ≤ i ∧ s'.func.op i = .condBr l.cond l.body r.exit ∧
      s'.func.body l.header = s.func.body l.header ++ [i]) ∨
    b = r.latch ∧ ∃ one j, s'.func.op i = .binary .add l.induction (.const one) ∧
      s'.func.body r.latch = [i, j] := by
  obtain ⟨k, _, hop, hend⟩ := h.body_end
  obtain ⟨k', _, hnew, hop', hheader⟩ := h.body_header
  obtain ⟨m, _, n, _, one, hadd, hback, hlatch⟩ := h.body_latch
  by_cases hbl : b = l.header
  · subst hbl
    rw [hheader, List.mem_append, List.mem_singleton] at hi
    rcases hi with hi | rfl
    · exact .inl hi
    · exact .inr (.inr (.inl ⟨rfl, hnew, hop', hheader⟩))
  by_cases hbe : b = e
  · subst hbe
    rw [hend, List.mem_append, List.mem_singleton] at hi
    rcases hi with hi | rfl
    · exact .inl hi
    · exact .inr (.inl ⟨_, hop⟩)
  by_cases hb : b < s.func.blocks.size
  · exact .inl (h.elsewhere b hb hbe hbl ▸ hi)
  by_cases hbr : b = r.latch
  · subst hbr
    rw [hlatch, List.mem_cons, List.mem_singleton] at hi
    rcases hi with rfl | rfl
    · exact .inr (.inr (.inr ⟨rfl, one, n, hadd, hlatch⟩))
    · exact .inr (.inl ⟨_, hback⟩)
  · have hempty : s'.func.body b = [] := by
      by_cases hexit : b = r.exit
      · exact hexit ▸ h.body_exit
      · have hlt : s.func.blocks.size < b := Nat.lt_of_le_of_ne (Nat.le_of_not_lt hb)
          fun hb => hbr (hb.symm.trans h.latch_eq.symm)
        have hlt' : s.func.blocks.size + 1 < b :=
          Nat.lt_of_le_of_ne hlt fun hb => hexit (hb.symm.trans h.exit_eq.symm)
        exact Func.body_of_le (h.size_eq ▸ hlt')
    rw [hempty] at hi
    exact absurd hi List.not_mem_nil

/-- The blocks of a finished function are those of some calls. -/
structure Finished (all : Calls) (last : Nat) (f : Func) : Prop where
  laid : Laid f 0 all last
  layout_eq : f.layout = List.range (last + 1)
  successors_last : f.successors last = []
  arranged : f.Arranged

section

variable {f : Func} {all : Calls} {last : Nat} (hf : Finished all last f)
include hf

/-- The phi of a loop, with the entry from before the loop and the one from the latch. -/
theorem placed_phi {next : InstId} (hc : ⟨here, start, stop, r⟩ ∈ all.all)
    (hop : f.op φ = .phi [(start, here), (.inst next, r.latch)])
    (hnext : f.owner next = some r.latch)
    (hstart : ∀ j, start = .inst j → ∃ d, f.owner j = some d ∧ (ofFunc f).Dominates d here) :
    f.Placed r.header φ := by
  obtain ⟨hlaid, hlayout, hend, -⟩ := hf
  obtain ⟨hframe, -, hlast⟩ := hlaid.frame _ hc
  have hle : here + 3 ≤ r.latch := hframe.le_last
  have hle' : here + 1 ≤ last :=
    Nat.le_trans (by omega) (Nat.le_trans hle (Nat.le_of_succ_le hlast))
  have hne : here ≠ r.latch := Nat.ne_of_lt (Nat.lt_of_lt_of_le (by omega) hle)
  refine ⟨fun incoming h => ?_, fun hphi => ?_⟩
  · cases hop.symm.trans h
    refine ⟨by simpa using hne, fun p => ?_, fun j p hmem d hd => ?_⟩
    · have hpred : p ∈ f.predecessors r.header ↔ p = here ∨ p = r.latch := by
        rw [hframe.header_eq]
        exact (mem_predecessors_iff hlayout hle').trans (hlaid.edge_header_iff hlayout hend hc)
      rw [hpred]
      simp
    · rcases List.mem_pair.mp hmem with heq | heq
      · obtain ⟨rfl, rfl⟩ := Prod.mk.inj heq
        obtain ⟨d', hd', hdom⟩ := hstart j rfl
        cases hd.symm.trans hd'
        exact hdom
      · obtain ⟨hj, rfl⟩ := Prod.mk.inj heq
        cases hj
        cases hd.symm.trans hnext
        exact .refl
  · rw [hop] at hphi
    cases hphi

section

variable (hc : ⟨here, start, stop, r⟩ ∈ all.all)
  (h : Looped s mid s₁ s₂ s' here e start stop name l r φ)
include hc h

theorem Looped.dominates_header : (ofFunc f).Dominates here l.header := by
  rw [← h.closed.header_eq, (hf.laid.frame _ hc).1.header_eq]
  exact hf.laid.before_dominates hf.layout_eq hf.successors_last hc

theorem Looped.header_dominates_body : (ofFunc f).Dominates l.header l.body := by
  have hframe := (hf.laid.frame _ hc).1
  have hle := hframe.le_last
  rw [← h.closed.header_eq, ← h.closed.body_eq, hframe.header_eq, hframe.body_eq]
  exact hf.laid.header_dominates hf.layout_eq hf.successors_last hc ⟨by omega, by omega⟩

theorem Looped.header_dominates_exit : (ofFunc f).Dominates l.header r.exit := by
  have hframe := (hf.laid.frame _ hc).1
  rw [← h.closed.header_eq, hframe.header_eq, hframe.exit_eq]
  exact hf.laid.header_dominates_exit hf.layout_eq hf.successors_last hc

variable (hg : s'.func.Grows f)
include hg

/-- Both entries of the phi. -/
theorem Looped.exists_next (hφ : f.op φ = s'.func.op φ) :
    ∃ next, f.op φ = .phi [(start, here), (.inst next, r.latch)] ∧ f.owner next = some r.latch := by
  obtain ⟨cond, next, one, hcoded⟩ := h.coded hg hf.arranged
  obtain ⟨ho, htest, hfill, hclose⟩ := h
  obtain ⟨_, _, v, _, _, _, _, _, _, _, _, _, hentries⟩ := hclose.count
  have hphi : s₂.func.op φ = .phi [(start, here)] := by
    rw [hfill.op_eq φ (Nat.lt_of_lt_of_le ho.lt htest.grows.func.insts_le), htest.op_eq φ ho.lt,
      ho.op_eq]
  have hop : f.op φ = .phi [(start, here), (v, r.latch)] := hφ.trans (hentries _ hphi)
  have hle : here + 3 ≤ r.latch := (hf.laid.frame _ hc).1.le_last
  have hne : here ≠ r.latch := Nat.ne_of_lt (Nat.lt_of_lt_of_le (by omega) hle)
  have hv : v = .inst next := by
    have hnext := hcoded.next_eq
    simpa [Func.incoming?, hop, hne] using hnext
  exact ⟨next, hv ▸ hop, hcoded.next_owner⟩

/-- The exit test. -/
theorem Looped.placed_test {cond : InstId} (hcond : l.cond = .inst cond)
    (hstop : ∀ j, stop = .inst j → ∃ d, j ∈ s.func.body d ∧ (ofFunc f).Dominates d here) :
    f.Placed l.header cond := by
  have hdom := h.dominates_header hf hc
  obtain ⟨ho, htest, hfill, hclose⟩ := h
  have hg₁ := (hfill.grows.trans hclose.grows).func.trans hg
  obtain ⟨cond', hcond', hemit⟩ := value_eq_ok.mp ho.test
  cases hcond.symm.trans hcond'
  obtain ⟨hnew, hlt, hop, hbody⟩ := body_of_emit hemit
  have hop' : f.op cond = _ := (hg₁.op_eq hlt (by rw [hop]; rfl)).trans hop
  have hlast : mid.func.body l.header ++ [cond] <+: f.body l.header := by
    have hprefix := hg₁.isPrefix_body l.header
    rwa [hbody, if_pos rfl] at hprefix
  refine hf.arranged.placed (htest.grows.func.trans hg₁).isPrefix_body hlast
    (fun hmem => Nat.lt_irrefl _ (hnew ▸ ho.ready.listed _ _ hmem)) (by rw [hop']; rfl) ?_
  intro j hj
  rw [hop'] at hj
  rcases List.mem_pair.mp hj with heq | heq
  · cases heq
    exact ⟨_, ho.body_header ▸ List.mem_singleton.mpr rfl, .refl⟩
  · obtain ⟨d, hmem, hd⟩ := hstop j heq.symm
    exact ⟨d, (ho.grows.func.isPrefix_body d).subset hmem, hd.trans hdom⟩

/-- The instructions that open a loop. -/
theorem Looped.placed_open (hφ : f.Placed l.header φ)
    (hstop : ∀ j, stop = .inst j → ∃ d, j ∈ s.func.body d ∧ (ofFunc f).Dominates d here)
    (hi : i ∈ s₁.func.body b) : i ∈ s.func.body b ∨ f.Placed b i := by
  obtain ⟨cond, hcond, hemit⟩ := value_eq_ok.mp h.opened.test
  have htest := h.placed_test hf hc hg hcond hstop
  obtain ⟨ho, htested, hfill, hclose⟩ := h
  obtain ⟨_, _, _, hbody⟩ := body_of_emit hemit
  have hg₀ := ((htested.grows.trans hfill.grows).trans hclose.grows).func.trans hg
  have hmid {b : BlockId} (hi : i ∈ mid.func.body b) : i ∈ s.func.body b ∨ f.Placed b i := by
    rcases ho.mem_body hi with hi | ⟨x, hop⟩ | ⟨rfl, rfl⟩
    · exact .inl hi
    · have hlt := ho.ready.listed _ _ hi
      exact .inr (Func.placed_of_branch ((hg₀.op_eq hlt (by rw [hop]; rfl)).trans hop))
    · exact .inr hφ
  rw [hbody] at hi
  split at hi
  · rename_i hb
    subst hb
    rcases List.mem_append.mp hi with hi | hi
    · exact hmid hi
    · rw [List.mem_singleton.mp hi]
      exact .inr htest
  · exact hmid hi

/-- The instructions that close a loop. -/
theorem Looped.placed_close (hi : i ∈ s'.func.body b) : i ∈ s₂.func.body b ∨ f.Placed b i := by
  have hdom : (ofFunc f).Dominates l.header r.latch := by
    have hframe := (hf.laid.frame _ hc).1
    rw [← h.closed.header_eq, hframe.header_eq]
    exact hf.laid.header_dominates hf.layout_eq hf.successors_last hc
      ⟨Nat.lt_of_lt_of_le (by omega) hframe.le_last, Nat.le_refl _⟩
  obtain ⟨ho, htest, hfill, hclose⟩ := h
  have hg₂ := hclose.grows.func.trans hg
  have hop' {o : Op} (hop : s'.func.op i = o) (ho : o.isPhi = false) : f.op i = o :=
    (hg.op_eq (hclose.ready.listed b i hi) (hop ▸ ho)).trans hop
  rcases hclose.mem_body hi with hi | ⟨x, hop⟩ | ⟨rfl, hnew, hop, hlast⟩ | ⟨rfl, k, j, hop, hlatch⟩
  · exact .inl hi
  · exact .inr (Func.placed_of_branch (hop' hop rfl))
  · -- The branch comes behind the exit test.
    obtain ⟨cond, hcond, hemit⟩ := value_eq_ok.mp ho.test
    obtain ⟨_, _, _, hbody⟩ := body_of_emit hemit
    refine .inr (hf.arranged.placed hg₂.isPrefix_body (hlast ▸ hg.isPrefix_body _)
      (fun hmem => Nat.not_lt_of_le hnew (hfill.ready.listed _ _ hmem))
      (by rw [hop' hop rfl]; rfl) fun j hj => ?_)
    rw [hop' hop rfl, hcond] at hj
    cases List.mem_singleton.mp hj
    refine ⟨_, (hfill.grows.func.isPrefix_body _).subset ?_, .refl⟩
    rw [hbody, if_pos rfl]
    exact List.mem_append_right _ List.mem_cons_self
  · -- The sum comes first in the latch.
    have hempty : s₂.func.body r.latch = [] := Func.body_of_le (Nat.le_of_eq hclose.latch_eq.symm)
    have hfirst : [i] <+: s'.func.body r.latch := hlatch ▸ List.prefix_append [i] [j]
    have hlast : s₂.func.body r.latch ++ [i] <+: f.body r.latch := by
      rw [hempty]
      exact hfirst.trans (hg.isPrefix_body _)
    refine .inr (hf.arranged.placed hg₂.isPrefix_body hlast (hempty ▸ List.not_mem_nil)
      (by rw [hop' hop rfl]; rfl) fun m hm => ?_)
    rw [hop' hop rfl, ho.induction_eq] at hm
    rcases List.mem_pair.mp hm with heq | heq
    · cases heq
      refine ⟨_, ((htest.grows.trans hfill.grows).func.isPrefix_body _).subset ?_, hdom⟩
      exact ho.body_header ▸ List.mem_singleton.mpr rfl
    · cases heq

/-- The instructions of a loop stand where they can, if those of its body do. -/
theorem Looped.placed (hφ : f.op φ = s'.func.op φ)
    (hstart : ∀ j, start = .inst j → ∃ d, j ∈ s.func.body d ∧ (ofFunc f).Dominates d here)
    (hstop : ∀ j, stop = .inst j → ∃ d, j ∈ s.func.body d ∧ (ofFunc f).Dominates d here)
    (hbody : ∀ b, ∀ i ∈ s₂.func.body b, i ∈ s₁.func.body b ∨ f.Placed b i)
    (hi : i ∈ s'.func.body b) : i ∈ s.func.body b ∨ f.Placed b i := by
  obtain ⟨next, hop, hnext⟩ := h.exists_next hf hc hg hφ
  have hphi : f.Placed r.header φ := by
    refine placed_phi hf hc hop hnext fun j hj => ?_
    obtain ⟨d, hmem, hd⟩ := hstart j hj
    exact ⟨d, hf.arranged.owner_eq d j
      ((h.continues.grows.func.trans hg).isPrefix_body d |>.subset hmem), hd⟩
  rcases h.placed_close hf hc hg hi with hi | hi
  · rcases hbody b i hi with hi | hi
    · exact h.placed_open hf hc hg (h.closed.header_eq ▸ hphi) hstop hi
    · exact .inr hi
  · exact .inr hi

end

/-- The instructions of code in scope stand where they can. -/
theorem Writes.placed (h : Writes Γ s here calls Γ' s' there) (hs : s.Ready here)
    (hg : s'.func.Grows f)
    (hop : ∀ i, s.func.insts.size ≤ i → i < s'.func.insts.size → f.op i = s'.func.op i)
    (hcalls : ∀ c ∈ calls.all, c ∈ all.all) (hΓ : Γ.Dominates f s here) :
    Γ'.Dominates f s' there ∧ ∀ b, ∀ i ∈ s'.func.body b, i ∈ s.func.body b ∨ f.Placed b i := by
  induction h with
  | done h => exact ⟨fun i hi => hΓ i (h hi), fun b i hi => .inl hi⟩
  | param k _ ih => exact ih hs hg hop hcalls hΓ.cons_static
  | type _ h _ ih =>
    have hready := (Step.continues (.type h) hs).ready
    obtain ⟨rfl, rfl⟩ := internTy_eq_ok.mp h
    exact ih hready hg hop hcalls hΓ.cons_static
  | constant h _ ih =>
    have hready := (Step.continues (.constant h) hs).ready
    obtain ⟨rfl, rfl⟩ := constant_eq_ok.mp h
    exact ih hready hg hop hcalls hΓ.cons_static
  | @inst Γ Γ' s s₁ s' here there calls op declared name i hphi _ hallow h hrest ih =>
    have hcont := continues_of_emit hphi hs.listed h
    obtain ⟨hnew, hlt, hopi, hbody⟩ := body_of_emit h
    have hg₁ := (hrest.emits.continues hcont.ready).grows.func.trans hg
    have hlast : s₁.func.body here = s.func.body here ++ [i] := by rw [hbody, if_pos rfl]
    have hΓ₁ := (hΓ.trans hcont.grows.func.isPrefix_body .refl).cons_inst
      (hlast ▸ List.mem_append_right _ List.mem_cons_self) .refl
    have hplaced : f.Placed here i := by
      have hop' : f.op i = op := (hg₁.op_eq hlt (hopi ▸ hphi)).trans hopi
      refine hf.arranged.placed (hcont.grows.func.trans hg₁).isPrefix_body
        (hlast ▸ hg₁.isPrefix_body here)
        (fun hmem => Nat.lt_irrefl _ (hnew ▸ hs.listed _ _ hmem)) (hop' ▸ hphi) fun j hj => ?_
      exact hΓ j (hallow.operands _ (hop' ▸ hj))
    obtain ⟨hdom, hrest⟩ := ih hcont.ready hg
      (fun j hle => hop j (Nat.le_trans hcont.grows.func.insts_le hle)) hcalls hΓ₁
    refine ⟨hdom, fun b j hj => ?_⟩
    rcases hrest b j hj with hj | hj
    · rw [hbody] at hj
      split at hj
      · rename_i hb
        subst hb
        rcases List.mem_append.mp hj with hj | hj
        · exact .inl hj
        · rw [List.mem_singleton.mp hj]
          exact .inr hplaced
      · exact .inl hj
    · exact .inr hj
  | @loop Γ Γ₁ Γ' s s₁ s₂ s₃ s' here e there inner later start stop name body l r hstart hstop h
      hopen hbody hinner hrest ihinner ih =>
    obtain ⟨mid, φ, hloop, hready₁⟩ := looped_of_emits hs h hopen hbody hinner.emits
    have hc := hcalls _ (Calls.mem_all_call.mpr (.inl rfl))
    have hcont := hloop.continues
    have hlater := hrest.emits.continues hcont.ready
    have hg₃ := hlater.grows.func.trans hg
    have hle₁ := (hloop.opened.grows.trans hloop.tested.grows).func
    have hop₃ : ∀ i, s.func.insts.size ≤ i → i < s₃.func.insts.size → f.op i = s₃.func.op i :=
      fun i hle hlt =>
        (hop i hle (Nat.lt_of_lt_of_le hlt hlater.grows.func.insts_le)).trans (hlater.op_eq i hlt)
    -- Closing the loop changes no instruction of the body.
    have hop₂ : ∀ i, s₁.func.insts.size ≤ i → i < s₂.func.insts.size → f.op i = s₂.func.op i := by
      intro i hle hlt
      have hφ : i ≠ φ := Nat.ne_of_gt (Nat.lt_of_lt_of_le
        (Nat.lt_of_lt_of_le hloop.opened.lt hloop.tested.grows.func.insts_le) hle)
      rw [← hloop.closed.stays i hlt hφ]
      exact hop₃ i (Nat.le_trans hle₁.insts_le hle)
        (Nat.lt_of_lt_of_le hlt hloop.closed.grows.func.insts_le)
    have hΓ₁ : Scope.Dominates (.operand l.induction :: Γ) f s₁ l.body := by
      have hbody := hloop.header_dominates_body hf hc
      rw [hloop.opened.induction_eq]
      refine (hΓ.trans hle₁.isPrefix_body ((hloop.dominates_header hf hc).trans hbody)).cons_inst
        ((hloop.tested.grows.func.isPrefix_body _).subset ?_) hbody
      exact hloop.opened.body_header ▸ List.mem_cons_self
    obtain ⟨-, hplaced⟩ := ihinner hready₁ (hloop.closed.grows.func.trans hg₃) hop₂
      (fun c hc => hcalls c (Calls.mem_all_call.mpr (.inr (.inl hc)))) hΓ₁
    obtain ⟨hdom, hafter⟩ := ih hcont.ready hg
      (fun i hle => hop i (Nat.le_trans hcont.grows.func.insts_le hle))
      (fun c hc => hcalls c (Calls.mem_all_call.mpr (.inr (.inr hc))))
      (hΓ.trans hcont.grows.func.isPrefix_body
        ((hloop.dominates_header hf hc).trans (hloop.header_dominates_exit hf hc)))
    refine ⟨hdom, fun b i hi => ?_⟩
    rcases hafter b i hi with hi | hi
    · refine hloop.placed hf hc hg₃ (hop₃ φ hloop.opened.insts_le ?_)
        (fun j hj => hΓ j (hj ▸ hstart)) (fun j hj => hΓ j (hj ▸ hstop)) hplaced hi
      exact Nat.lt_of_lt_of_le hloop.opened.lt
        ((hloop.tested.grows.trans hloop.filled.grows).trans hloop.closed.grows).func.insts_le
    · exact .inr hi

end

/-! ## Whole functions -/

/-- A finished function is in static single assignment form if its instructions stand where they
can. -/
theorem Finished.wellFormed {f : Func} {all : Calls} {last : Nat} (hf : Finished all last f)
    (hend : ∃ t, f.terminator? last = some t)
    (hexists : ∀ b, ∀ i ∈ f.body b, ∀ v ∈ (f.op i).operands, Verify.operandExists f v = true)
    (hplaced : ∀ b, ∀ i ∈ f.body b, f.Placed b i) : f.WellFormed := by
  obtain ⟨hlaid, hlayout, hnone, harr⟩ := hf
  have hlive {b : Nat} : b ∈ f.layout ↔ b ≤ last := by
    rw [hlayout, List.mem_range, Nat.lt_succ_iff]
  exact {
    owner_eq := fun b _ i hi => harr.owner_eq b i hi
    ends := fun b hb => by
      rcases hlaid.source b (Nat.zero_le _) (hlive.mp hb) with rfl | ⟨c, hc, hb⟩
      · exact hend
      · obtain ⟨hframe, -, -⟩ := hlaid.frame c hc
        have hne : f.successors b ≠ [] := by
          rcases hb with rfl | rfl | hb | rfl
          · simp [hframe.enter]
          · simp [hframe.test]
          · rw [Nat.eq_sub_of_add_eq hb, hframe.leave]
            exact List.cons_ne_nil _ _
          · simp [hframe.back]
        exact Func.exists_terminator hne
    terminator_eq := fun b _ i hi ht => harr.terminator_eq hi ht
    phi_first := fun b _ i hi => harr.phi_first b i hi
    successor_live := fun b hb d hd => by
      obtain ⟨c, hc, hl⟩ := hlaid.exists_leads hnone (hlive.mp hb) hd
      obtain ⟨hframe, -, hle⟩ := hlaid.frame c hc
      have hlast := hframe.le_last
      unfold LoopCall.Leads at hl
      exact hlive.mpr (by omega)
    entry_predecessors := fun e he => by
      have hentry : FlowGraph.entry? (ofFunc f) = some 0 := entry_eq hlayout
      rw [FlowGraph.entry?, blocks_ofFunc] at hentry
      cases he.symm.trans hentry
      refine List.eq_nil_iff_forall_not_mem.mpr fun p hp => ?_
      obtain ⟨c, hc, hl⟩ :=
        (hlaid.edge_iff hlayout hnone).mp ((mem_predecessors_iff hlayout (Nat.zero_le _)).mp hp)
      have hlast := (hlaid.frame c hc).1.le_last
      unfold LoopCall.Leads at hl
      omega
    operand_exists := fun b _ i hi => hexists b i hi
    phi_sources := fun b _ i hi incoming hop =>
      ⟨((hplaced b i hi).sources incoming hop).1, ((hplaced b i hi).sources incoming hop).2.1⟩
    phi_dominated := fun b _ i hi incoming hop => ((hplaced b i hi).sources incoming hop).2.2
    use_dominated := fun b _ _ i hi hphi => (hplaced b i hi).uses hphi }

/-- A whole function was built from code in scope. -/
inductive Written : Scope → Site → Site → Prop where
  | type {Γ : Scope} {s s₁ s' : Site} {ty : Ty} {t : TyId}
      (hty : ∀ c ∈ ty.shape.components, .type c ∈ Γ) (h : internTy ty s = (.ok t, s₁))
      (rest : Written (.type t :: Γ) s₁ s') : Written Γ s s'
  | slot {Γ : Scope} {s s' : Site} {t : TyId} {sc : Scalar} (h : s.types.shape t = .scalar sc)
      (hw : sc.width ≤ 8) (rest : Written (.slot t :: Γ) s s') : Written Γ s s'
  | entry {Γ Γ' : Scope} {s s₁ s₂ s' : Site} {label : String} {entry there : BlockId}
      {calls : Calls} {v : Option Operand} (hentry : block label s = (.ok entry, s₁))
      (hcode : Writes Γ s₁ entry calls Γ' s₂ there) (hv : ∀ u, v = some u → .operand u ∈ Γ')
      (hret : Build.ret there v s₂ = (.ok (), s')) : Written Γ s s'

variable {Γ Γ' : Scope} {s s' : Site}

theorem Written.edits (h : Written Γ s s') (hs : s.Built) (hΓ : Γ.Typed s) : s.Edits s' := by
  induction h with
  | type hty h _ ih =>
    obtain ⟨he, hΓ'⟩ := (Writes.type hty h (.done (List.Subset.refl _) _ 0)).edits hs hΓ
    exact he.trans (ih (hs.edits he) hΓ')
  | slot _ _ _ ih => exact ih hs (hΓ.cons nofun)
  | entry hentry hcode _ hret =>
    have he := edits_block hentry
    obtain ⟨he', _⟩ := hcode.edits (hs.edits he) (hΓ.extends he.keepsTypes.types)
    have he₂ := he.trans he'
    exact he₂.trans ((edits_effect (hs.edits he₂) rfl (by nofun)).of_ok hret)

/-- All instructions of code in scope stand where they can, and so does the return behind it. -/
theorem Writes.placed_ret {last : Nat} {v : Option Operand}
    (h : Writes Γ s here calls Γ' s₂ there) (hret : Build.ret there v s₂ = (.ok (), s'))
    (hf : Finished calls last s'.func) (hs : s.Ready here) (hempty : ∀ b, s.func.body b = [])
    (hstatic : ∀ i, .operand (.inst i) ∉ Γ) (hv : ∀ u, v = some u → .operand u ∈ Γ') :
    ∀ b, ∀ i ∈ s'.func.body b, s'.func.Placed b i := by
  have hcont := h.emits.continues hs
  have hlater := continues_of_effect rfl hcont.ready.listed hret
  obtain ⟨hdom, hplaced⟩ := h.placed hf hs hlater.grows.func
    (fun i _ hlt => hlater.op_eq i hlt) (fun _ hc => hc) fun i hi => absurd hi (hstatic i)
  obtain ⟨k, hnew, hlt, hop, hbody⟩ := body_of_effect hret
  have hend : s'.func.body there = s₂.func.body there ++ [k] := (hbody there).trans (if_pos rfl)
  have hlast : s'.func.Placed there k := by
    refine hf.arranged.placed (t := s₂.func) hlater.grows.func.isPrefix_body
      (hend ▸ List.prefix_refl _)
      (fun hmem => Nat.lt_irrefl _ (hnew ▸ hcont.ready.listed _ _ hmem)) (by rw [hop]; rfl) ?_
    intro j hj
    rw [hop] at hj
    exact hdom j (hv _ (by simpa [Op.operands, eq_comm] using hj))
  intro b i hi
  have hold (hi : i ∈ s₂.func.body b) : s'.func.Placed b i :=
    (hplaced b i hi).resolve_left fun hi => absurd (hempty b ▸ hi) List.not_mem_nil
  rw [hbody] at hi
  split at hi
  · rename_i hb
    subst hb
    rcases List.mem_append.mp hi with hi | hi
    · exact hold hi
    · exact List.mem_singleton.mp hi ▸ hlast
  · exact hold hi

/-- An entry block was made for a function. -/
theorem ready_of_block {label : String} {entry : BlockId} (hs : s.Fresh)
    (h : block label s = (.ok entry, s')) : s'.Ready entry ∧ ∀ b, s'.func.body b = [] := by
  obtain ⟨rfl, rfl⟩ := block_eq_ok.mp h
  have hempty : ∀ b, (s.func.addBlock label).2.body b = [] := by
    intro b
    rw [Func.body_addBlock, hs.declared]
    rfl
  refine ⟨⟨fun b i hi => absurd (hempty b ▸ hi) List.not_mem_nil, ?_⟩, hempty⟩
  exact (Func.blocks_size_addBlock _ _).symm ▸ Nat.lt_succ_self _

/-- The verifier accepts a function that was built from code in scope. -/
theorem Written.verify (h : Written Γ s s') (hs : s.Fresh) (hΓ : Γ.Typed s)
    (hstatic : ∀ i, .operand (.inst i) ∉ Γ) : s'.func.verify s'.types = .ok () := by
  induction h with
  | type hty h _ ih =>
    obtain ⟨_, hΓ'⟩ := (Writes.type hty h (.done (List.Subset.refl _) _ 0)).edits hs.built hΓ
    obtain ⟨rfl, rfl⟩ := internTy_eq_ok.mp h
    refine ih ?_ hΓ' fun i hi => ?_
    · exact ⟨TypeTable.distinct_insert hs.distinct _,
        TypeTable.closed_insert hs.closed fun c hc => hΓ c (hty c hc), hs.declared,
        fun t ht => Nat.lt_of_lt_of_le (hs.tys_lt t ht) (TypeTable.extends_insert _ _).size_le⟩
    · exact hstatic i ((List.mem_cons.mp hi).resolve_left nofun)
  | slot _ _ _ ih =>
    exact ih hs (hΓ.cons nofun) fun i hi => hstatic i ((List.mem_cons.mp hi).resolve_left nofun)
  | @entry Γ Γ' s s₁ s₂ s' label entry there calls v hentry hcode hv hret =>
    have hbuilt : s'.Built :=
      hs.built.edits ((Written.entry hentry hcode hv hret).edits hs.built hΓ)
    have hdeclared : s = ⟨s.types, .declare s.func.name s.func.params s.func.ret⟩ := by
      rw [← hs.declared]
    have hwhole : Whole calls s'.func := .close (hdeclared ▸ hentry) hcode.emits hret
    obtain ⟨last, hlaid, hlayout, ⟨t, w, ht, hw⟩, -⟩ := hwhole.exists_laid
    have hf : Finished calls last s'.func :=
      ⟨hlaid, hlayout, Func.successors_of_ret ht hw, hbuilt.arranged⟩
    obtain ⟨hready, hempty⟩ := ready_of_block hs hentry
    have hlive : last ∈ s'.func.layout := hlayout ▸ List.mem_range.mpr (Nat.lt_succ_self _)
    refine (Func.verify_eq_ok_iff (Func.isDeclaration_of_live hlive)).mpr ⟨?_, ?_⟩
    · exact hf.wellFormed ⟨t, ht⟩ (fun b i hi => hbuilt.operandExists (hbuilt.arranged.lt hi))
        (hcode.placed_ret hret hf hready hempty hstatic hv)
    · exact fun b _ i hi => hbuilt.accepts i (hbuilt.arranged.lt hi)

end Build

end LoopNest
