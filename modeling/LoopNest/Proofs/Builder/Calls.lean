import LoopNest.Proofs.Builder.Checked
import LoopNest.Proofs.Builder.Loop

/-!
# Trees of loops

`Build.Emits` says what code may do between two sites: append instructions to the block that it has
come to, and build loops whose bodies do the same.  The calls of `Build.loop` make up a tree.

The function that results is known up to the instructions in between.  A call takes a run of block
numbers, from its header to its exit, with all that its body builds in the middle, and its branches
lead where the shape of a counted loop wants them (`Laid`).  `LoopCall.Coded` lists its own
instructions.  Both hold of every function that the site grows into, since a block takes nothing
more behind its terminator.
-/

namespace LoopNest

/-! ## Calls -/

/-- A finished call of `Build.loop`. -/
structure LoopCall where
  /-- The block at whose end the loop was built. -/
  here : BlockId
  /-- The first induction value. -/
  start : Operand
  /-- The end of the induction values. -/
  stop : Operand
  /-- What the call gave. -/
  built : BuiltLoop

/-- Calls one after another, each with those that its body made. -/
inductive Calls where
  /-- No calls. -/
  | none
  /-- A call, the calls in its body, and the calls after it. -/
  | call (c : LoopCall) (inner later : Calls)

namespace Calls

/-- Every call with the one in whose body it was made, if any. -/
def within (outer : Option LoopCall) : Calls → List (LoopCall × Option LoopCall)
  | .none => []
  | .call c inner later => (c, outer) :: (inner.within (some c) ++ later.within outer)

/-- Every call. -/
def all : Calls → List LoopCall
  | .none => []
  | .call c inner later => c :: (inner.all ++ later.all)

/-- Calls after others. -/
def append : Calls → Calls → Calls
  | .none, cs => cs
  | .call c inner later, cs => .call c inner (later.append cs)

@[simp] theorem mem_all_call {c d : LoopCall} {inner later : Calls} :
    d ∈ (Calls.call c inner later).all ↔ d = c ∨ d ∈ inner.all ∨ d ∈ later.all := by
  simp [all]

@[simp] theorem map_fst_within : ∀ (cs : Calls) (outer : Option LoopCall),
    (cs.within outer).map Prod.fst = cs.all
  | .none, _ => rfl
  | .call c inner later, outer => by
    simp [within, all, map_fst_within inner, map_fst_within later]

end Calls

/-! ## Emissions -/

namespace Build

/-- One step of straight code: a type, a constant, or an instruction at the end of a block. -/
inductive Step (here : BlockId) : Site → Site → Prop where
  | type {s s' : Site} {ty : Ty} {t : TyId} (h : internTy ty s = (.ok t, s')) : Step here s s'
  | constant {s s' : Site} {sc : Scalar} {l : Literal} {v : Operand}
      (h : Build.constant sc l s = (.ok v, s')) : Step here s s'
  | inst {s s' : Site} {op : Op} {declared : Option TyId} {name : Option String} {i : InstId}
      (hphi : op.isPhi = false) (hterm : op.isTerminator = false)
      (h : emit here op declared name s = (.ok i, s')) : Step here s s'

/-- Code was emitted from one site and block to others: straight code, and loops that have code of
this kind for a body. -/
inductive Emits : Site → BlockId → Calls → Site → BlockId → Prop where
  | done (s : Site) (here : BlockId) : Emits s here .none s here
  | step {s s₁ s' : Site} {here there : BlockId} {calls : Calls} (h : Step here s s₁)
      (rest : Emits s₁ here calls s' there) : Emits s here calls s' there
  | loop {s s₁ s₂ s₃ s' : Site} {here e there : BlockId} {inner later : Calls}
      {start stop : Operand} {name : String} {body : BlockId → Operand → Build BlockId}
      {l : OpenLoop} {r : BuiltLoop} (h : loop here start stop name body s = (.ok r, s₃))
      (hopen : openLoop here start stop name s = (.ok l, s₁))
      (hbody : body l.body l.induction s₁ = (.ok e, s₂)) (hinner : Emits s₁ l.body inner s₂ e)
      (rest : Emits s₃ r.exit later s' there) :
      Emits s here (.call ⟨here, start, stop, r⟩ inner later) s' there

variable {s s₁ s₂ s₃ s' : Site} {here there e : BlockId} {start stop : Operand} {name : String}

theorem Emits.trans {calls calls' : Calls} (h : Emits s here calls s₁ there)
    (h' : Emits s₁ there calls' s' e) : Emits s here (calls.append calls') s' e := by
  induction h with
  | done => exact h'
  | step hstep _ ih => exact .step hstep (ih h')
  | loop h hopen hbody hinner _ _ ih => exact .loop h hopen hbody hinner (ih h')

/-- The end of a call whose beginning and body are known. -/
theorem closeLoop_of_loop {body : BlockId → Operand → Build BlockId} {l : OpenLoop} {r : BuiltLoop}
    (h : loop here start stop name body s = (.ok r, s₃))
    (hopen : openLoop here start stop name s = (.ok l, s₁))
    (hbody : body l.body l.induction s₁ = (.ok e, s₂)) : closeLoop l e s₂ = (.ok r, s₃) := by
  obtain ⟨l', t₁, hopen', hrest⟩ := bind_eq_ok.mp h
  cases hopen.symm.trans hopen'
  obtain ⟨e', t₂, hbody', hclose⟩ := bind_eq_ok.mp hrest
  cases hbody.symm.trans hbody'
  exact hclose

theorem Step.continues (h : Step here s s') (hs : s.Ready here) : s.Continues s' here here := by
  cases h with
  | type h =>
    obtain ⟨_, rfl⟩ := internTy_eq_ok.mp h
    exact ⟨⟨s.types.extends_insert _, .refl _⟩, ⟨hs.listed, hs.lt⟩, fun _ _ _ => rfl,
      fun _ _ => rfl, .inl rfl⟩
  | constant h =>
    obtain ⟨_, rfl⟩ := constant_eq_ok.mp h
    exact ⟨⟨s.types.extends_intern _, s.func.grows_addConstant _ _⟩, ⟨hs.listed, hs.lt⟩,
      fun _ _ _ => rfl, fun _ _ => rfl, .inl rfl⟩
  | inst hphi _ h => exact continues_of_emit hphi hs.listed h

theorem Step.blocks_size (h : Step here s s') : s'.func.blocks.size = s.func.blocks.size := by
  cases h with
  | type h =>
    obtain ⟨_, rfl⟩ := internTy_eq_ok.mp h
    rfl
  | constant h =>
    obtain ⟨_, rfl⟩ := constant_eq_ok.mp h
    rfl
  | inst _ _ h => exact blocks_size_of_emit h

theorem Emits.continues {calls : Calls} (h : Emits s here calls s' there) (hs : s.Ready here) :
    s.Continues s' here there := by
  induction h with
  | done => exact .refl hs
  | step hstep _ ih =>
    have h₁ := hstep.continues hs
    exact h₁.trans (ih h₁.ready)
  | loop h hopen hbody _ _ ihinner ih =>
    obtain ⟨mid, φ, hloop⟩ :=
      looped_of_openLoop hs hopen ihinner (closeLoop_of_loop h hopen hbody)
    exact hloop.continues.trans (ih hloop.continues.ready)

/-- The parts of a call whose body is known. -/
theorem looped_of_emits {inner : Calls} {body : BlockId → Operand → Build BlockId} {l : OpenLoop}
    {r : BuiltLoop} (hs : s.Ready here) (h : loop here start stop name body s = (.ok r, s₃))
    (hopen : openLoop here start stop name s = (.ok l, s₁))
    (hbody : body l.body l.induction s₁ = (.ok e, s₂)) (hinner : Emits s₁ l.body inner s₂ e) :
    ∃ mid φ, Looped s mid s₁ s₂ s₃ here e start stop name l r φ ∧ s₁.Ready l.body := by
  obtain ⟨mid, φ, hloop⟩ :=
    looped_of_openLoop hs hopen hinner.continues (closeLoop_of_loop h hopen hbody)
  exact ⟨mid, φ, hloop, hloop.tested.ready.listed,
    Nat.lt_of_lt_of_le hloop.opened.body_lt hloop.tested.grows.func.blocks_le⟩

end Build

/-! ## Tidy sites -/

namespace Func.Arranged

variable {f : Func} {b : BlockId}

/-- A terminator ends its block. -/
theorem terminator_eq (hf : f.Arranged) {i : InstId} (hi : i ∈ f.body b)
    (ht : (f.op i).isTerminator = true) : f.terminator? b = some i := by
  rcases List.eq_nil_or_concat' (f.body b) with hnil | ⟨front, t, hbody⟩
  · rw [hnil] at hi
    exact absurd hi List.not_mem_nil
  · rw [hbody, List.mem_append, List.mem_singleton] at hi
    rcases hi with hi | rfl
    · have := hf.terminator_last b i (by rwa [hbody, List.dropLast_concat])
      exact absurd (this.symm.trans ht) Bool.false_ne_true
    · simp [terminator?, hbody, ht]

end Func.Arranged

namespace Site

/-- Blocks hold their instructions in order, and are laid out by their numbers. -/
structure Tidy (s : Site) : Prop where
  arranged : s.func.Arranged
  layout_eq : s.func.layout = List.range s.func.blocks.size

namespace Tidy

open Build

variable {s s' : Site} {here : BlockId}

theorem constant (hs : s.Tidy) {sc : Scalar} {l : Literal} {v : Operand}
    (h : Build.constant sc l s = (.ok v, s')) : s'.Tidy := by
  obtain ⟨_, rfl⟩ := constant_eq_ok.mp h
  exact ⟨hs.arranged.addConstant _ _, hs.layout_eq⟩

theorem block (hs : s.Tidy) {name : String} {b : BlockId} (h : Build.block name s = (.ok b, s')) :
    s'.Tidy := by
  obtain ⟨_, rfl⟩ := block_eq_ok.mp h
  refine ⟨hs.arranged.addBlock name, ?_⟩
  rw [Func.layout_addBlock, Func.blocks_size_addBlock, List.range_succ, hs.layout_eq]

theorem emit (hs : s.Tidy) {op : Op} {declared : Option TyId} {name : Option String} {i : InstId}
    (hphi : op.isPhi = false) (h : Build.emit here op declared name s = (.ok i, s')) : s'.Tidy := by
  rcases emit_cases here op declared name s with ⟨e, he⟩ | ⟨ty, hhere, hopen, _, he⟩
  · cases (Prod.mk.inj (he.symm.trans h)).1
  · cases he.symm.trans h
    refine ⟨hs.arranged.appendInst hhere hopen hphi, ?_⟩
    rw [Func.blocks_size_appendInst]
    exact hs.layout_eq

theorem step (hs : s.Tidy) (h : Step here s s') : s'.Tidy := by
  cases h with
  | type h =>
    obtain ⟨_, rfl⟩ := internTy_eq_ok.mp h
    exact ⟨hs.arranged, hs.layout_eq⟩
  | constant h => exact hs.constant h
  | inst hphi _ h => exact hs.emit hphi h

theorem effect (hs : s.Tidy) {op : Op} (hphi : op.isPhi = false)
    (h : Build.effect here op s = (.ok (), s')) : s'.Tidy := by
  obtain ⟨i, hi⟩ := effect_eq_ok.mp h
  exact hs.emit hphi hi

theorem value (hs : s.Tidy) {op : Op} {name : String} {v : Operand} (hphi : op.isPhi = false)
    (h : Build.value here op name s = (.ok v, s')) : s'.Tidy := by
  obtain ⟨i, _, hi⟩ := value_eq_ok.mp h
  exact hs.emit hphi hi

theorem phi (hs : s.Tidy) {ty : TyId} {incoming : List (Operand × BlockId)} {name : String}
    {v : Operand} (hhere : here < s.func.blocks.size)
    (h : Build.phi here ty incoming name s = (.ok v, s')) : s'.Tidy := by
  obtain ⟨_, rfl⟩ := phi_eq_ok h
  refine ⟨hs.arranged.insertPhi hhere _ _ _, ?_⟩
  rw [Func.insertPhi, Func.blocks_size_insertInst]
  exact hs.layout_eq

theorem addIncoming (hs : s.Tidy) {φ v : Operand} {pred : BlockId}
    (h : Build.addIncoming φ v pred s = (.ok (), s')) : s'.Tidy := by
  obtain ⟨i, _, _, rfl⟩ := addIncoming_eq_ok h
  exact ⟨hs.arranged.addIncoming _ _ _, hs.layout_eq⟩

theorem openLoop (hs : s.Tidy) {start stop : Operand} {name : String} {l : OpenLoop}
    (h : Build.openLoop here start stop name s = (.ok l, s')) : s'.Tidy := by
  obtain ⟨⟨ty, sc⟩, s₀, hbound, hrest⟩ := bind_eq_ok.mp h
  obtain ⟨rfl, -, -⟩ := boundScalar_eq_ok hbound
  obtain ⟨header, s₁, hheader, hrest₁⟩ := bind_eq_ok.mp hrest
  obtain ⟨body, s₂, hbody, hrest₂⟩ := bind_eq_ok.mp hrest₁
  obtain ⟨_, s₃, hbr, hrest₃⟩ := bind_eq_ok.mp hrest₂
  obtain ⟨φ, s₄, hphi, hrest₄⟩ := bind_eq_ok.mp hrest₃
  obtain ⟨_, s₅, htest, hl⟩ := bind_eq_ok.mp hrest₄
  obtain ⟨rfl, rfl⟩ := pure_eq_ok.mp hl
  have hlt : header < s₃.func.blocks.size := by
    obtain ⟨rfl, rfl⟩ := block_eq_ok.mp hheader
    obtain ⟨rfl, rfl⟩ := block_eq_ok.mp hbody
    rw [blocks_size_of_effect hbr, Func.blocks_size_addBlock, Func.blocks_size_addBlock]
    exact Nat.lt_succ_of_lt (Nat.lt_succ_self _)
  exact ((((hs.block hheader).block hbody).effect rfl hbr).phi hlt hphi).value rfl htest

theorem closeLoop (hs : s.Tidy) {l : OpenLoop} {e : BlockId} {r : BuiltLoop}
    (h : Build.closeLoop l e s = (.ok r, s')) : s'.Tidy := by
  obtain ⟨_, s₁, hlatch, hrest⟩ := bind_eq_ok.mp h
  obtain ⟨_, s₂, hexit, hrest₁⟩ := bind_eq_ok.mp hrest
  obtain ⟨_, s₃, hleave, hrest₂⟩ := bind_eq_ok.mp hrest₁
  obtain ⟨_, s₄, hbranch, hrest₃⟩ := bind_eq_ok.mp hrest₂
  obtain ⟨_, s₅, hone, hrest₄⟩ := bind_eq_ok.mp hrest₃
  obtain ⟨_, s₆, hadd, hrest₅⟩ := bind_eq_ok.mp hrest₄
  obtain ⟨_, s₇, hentry, hrest₆⟩ := bind_eq_ok.mp hrest₅
  obtain ⟨_, s₈, hback, hr⟩ := bind_eq_ok.mp hrest₆
  obtain ⟨rfl, rfl⟩ := pure_eq_ok.mp hr
  have hblocks := ((hs.block hlatch).block hexit).effect rfl hleave
  exact ((((hblocks.effect rfl hbranch).constant hone).value rfl hadd).addIncoming hentry).effect
    rfl hback

theorem emits (hs : s.Tidy) {calls : Calls} {there : BlockId} (h : Emits s here calls s' there) :
    s'.Tidy := by
  induction h with
  | done => exact hs
  | step hstep _ ih => exact ih (hs.step hstep)
  | loop h hopen hbody _ _ ihinner ih =>
    exact ih ((ihinner (hs.openLoop hopen)).closeLoop (closeLoop_of_loop h hopen hbody))

end Tidy

end Site

/-! ## What a call leaves -/

namespace LoopCall

/-- The number of the block before the loop. -/
def before (c : LoopCall) : Nat := c.here

/-- The number of the latch. -/
def last (c : LoopCall) : Nat := c.built.latch

/-- Header and body come right after the block before the loop, and the exit right after the latch.
What the body has built stands between them.  The branches are those of a counted loop. -/
structure Frame (c : LoopCall) (f : Func) : Prop where
  header_eq : c.built.header = c.before + 1
  body_eq : c.built.body = c.before + 2
  exit_eq : c.built.exit = c.last + 1
  le_last : c.before + 3 ≤ c.last
  enter : f.successors c.before = [c.before + 1]
  test : f.successors (c.before + 1) = [c.before + 2, c.last + 1]
  leave : f.successors (c.last - 1) = [c.last]
  back : f.successors c.last = [c.before + 1]

/-- The instructions of a call: the induction phi, the exit test, and the sum in the latch. -/
structure Coded (c : LoopCall) (f : Func) (φ cond next : InstId) (one : Operand) : Prop where
  induction_eq : c.built.induction = .inst φ
  phis_eq : f.phis c.built.header = [φ]
  start_eq : f.incoming? φ c.here = some c.start
  next_eq : f.incoming? φ c.built.latch = some (.inst next)
  branch : ∃ t, f.terminator? c.built.header = some t ∧
    f.op t = .condBr (.inst cond) c.built.body c.built.exit
  cond_op : f.op cond = .icmp .ult (.inst φ) c.stop
  cond_owner : f.owner cond = some c.built.header
  next_op : f.op next = .binary .add (.inst φ) one
  one_eq : f.intLiteral? one = some 1
  next_owner : f.owner next = some c.built.latch

end LoopCall

/-- Between two blocks of a function stands what some calls have built. -/
inductive Laid (f : Func) : Nat → Calls → Nat → Prop where
  | none (here : Nat) : Laid f here .none here
  | call {c : LoopCall} {inner later : Calls} {there : Nat} (hc : c.Frame f)
      (hinner : Laid f (c.before + 2) inner (c.last - 1))
      (hlater : Laid f (c.last + 1) later there) : Laid f c.before (.call c inner later) there

namespace Build

variable {s s₁ s₂ s₃ mid s' : Site} {here there e : Nat} {start stop : Operand} {name : String}
  {f : Func}

/-- An emitted instruction is in every function that holds the site. -/
theorem mem_of_emit {op : Op} {declared : Option TyId} {nm : Option String} {i : InstId}
    (hop : op.isPhi = false) (h : emit here op declared nm s = (.ok i, s'))
    (hf : s'.func.Within f) : i ∈ f.body here ∧ f.op i = op := by
  obtain ⟨hhere, ty, _, rfl, rfl⟩ := emit_eq_ok h
  have hmem : s.func.insts.size ∈
      (s.func.appendInst here ⟨op, (s.types.insert ty).1, nm⟩).2.body here := by
    rw [Func.body_appendInst _ _ hhere, if_pos rfl]
    exact List.mem_append_right _ List.mem_cons_self
  have hnew :
      (s.func.appendInst here ⟨op, (s.types.insert ty).1, nm⟩).2.op s.func.insts.size = op := by
    rw [Func.op, Func.inst_appendInst, if_pos rfl]
  refine ⟨(hf.isPrefix_body here).subset hmem, ?_⟩
  rw [hf.op_eq (Func.insts_size_insertInst .. ▸ Nat.lt_succ_self _) (by rw [hnew, hop]), hnew]

/-- An emitted terminator ends its block. -/
theorem terminator?_of_effect {op : Op} {u : Unit} (hop : op.isPhi = false)
    (hterm : op.isTerminator = true) (h : effect here op s = (.ok u, s')) (hf : s'.func.Within f)
    (harr : f.Arranged) : ∃ t, f.terminator? here = some t ∧ f.op t = op := by
  obtain ⟨i, hi⟩ := effect_eq_ok.mp h
  obtain ⟨hmem, hopi⟩ := mem_of_emit hop hi hf
  exact ⟨i, harr.terminator_eq hmem (hopi ▸ hterm), hopi⟩

theorem successors_of_br {target : BlockId} {u : Unit} (h : br here target s = (.ok u, s'))
    (hf : s'.func.Within f) (harr : f.Arranged) : f.successors here = [target] := by
  obtain ⟨t, ht, hop⟩ := terminator?_of_effect rfl rfl h hf harr
  simp [Func.successors, ht, hop, Op.targets]

theorem successors_of_condBr {v : Operand} {x y : BlockId} {u : Unit}
    (h : condBr here v x y s = (.ok u, s')) (hxy : x ≠ y) (hf : s'.func.Within f)
    (harr : f.Arranged) : f.successors here = [x, y] := by
  obtain ⟨t, ht, hop⟩ := terminator?_of_effect rfl rfl h hf harr
  simp [Func.successors, ht, hop, Op.targets, hxy]

section

variable {l : OpenLoop} {r : BuiltLoop} {φ : InstId}
  (h : Looped s mid s₁ s₂ s' here e start stop name l r φ) (hlast : here + 1 = s.func.blocks.size)
  (he : e + 1 = s₂.func.blocks.size)
include h hlast he

theorem Looped.frame (hf : s'.func.Grows f) (harr : f.Arranged) :
    LoopCall.Frame ⟨here, start, stop, r⟩ f := by
  obtain ⟨ho, htest, hfill, hc⟩ := h
  obtain ⟨a, b, -, hbr, hw⟩ := ho.branch
  obtain ⟨a', b', -, hleave, hleave'⟩ := hc.leave
  obtain ⟨x, y, -, hbranch, hbranch'⟩ := hc.branch
  obtain ⟨_, _, _, w, -, -, -, -, -, -, hback, -, -⟩ := hc.count
  have hwithin := (htest.grows.trans hfill.grows).trans hc.grows
  have hle : here + 2 ≤ e := by
    rcases hfill.there_eq_or_le with heq | hle
    · rw [heq, ho.body_eq, ← hlast]
    · have hsize := htest.grows.func.blocks_le
      rw [ho.size_eq, ← hlast] at hsize
      exact Nat.le_of_succ_le (Nat.le_trans hsize hle)
  have hheader : l.header = here + 1 := ho.header_eq.trans hlast.symm
  have hbody : l.body = here + 2 := ho.body_eq.trans (congrArg (· + 1) hlast.symm)
  have hlatch : r.latch = e + 1 := hc.latch_eq.trans he.symm
  have hexit : r.exit = e + 2 := hc.exit_eq.trans (congrArg (· + 1) he.symm)
  have hlastCall : LoopCall.last ⟨here, start, stop, r⟩ = e + 1 := hlatch
  rw [hheader] at hbr hbranch hback
  rw [hbody, hexit] at hbranch
  rw [hlatch] at hleave hback
  refine ⟨hc.header_eq.trans hheader, hc.body_eq.trans hbody, ?_, ?_, ?_, ?_, ?_, ?_⟩
  · rw [hlastCall]
    exact hexit
  · rw [hlastCall]
    exact Nat.succ_le_succ hle
  · exact successors_of_br hbr ((hw.func.trans hwithin.func.toWithin).trans hf.toWithin) harr
  · rw [hlastCall]
    exact successors_of_condBr hbranch (Nat.ne_of_lt (Nat.succ_le_succ (Nat.le_succ_of_le hle)))
      (hbranch'.func.trans hf).toWithin harr
  · rw [hlastCall]
    exact successors_of_br hleave (hleave'.func.trans hf).toWithin harr
  · rw [hlastCall]
    exact successors_of_br hback hf.toWithin harr

omit hlast he in
theorem Looped.coded (hf : s'.func.Grows f) (harr : f.Arranged) :
    ∃ cond next one, LoopCall.Coded ⟨here, start, stop, r⟩ f φ cond next one := by
  obtain ⟨ho, htest, hfill, hc⟩ := h
  have hgrows : mid.func.Grows f :=
    ((htest.grows.trans hfill.grows).trans hc.grows).func.trans hf
  obtain ⟨a, b, -, hbranch, hbranch'⟩ := hc.branch
  obtain ⟨a', b', next, c', -, hready, -, hcount, hcount', -, -, hin, -⟩ := hc.count
  obtain ⟨cond, hcond, hemit⟩ := value_eq_ok.mp ho.test
  obtain ⟨hmem, hop⟩ := mem_of_emit rfl hemit ((hfill.grows.trans hc.grows).func.trans hf).toWithin
  -- The latch makes the constant and adds it.
  obtain ⟨one, t, hone, hadd⟩ := bind_eq_ok.mp hcount
  obtain ⟨j, rfl, hj⟩ := value_eq_ok.mp hadd
  obtain ⟨hjmem, hjop⟩ := mem_of_emit rfl hj (hcount'.func.trans hf).toWithin
  have hadded := continues_of_emit rfl ((Step.constant hone).continues hready).ready.listed hj
  obtain ⟨rfl, rfl⟩ := constant_eq_ok.mp hone
  have hφ : φ < s'.func.insts.size := Nat.lt_of_lt_of_le ho.lt
    ((htest.grows.trans hfill.grows).trans hc.grows).func.insts_le
  have hphis : mid.func.phis l.header = [φ] := by
    rw [Func.phis, ho.body_header]
    simp [ho.op_eq, Op.isPhi]
  have hone : ∀ ty : TyId, (b'.func.constants)[a'.func.constants.size]? = some ⟨ty, .int 1⟩ →
      f.intLiteral? (.const a'.func.constants.size) = some 1 := fun ty hb => by
    simp [Func.intLiteral?, Func.literal?, (hcount'.func.trans hf).constant_eq _ _ hb]
  refine ⟨cond, j, .const a'.func.constants.size, {
    induction_eq := hc.induction_eq.trans ho.induction_eq
    phis_eq := ?_
    start_eq := hgrows.incoming?_eq ho.lt (by simp [Func.incoming?, ho.op_eq])
    next_eq := hf.incoming?_eq hφ hin
    branch := ?_
    cond_op := hop
    cond_owner := ?_
    next_op := ho.induction_eq ▸ hjop
    one_eq := hone (a'.types.intern (.scalar l.scalar)).1
      (hadded.grows.func.constant_eq _ _ (by simp [Func.addConstant]))
    next_owner := harr.owner_eq _ _ hjmem }⟩
  · show f.phis r.header = [φ]
    rw [hc.header_eq, hgrows.phis_eq _ ho.ready.lt, hphis]
  · show ∃ t, f.terminator? r.header = some t ∧ f.op t = .condBr (.inst cond) r.body r.exit
    rw [hc.header_eq, hc.body_eq, ← hcond]
    exact terminator?_of_effect rfl rfl hbranch (hbranch'.func.trans hf).toWithin harr
  · show f.owner cond = some r.header
    rw [hc.header_eq]
    exact harr.owner_eq _ _ hmem

end

section

variable {l : OpenLoop} {r : BuiltLoop} {φ : InstId}
  (h : Looped s mid s₁ s₂ s' here e start stop name l r φ) (hlast : here + 1 = s.func.blocks.size)
include h hlast

/-- The body begins in the last block. -/
theorem Looped.body_last : l.body = here + 2 ∧ here + 3 = s₁.func.blocks.size := by
  obtain ⟨_, _, htest⟩ := value_eq_ok.mp h.opened.test
  have hsize : s₁.func.blocks.size = s.func.blocks.size + 2 :=
    (blocks_size_of_emit htest).trans h.opened.size_eq
  exact ⟨h.opened.body_eq.trans (congrArg (· + 1) hlast.symm), by omega⟩

omit hlast in
/-- After a loop that ended in the last block, building goes on in the last block. -/
theorem Looped.exit_last (he : e + 1 = s₂.func.blocks.size) :
    r.latch = e + 1 ∧ r.exit = e + 2 ∧ e + 3 = s'.func.blocks.size := by
  have hsize := h.closed.size_eq
  exact ⟨h.closed.latch_eq.trans he.symm, h.closed.exit_eq.trans (congrArg (· + 1) he.symm),
    by omega⟩

end

/-- Emission is always at the last block. -/
theorem Emits.last {calls : Calls} (h : Emits s here calls s' there) (hs : s.Ready here)
    (hlast : here + 1 = s.func.blocks.size) : there + 1 = s'.func.blocks.size := by
  induction h with
  | done => exact hlast
  | step hstep _ ih => exact ih (hstep.continues hs).ready (hlast.trans hstep.blocks_size.symm)
  | loop h hopen hbody hinner _ ihinner ih =>
    obtain ⟨mid, φ, hloop, hready⟩ := looped_of_emits hs h hopen hbody hinner
    obtain ⟨hbody_eq, hsize⟩ := hloop.body_last hlast
    have he := ihinner hready (hbody_eq ▸ hsize)
    obtain ⟨-, hexit, hsize'⟩ := hloop.exit_last he
    exact ih hloop.continues.ready (hexit ▸ hsize')

/-- The blocks between the ends of an emission. -/
theorem Emits.laid {calls : Calls} (h : Emits s here calls s' there) (hs : s.Ready here)
    (hlast : here + 1 = s.func.blocks.size) (hf : s'.func.Grows f) (harr : f.Arranged) :
    Laid f here calls there := by
  induction h with
  | done => exact .none _
  | step hstep _ ih => exact ih (hstep.continues hs).ready (hlast.trans hstep.blocks_size.symm) hf
  | loop h hopen hbody hinner hrest ihinner ih =>
    obtain ⟨mid, φ, hloop, hready⟩ := looped_of_emits hs h hopen hbody hinner
    obtain ⟨hbody_eq, hsize⟩ := hloop.body_last hlast
    have he := hinner.last hready (hbody_eq ▸ hsize)
    obtain ⟨hlatch, hexit, hsize'⟩ := hloop.exit_last he
    have hready' := hloop.continues.ready
    have hf₃ := (hrest.continues hready').grows.func.trans hf
    have hbefore := ihinner hready (hbody_eq ▸ hsize) (hloop.closed.grows.func.trans hf₃)
    have hafter := ih hready' (hexit ▸ hsize') hf
    rw [hbody_eq] at hbefore
    rw [hexit] at hafter
    refine .call (hloop.frame hlast he hf₃ harr) ?_ ?_
    · rw [LoopCall.last, hlatch]
      exact hbefore
    · rw [LoopCall.last, hlatch]
      exact hafter

/-- The instructions of all calls of an emission. -/
theorem Emits.coded {calls : Calls} (h : Emits s here calls s' there) (hs : s.Ready here)
    (hf : s'.func.Grows f) (harr : f.Arranged) :
    ∀ c ∈ calls.all, ∃ φ cond next one, c.Coded f φ cond next one := by
  induction h with
  | done => exact fun c hc => by cases hc
  | step hstep _ ih => exact ih (hstep.continues hs).ready hf
  | loop h hopen hbody hinner hrest ihinner ih =>
    obtain ⟨mid, φ, hloop, hready⟩ := looped_of_emits hs h hopen hbody hinner
    have hready' := hloop.continues.ready
    have hf₃ := (hrest.continues hready').grows.func.trans hf
    intro c hc
    rcases Calls.mem_all_call.mp hc with rfl | hc | hc
    · exact ⟨φ, hloop.coded hf₃ harr⟩
    · exact ihinner hready (hloop.closed.grows.func.trans hf₃) c hc
    · exact ih hready' hf c hc

end Build

end LoopNest
