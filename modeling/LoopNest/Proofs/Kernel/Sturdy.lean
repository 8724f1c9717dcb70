import LoopNest.Proofs.Kernel.Woven
import LoopNest.Proofs.Pass.Correct

/-!
# Generated functions

A generated function has what passes rely on (`Kernel.added_generate`), whatever the program is that
it is added to.  The verifier accepts it.  Its blocks and instructions agree on what belongs to what,
since every step of construction keeps that (`Site.Edits.linked`).  It makes no calls, and its stack
slots are for single elements, since that is all that the code in scope can add
(`Build.Written.addsModest`).

A function is tame if every preset pipeline finishes it, also when types were interned before
(`Kernel.Tame`).  Woven kernels are tame (`Kernel.tame_of_interwoven`).
-/

namespace LoopNest

open Func

variable {tt tt' : TypeTable}

/-! ## Ownership under construction -/

namespace Site

variable {s s' : Site}

theorem Edit.linked (h : s.Edit s') (hl : s.func.Linked) : s'.func.Linked := by
  cases h with
  | intern ty => exact hl
  | block name => exact hl.addBlockAt name _
  | constant t l => exact hl.congr rfl rfl fun _ => rfl
  | append here d hhere => exact hl.insertInst hhere _ d
  | phi here incoming t name hhere => exact hl.insertInst hhere _ _
  | incoming i v pred =>
    dsimp only [Func.addIncoming]
    exact hl.modifyOp _ _

theorem Edits.linked (h : s.Edits s') (hl : s.func.Linked) : s'.func.Linked := by
  induction h with
  | refl => exact hl
  | tail _ he ih => exact he.linked ih

end Site

/-! ## Operations under construction -/

/-- The operation makes no call, and slots for small elements only. -/
structure Op.Modest (tt : TypeTable) (op : Op) : Prop where
  uncalled : ∀ callee args, op ≠ .call callee args
  slot : ∀ t a, op = .alloca t a → ∃ sc, tt.shape t = .scalar sc ∧ sc.width ≤ 8

theorem Op.Modest.extends {op : Op} (h : op.Modest tt) (he : tt.Extends tt') : op.Modest tt' :=
  ⟨h.uncalled, fun t a hop => (h.slot t a hop).imp fun _ hs => ⟨he.shape_eq hs.1 nofun, hs.2⟩⟩

theorem Op.modest_phi (incoming : List (Operand × BlockId)) : (Op.phi incoming).Modest tt :=
  ⟨nofun, nofun⟩

/-- A slot for a single element is not too large. -/
theorem Padding.slotStuck_of_scalar {t : TyId} {sc : Scalar} (h : tt.shape t = .scalar sc)
    (hw : sc.width ≤ 8) : slotStuck tt t = false := by
  have hfits : tt.storeFits t = true := by simp [TypeTable.storeFits, TypeTable.storeFitsWithin, h]
  have hextent : tt.extent t = ⟨sc.width, sc.width⟩ := by
    simp [TypeTable.extent, TypeTable.extentWithin, h]
  unfold slotStuck TypeTable.paddedFits TypeTable.sizeInBits TypeTable.storeSize
    TypeTable.paddedSize
  rw [hfits, hextent]
  generalize sc.width = w at hw
  interval_cases w <;> rfl

theorem Func.padStuck_of_modest {f : Func} (h : ∀ i ∈ f.liveInsts, (f.op i).Modest tt) :
    f.padStuck tt = false := by
  refine Padding.padStuck_eq_false_iff.mpr fun i hi t a hop => ?_
  obtain ⟨sc, hsc, hw⟩ := (h i hi).slot t a hop
  exact Padding.slotStuck_of_scalar hsc hw

namespace Site

/-- What was added between two sites is modest. -/
structure AddsModest (s s' : Site) : Prop where
  types : s.types.Extends s'.types
  modest : ∀ i < s'.func.insts.size, (s'.func.op i).Modest s'.types ∨
    i < s.func.insts.size ∧ s'.func.op i = s.func.op i

namespace AddsModest

variable {s s' s'' : Site}

theorem of_same (he : s.types.Extends s'.types)
    (hsize : s'.func.insts.size = s.func.insts.size) (hop : ∀ i, s'.func.op i = s.func.op i) :
    s.AddsModest s' :=
  ⟨he, fun i hi => .inr ⟨hsize ▸ hi, hop i⟩⟩

theorem trans (h : s.AddsModest s') (h' : s'.AddsModest s'') : s.AddsModest s'' := by
  refine ⟨h.types.trans h'.types, fun i hi => ?_⟩
  rcases h'.modest i hi with hm | ⟨hi, heq⟩
  · exact .inl hm
  · rw [heq]
    exact (h.modest i hi).imp_left fun hm => hm.extends h'.types

/-- An instruction is added. -/
theorem insert (he : s.types.Extends s'.types) {b : BlockId} {pos : Nat} {d : Draft}
    (hfunc : s'.func = (s.func.insertInst b pos d).2) (hd : d.op.Modest s.types) :
    s.AddsModest s' := by
  refine ⟨he, fun i hi => ?_⟩
  rw [hfunc, Func.op, Func.inst_insertInst]
  rw [hfunc, Func.insts_size_insertInst] at hi
  split
  · exact .inl (hd.extends he)
  · rename_i hne
    exact .inr ⟨Nat.lt_of_le_of_ne (Nat.le_of_lt_succ hi) hne, rfl⟩

end AddsModest

end Site

namespace Build

variable {Γ Γ' : Scope} {s s' : Site} {here there e : BlockId} {calls : Calls}
  {start stop : Operand} {name : String}

theorem addsModest_internTy {ty : Ty} {t : TyId} (h : internTy ty s = (.ok t, s')) :
    s.AddsModest s' := by
  obtain ⟨_, rfl⟩ := internTy_eq_ok.mp h
  exact .of_same (s.types.extends_insert ty) rfl fun _ => rfl

theorem addsModest_block {label : String} {b : BlockId} (h : block label s = (.ok b, s')) :
    s.AddsModest s' := by
  obtain ⟨_, rfl⟩ := block_eq_ok.mp h
  exact .of_same (.refl _) rfl fun _ => rfl

theorem addsModest_constant {sc : Scalar} {l : Literal} {v : Operand}
    (h : constant sc l s = (.ok v, s')) : s.AddsModest s' := by
  obtain ⟨_, rfl⟩ := constant_eq_ok.mp h
  exact .of_same (s.types.extends_intern _) rfl fun _ => rfl

theorem addsModest_emit {op : Op} {declared : Option TyId} {label : Option String} {i : InstId}
    (h : emit here op declared label s = (.ok i, s')) (hop : op.Modest s.types) :
    s.AddsModest s' := by
  obtain ⟨_, ty, _, _, rfl⟩ := emit_eq_ok h
  exact .insert (s.types.extends_insert ty) rfl hop

theorem addsModest_value {op : Op} {v : Operand} (h : value here op name s = (.ok v, s'))
    (hop : op.Modest s.types) : s.AddsModest s' := by
  obtain ⟨_, _, hemit⟩ := value_eq_ok.mp h
  exact addsModest_emit hemit hop

theorem addsModest_effect {op : Op} (h : effect here op s = (.ok (), s'))
    (hop : op.Modest s.types) : s.AddsModest s' := by
  obtain ⟨_, hemit⟩ := effect_eq_ok.mp h
  exact addsModest_emit hemit hop

theorem addsModest_phi {ty : TyId} {incoming : List (Operand × BlockId)} {v : Operand}
    (h : phi here ty incoming name s = (.ok v, s')) : s.AddsModest s' := by
  obtain ⟨_, rfl⟩ := phi_eq_ok h
  exact .insert (s.types.extends_insert _) rfl (Op.modest_phi _)

theorem addsModest_addIncoming {φ v : Operand} {pred : BlockId}
    (h : addIncoming φ v pred s = (.ok (), s')) : s.AddsModest s' := by
  obtain ⟨i, _, _, rfl⟩ := addIncoming_eq_ok h
  refine ⟨.refl _, fun j hj => ?_⟩
  have hj : j < s.func.insts.size := by simpa [Func.addIncoming] using hj
  rcases s.func.op_modifyOp_cases i j _ with heq | heq
  · dsimp only [Func.addIncoming]
    rw [heq]
    split
    · exact .inl (Op.modest_phi _)
    · exact .inr ⟨hj, rfl⟩
  · exact .inr ⟨hj, heq⟩

theorem addsModest_openLoop {l : OpenLoop}
    (h : openLoop here start stop name s = (.ok l, s')) : s.AddsModest s' := by
  obtain ⟨⟨ty, sc⟩, s₀, hbound, hrest⟩ := bind_eq_ok.mp h
  obtain ⟨rfl, -, -⟩ := boundScalar_eq_ok hbound
  obtain ⟨header, s₁, hheader, hrest₁⟩ := bind_eq_ok.mp hrest
  obtain ⟨body, s₂, hbody, hrest₂⟩ := bind_eq_ok.mp hrest₁
  obtain ⟨_, s₃, hbr, hrest₃⟩ := bind_eq_ok.mp hrest₂
  obtain ⟨φ, s₄, hphi, hrest₄⟩ := bind_eq_ok.mp hrest₃
  obtain ⟨_, s₅, htest, hl⟩ := bind_eq_ok.mp hrest₄
  obtain ⟨-, rfl⟩ := pure_eq_ok.mp hl
  exact ((((addsModest_block hheader).trans (addsModest_block hbody)).trans
    (addsModest_effect hbr ⟨nofun, nofun⟩)).trans (addsModest_phi hphi)).trans
    (addsModest_value htest ⟨nofun, nofun⟩)

theorem addsModest_closeLoop {l : OpenLoop} {r : BuiltLoop}
    (h : closeLoop l e s = (.ok r, s')) : s.AddsModest s' := by
  obtain ⟨_, s₁, hlatch, hrest⟩ := bind_eq_ok.mp h
  obtain ⟨_, s₂, hexit, hrest₁⟩ := bind_eq_ok.mp hrest
  obtain ⟨_, s₃, hleave, hrest₂⟩ := bind_eq_ok.mp hrest₁
  obtain ⟨_, s₄, hbranch, hrest₃⟩ := bind_eq_ok.mp hrest₂
  obtain ⟨_, s₅, hone, hrest₄⟩ := bind_eq_ok.mp hrest₃
  obtain ⟨_, s₆, hadd, hrest₅⟩ := bind_eq_ok.mp hrest₄
  obtain ⟨_, s₇, hentry, hrest₆⟩ := bind_eq_ok.mp hrest₅
  obtain ⟨_, s₈, hback, hr⟩ := bind_eq_ok.mp hrest₆
  obtain ⟨-, rfl⟩ := pure_eq_ok.mp hr
  have hblocks := (addsModest_block hlatch).trans (addsModest_block hexit)
  have htest := (hblocks.trans (addsModest_effect hleave ⟨nofun, nofun⟩)).trans
    (addsModest_effect hbranch ⟨nofun, nofun⟩)
  have hstep := (htest.trans (addsModest_constant hone)).trans
    (addsModest_value hadd ⟨nofun, nofun⟩)
  exact (hstep.trans (addsModest_addIncoming hentry)).trans
    (addsModest_effect hback ⟨nofun, nofun⟩)

end Build

/-- The types for stack slots in scope are those of small elements. -/
def Scope.Slots (Γ : Scope) (tt : TypeTable) : Prop :=
  ∀ t, .slot t ∈ Γ → ∃ sc, tt.shape t = .scalar sc ∧ sc.width ≤ 8

namespace Scope.Slots

variable {Γ : Scope}

theorem mono (h : Γ.Slots tt) (he : tt.Extends tt') : Γ.Slots tt' :=
  fun t ht => (h t ht).imp fun _ hs => ⟨he.shape_eq hs.1 nofun, hs.2⟩

theorem cons (h : Γ.Slots tt) {k : Known}
    (hk : ∀ t, k = .slot t → ∃ sc, tt.shape t = .scalar sc ∧ sc.width ≤ 8) :
    Slots (k :: Γ) tt := by
  intro t ht
  rcases List.mem_cons.mp ht with heq | ht
  · exact hk t heq.symm
  · exact h t ht

end Scope.Slots

namespace Build

variable {Γ Γ' : Scope} {s s' : Site} {here there : BlockId} {calls : Calls}

/-- Code in scope adds modest operations. -/
theorem Writes.addsModest (h : Writes Γ s here calls Γ' s' there) (hΓ : Γ.Slots s.types) :
    s.AddsModest s' := by
  induction h with
  | done => exact .of_same (.refl _) rfl fun _ => rfl
  | param k _ ih => exact ih (hΓ.cons nofun)
  | type _ h _ ih =>
    have hadds := addsModest_internTy h
    exact hadds.trans (ih ((hΓ.mono hadds.types).cons nofun))
  | constant h _ ih =>
    have hadds := addsModest_constant h
    exact hadds.trans (ih ((hΓ.mono hadds.types).cons nofun))
  | inst _ _ hop h _ ih =>
    have hadds := addsModest_emit h
      ⟨hop.uncalled, fun t a halloc => hΓ t (hop.allocated t a halloc).2⟩
    exact hadds.trans (ih ((hΓ.mono hadds.types).cons nofun))
  | loop _ _ h hopen hbody _ _ ihinner ih =>
    have hopened := addsModest_openLoop hopen
    have hinner := hopened.trans (ihinner ((hΓ.mono hopened.types).cons nofun))
    have hclosed := hinner.trans (addsModest_closeLoop (closeLoop_of_loop h hopen hbody))
    exact hclosed.trans (ih (hΓ.mono hclosed.types))

theorem Written.addsModest (h : Written Γ s s') (hΓ : Γ.Slots s.types) : s.AddsModest s' := by
  induction h with
  | type _ h _ ih =>
    have hadds := addsModest_internTy h
    exact hadds.trans (ih ((hΓ.mono hadds.types).cons nofun))
  | slot h hw _ ih =>
    refine ih (hΓ.cons fun t ht => ?_)
    cases ht
    exact ⟨_, h, hw⟩
  | entry hentry hcode _ hret =>
    have hblock := addsModest_block hentry
    exact (hblock.trans (hcode.addsModest (hΓ.mono hblock.types))).trans
      (addsModest_effect hret ⟨nofun, nofun⟩)

/-! ## Whole functions -/

/-- Code in scope that was built from a declaration makes a whole function. -/
theorem Written.exists_whole (h : Written Γ s s')
    (hd : s.func = .declare s.func.name s.func.params s.func.ret) :
    ∃ calls, Whole calls s'.func := by
  induction h with
  | type _ h _ ih =>
    obtain ⟨-, rfl⟩ := internTy_eq_ok.mp h
    exact ih hd
  | slot _ _ _ ih => exact ih hd
  | @entry Γ Γ' s _ _ _ _ _ _ calls _ hentry hcode _ hret =>
    have hs : s = ⟨s.types, .declare s.func.name s.func.params s.func.ret⟩ := by rw [← hd]
    exact ⟨calls, .close (hs ▸ hentry) hcode.emits hret⟩

theorem Whole.defined {f : Func} (h : Whole calls f) : f.isDeclaration = false := by
  obtain ⟨there, -, hlayout, -⟩ := h.exists_laid
  exact isDeclaration_of_live (hlayout ▸ List.mem_range.mpr (Nat.lt_succ_self there))

end Build

/-! ## Generation -/

namespace Kernel

variable {p : Program} {name : String} {operands : List TensorOperand} {code : Build Unit}
  {report : Func → String} {id : FuncId} {f : Func} {ok : List Datum → Memory → Prop}

/-- A function was added behind those of a program. -/
structure Added (p q : Program) (id : FuncId) (f : Func) : Prop where
  id_eq : id = p.funcs.size
  funcs_eq : q.funcs = p.funcs.push f
  types : p.types.Extends q.types
  distinct : q.types.Distinct
  closed : q.types.Closed
  sturdy : f.Sturdy q.types

theorem Added.func?_eq {q : Program} (h : Added p q id f) : q.func? id = some f := by
  rw [Program.func?, h.funcs_eq, h.id_eq, Array.getElem?_push_size]

/-- Code in scope is generated as a function that passes can rely on. -/
theorem added_generate (hcode : Build.Makes code []) (hdist : p.types.Distinct)
    (hclosed : p.types.Closed) (htys : ∀ o ∈ operands, o.ty < p.types.size)
    (hid : (generate p name operands code report).result = .ok id) :
    ∃ s name', code (blank p name operands) = (.ok (), s) ∧
      Added p (generate p name operands code report).program id { s.func with name := name' } := by
  obtain ⟨s, hrun⟩ : ∃ s, code (blank p name operands) = (.ok (), s) := by
    obtain ⟨s, -, hrun, -⟩ := exists_of_generate hid
    exact ⟨s, hrun⟩
  rw [generate_of_ok hrun] at hid ⊢
  have hfresh : (blank p name operands).Fresh := fresh_blank hdist hclosed htys
  have hwritten := hcode.written hrun
  have hΓ : Scope.Typed [] (blank p name operands) := fun t ht => by cases ht
  have hedits := hwritten.edits hfresh.built hΓ
  have hbuilt := hfresh.built.edits hedits
  have hlinked : s.func.Linked := hedits.linked (hfresh.declared ▸ .declare _ _ _)
  have hverify := hwritten.verify hfresh hΓ fun i hi => by cases hi
  obtain ⟨calls, hwhole⟩ := hwritten.exists_whole hfresh.declared
  have hmodest : ∀ i < s.func.insts.size, (s.func.op i).Modest s.types := fun i hi =>
    ((hwritten.addsModest fun t ht => by cases ht).modest i hi).resolve_right fun h =>
      absurd h.1 (Nat.not_lt_zero i)
  refine ⟨s, _, hrun, (Except.ok.inj hid).symm, rfl, (p.types.extends_intern .void).trans
    hedits.keepsTypes.types, hbuilt.distinct, hbuilt.closed, hwhole.defined,
    sound_of_verify (verify_rename hverify _) hlinked.usesListed hbuilt.tys_lt,
    hlinked.congr rfl rfl fun _ => rfl, fun b _ i hi => ?_, ?_⟩
  · exact (hmodest i (hlinked.lt_of_mem hi)).uncalled
  · refine Func.padStuck_of_modest fun i hi => hmodest i ?_
    exact hlinked.lt_of_mem_liveInsts hi

/-! ## Tame functions -/

/-- Every preset pipeline, and with it any configuration of the vectorizer, finishes the function and
keeps its runs from some arguments and memories, also when types were interned before. -/
def Tame (tt : TypeTable) (f : Func) (ok : List Datum → Memory → Prop) : Prop :=
  ∀ tt', tt.Extends tt' → tt'.Closed → ∀ pl : Pipeline, pl.IsPreset →
    pl.Finishes tt' f (f.KeepsRuns tt' ok)

theorem Tame.mono (h : Tame tt f ok) (he : tt.Extends tt') : Tame tt' f ok :=
  fun tt'' he' => h tt'' (he.trans he')

/-- A nest of loops woven together is tame. -/
theorem tame_of_interwoven (h : f.Sturdy tt) (hc : tt.Closed) {b : BlockId} (hi : f.Interwoven b) :
    Tame tt f ok := by
  intro tt' he hc' pl hpl
  have h' := h.extends hc he
  rcases hpl.eq with rfl | rfl | ⟨config, rfl⟩
  · exact h'.finishes_of_idle hc' nofun
  · exact h'.finishes_interwoven hc' hi rfl (by simp)
  · exact h'.finishes_interwoven hc' hi rfl (by simp)

/-- Woven code is generated as a tame function. -/
theorem tame_generate (hcode : Build.Makes code [])
    (hforms : Build.Forms code fun calls f => ∃ outer d, calls.Nest outer d ∧ f.Woven outer d)
    (hdist : p.types.Distinct) (hclosed : p.types.Closed)
    (htys : ∀ o ∈ operands, o.ty < p.types.size)
    (hid : (generate p name operands code report).result = .ok id) :
    ∃ f, Added p (generate p name operands code report).program id f ∧
      Tame (generate p name operands code report).program.types f ok := by
  obtain ⟨s, name', hrun, hadded⟩ := added_generate hcode hdist hclosed htys hid
  obtain ⟨calls, hwhole, outer, d, hn, hw⟩ := hforms.outcome hrun
  have hl : s.func.Linked := hadded.sturdy.linked.congr rfl rfl fun _ => rfl
  exact ⟨_, hadded, tame_of_interwoven hadded.sturdy hadded.closed
    ((hwhole.interwoven hl hn hw).rename name')⟩

section

variable (hdist : p.types.Distinct) (hclosed : p.types.Closed)
include hdist hclosed

theorem tame_maxPool2d {input output : TyId} {c : MaxPool2d}
    (hid : (maxPool2d p input output c).result = .ok id) :
    ∃ f, Added p (maxPool2d p input output c).program id f ∧
      Tame (maxPool2d p input output c).program.types f ok := by
  unfold maxPool2d at hid ⊢
  cases hplan : c.plan p.types input output with
  | error e =>
    rw [hplan] at hid
    cases hid
  | ok plan =>
    rw [hplan] at hid
    obtain ⟨-, -, hin, hout, -⟩ := MaxPool2d.plan_eq_ok hplan
    refine tame_generate (MaxPool2d.written_code plan) (MaxPool2d.forms_code plan) hdist hclosed ?_ hid
    simpa using ⟨TensorOperand.ty_lt_of_classify hin, TensorOperand.ty_lt_of_classify hout⟩

theorem tame_conv2d {input weight output : TyId} {c : Conv2d}
    (hid : (conv2d p input weight output c).result = .ok id) :
    ∃ f, Added p (conv2d p input weight output c).program id f ∧
      Tame (conv2d p input weight output c).program.types f ok := by
  unfold conv2d at hid ⊢
  cases hplan : c.plan p.types input weight output with
  | error e =>
    rw [hplan] at hid
    cases hid
  | ok plan =>
    rw [hplan] at hid
    obtain ⟨-, hin, hweight, hout, -⟩ := Conv2d.plan_eq_ok hplan
    refine tame_generate (Conv2d.written_code plan) (Conv2d.forms_code plan) hdist hclosed ?_ hid
    simpa using ⟨TensorOperand.ty_lt_of_classify hin, TensorOperand.ty_lt_of_classify hweight,
      TensorOperand.ty_lt_of_classify hout⟩

end

end Kernel

end LoopNest
