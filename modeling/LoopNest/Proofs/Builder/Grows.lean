import LoopNest.Kernel.Loop
import LoopNest.Proofs.Func.Grow
import LoopNest.Proofs.Ty.Extends

/-!
# Growth of a site

Construction only ever adds to a site.  Instructions go to the end of a block, a phi may get
further entries, and only a block that is new gets a phi.  A site then `Grows`: everything
in it keeps its number and its meaning, and the code of a block is followed by more code.
So what was built at one time can be looked up in the finished function.

Code is emitted into one block after the other.  `Site.Continues` says that a site grows from one
block to another and leaves all other blocks alone.
-/

namespace LoopNest

/-! ## Growth of functions -/

/-- A phi may get further entries; every other operation stays. -/
inductive Op.Widens : Op → Op → Prop where
  /-- Nothing changes. -/
  | refl (op : Op) : Widens op op
  /-- A phi with entries behind the old ones. -/
  | phi (incoming more : List (Operand × BlockId)) :
      Widens (.phi incoming) (.phi (incoming ++ more))

namespace Op.Widens

variable {o o' o'' : Op}

theorem trans (h : Widens o o') (h' : Widens o' o'') : Widens o o'' := by
  cases h with
  | refl => exact h'
  | phi incoming more =>
    cases h' with
    | refl => exact .phi incoming more
    | phi _ more' => exact List.append_assoc .. ▸ .phi incoming (more ++ more')

theorem isPhi_eq (h : Widens o o') : o'.isPhi = o.isPhi := by
  cases h <;> rfl

theorem eq_of_not_isPhi (h : Widens o o') (ho : o.isPhi = false) : o' = o := by
  cases h with
  | refl => rfl
  | phi => cases ho

end Op.Widens

namespace Func

/-- Every listed instruction exists. -/
def Listed (f : Func) : Prop := ∀ b, ∀ i ∈ f.body b, i < f.insts.size

/-- Everything in a function is also in another one, under the same number. -/
structure Within (f g : Func) : Prop where
  params_eq : g.params = f.params
  ret_eq : g.ret = f.ret
  insts_le : f.insts.size ≤ g.insts.size
  blocks_le : f.blocks.size ≤ g.blocks.size
  ty_eq : ∀ i < f.insts.size, (g.inst i).ty = (f.inst i).ty
  name_eq : ∀ i < f.insts.size, (g.inst i).name = (f.inst i).name
  widens : ∀ i < f.insts.size, (f.op i).Widens (g.op i)
  constant_eq : ∀ (c : Nat) x, f.constants[c]? = some x → g.constants[c]? = some x
  isPrefix_body : ∀ b, f.body b <+: g.body b
  layout_prefix : f.layout <+: g.layout

/-- A function with more in it.  Only a new block may get a phi. -/
structure Grows (f g : Func) : Prop extends Within f g where
  phis_eq : ∀ b < f.blocks.size, g.phis b = f.phis b

namespace Within

variable {f g h : Func}

theorem refl (f : Func) : f.Within f where
  params_eq := rfl
  ret_eq := rfl
  insts_le := Nat.le_refl _
  blocks_le := Nat.le_refl _
  ty_eq _ _ := rfl
  name_eq _ _ := rfl
  widens _ _ := .refl _
  constant_eq _ _ h := h
  isPrefix_body _ := List.prefix_refl _
  layout_prefix := List.prefix_refl _

theorem trans (hfg : f.Within g) (hgh : g.Within h) : f.Within h where
  params_eq := hgh.params_eq.trans hfg.params_eq
  ret_eq := hgh.ret_eq.trans hfg.ret_eq
  insts_le := Nat.le_trans hfg.insts_le hgh.insts_le
  blocks_le := Nat.le_trans hfg.blocks_le hgh.blocks_le
  ty_eq i hi := (hgh.ty_eq i (Nat.lt_of_lt_of_le hi hfg.insts_le)).trans (hfg.ty_eq i hi)
  name_eq i hi := (hgh.name_eq i (Nat.lt_of_lt_of_le hi hfg.insts_le)).trans (hfg.name_eq i hi)
  widens i hi := (hfg.widens i hi).trans (hgh.widens i (Nat.lt_of_lt_of_le hi hfg.insts_le))
  constant_eq c x hx := hgh.constant_eq c x (hfg.constant_eq c x hx)
  isPrefix_body b := (hfg.isPrefix_body b).trans (hgh.isPrefix_body b)
  layout_prefix := hfg.layout_prefix.trans hgh.layout_prefix

theorem keepsTypes (hfg : f.Within g) : f.KeepsTypes g :=
  keepsTypes_of hfg.params_eq hfg.ret_eq hfg.insts_le hfg.ty_eq hfg.constant_eq

theorem op_eq (hfg : f.Within g) {i : InstId} (hi : i < f.insts.size)
    (ho : (f.op i).isPhi = false) : g.op i = f.op i :=
  (hfg.widens i hi).eq_of_not_isPhi ho

/-- What a phi takes from a block stays. -/
theorem incoming?_eq (hfg : f.Within g) {i : InstId} (hi : i < f.insts.size) {b : BlockId}
    {v : Operand} (hv : f.incoming? i b = some v) : g.incoming? i b = some v := by
  have hw := hfg.widens i hi
  unfold incoming? at hv ⊢
  generalize f.op i = o at hv hw
  generalize g.op i = o' at hw ⊢
  cases hw with
  | refl => exact hv
  | phi incoming more =>
    obtain ⟨e, he, rfl⟩ := Option.map_eq_some_iff.mp hv
    simp [List.find?_append, he]

/-- The code of a block is followed by more. -/
theorem drop_body (hfg : f.Within g) (b : BlockId) :
    ∃ rest, g.body b = f.body b ++ rest ∧ (g.body b).drop (f.body b).length = rest := by
  obtain ⟨rest, hrest⟩ := hfg.isPrefix_body b
  exact ⟨rest, hrest.symm, by rw [← hrest, List.drop_left]⟩

end Within

namespace Grows

variable {f g h : Func}

theorem refl (f : Func) : f.Grows f := ⟨.refl f, fun _ _ => rfl⟩

theorem trans (hfg : f.Grows g) (hgh : g.Grows h) : f.Grows h :=
  ⟨hfg.toWithin.trans hgh.toWithin, fun b hb =>
    (hgh.phis_eq b (Nat.lt_of_lt_of_le hb hfg.blocks_le)).trans (hfg.phis_eq b hb)⟩

end Grows

theorem body_of_le {f : Func} {b : BlockId} (h : f.blocks.size ≤ b) : f.body b = [] := by
  simp [body, block, Array.getElem?_eq_none h, Block.fresh]

theorem op_of_le {f : Func} {i : InstId} (h : f.insts.size ≤ i) : f.op i = .alloca 0 0 := by
  rw [op, inst, Array.getElem?_eq_none h]
  rfl

section

variable {f : Func} {b : BlockId}

/-- A new instruction at the end of a block. -/
theorem grows_appendInst (hb : b < f.blocks.size) (d : Draft) (hd : d.op.isPhi = false) :
    f.Grows (f.appendInst b d).2 where
  params_eq := rfl
  ret_eq := rfl
  insts_le := by simp
  blocks_le := by simp
  ty_eq i hi := by simp [Nat.ne_of_lt hi]
  name_eq i hi := by simp [Nat.ne_of_lt hi]
  widens i hi := by
    rw [op, op, inst_appendInst, if_neg (Nat.ne_of_lt hi)]
    exact .refl _
  constant_eq _ _ h := h
  isPrefix_body c := by
    rw [f.body_appendInst d hb]
    split
    · rename_i hc
      exact hc ▸ List.prefix_append _ _
    · exact List.prefix_refl _
  phis_eq c _ := by
    have hphi : ∀ i, ((f.appendInst b d).2.op i).isPhi = (f.op i).isPhi := by
      intro i
      rw [op, inst_appendInst]
      split
      · rename_i hi
        rw [hi, op_of_le (Nat.le_refl _)]
        exact hd
      · rfl
    rw [phis, f.body_appendInst d hb]
    simp only [hphi]
    split
    · rename_i hc
      have hnew : [f.insts.size].takeWhile (fun i => (f.op i).isPhi) = [] := by
        simp [op_of_le, Op.isPhi]
      rw [hc, phis, List.takeWhile_append, hnew, List.append_nil]
      split
      · rename_i hlen
        exact ((List.takeWhile_prefix _).eq_of_length hlen).symm
      · rfl
    · rfl
  layout_prefix := List.prefix_refl _

theorem listed_insertInst (hf : f.Listed) (hb : b < f.blocks.size) (pos : Nat) (d : Draft) :
    (f.insertInst b pos d).2.Listed := by
  intro c i hi
  rw [insts_size_insertInst]
  rw [f.body_insertInst pos d hb] at hi
  split at hi
  · rcases List.mem_append.mp hi with hi | hi
    · exact Nat.lt_succ_of_lt (hf b i (List.mem_of_mem_take hi))
    · rcases List.mem_cons.mp hi with rfl | hi
      · exact Nat.lt_succ_self _
      · exact Nat.lt_succ_of_lt (hf b i (List.mem_of_mem_drop hi))
  · exact Nat.lt_succ_of_lt (hf c i hi)

/-- Anything may happen to a block that is empty. -/
theorem Within.insertInst {f₀ : Func} (h : f₀.Within f) (hempty : f₀.body b = [])
    (hb : b < f.blocks.size) (pos : Nat) (d : Draft) : f₀.Within (f.insertInst b pos d).2 := by
  have hinst : ∀ i < f₀.insts.size, (f.insertInst b pos d).2.inst i = f.inst i := by
    intro i hi
    rw [inst_insertInst, if_neg (Nat.ne_of_lt (Nat.lt_of_lt_of_le hi h.insts_le))]
  exact {
    params_eq := h.params_eq
    ret_eq := h.ret_eq
    insts_le := by
      rw [insts_size_insertInst]
      exact Nat.le_succ_of_le h.insts_le
    blocks_le := by
      rw [blocks_size_insertInst]
      exact h.blocks_le
    ty_eq := fun i hi => (congrArg Inst.ty (hinst i hi)).trans (h.ty_eq i hi)
    name_eq := fun i hi => (congrArg Inst.name (hinst i hi)).trans (h.name_eq i hi)
    widens := fun i hi => by
      rw [op, op, hinst i hi]
      exact h.widens i hi
    constant_eq := h.constant_eq
    isPrefix_body := fun c => by
      rw [f.body_insertInst pos d hb]
      split
      · rename_i hc
        rw [hc, hempty]
        exact List.nil_prefix
      · exact h.isPrefix_body c
    layout_prefix := h.layout_prefix }

/-- Anything may happen to a block that is not there yet. -/
theorem Grows.insertInst {f₀ : Func} (h : f₀.Grows f) (hf : f.Listed) (hnew : f₀.blocks.size ≤ b)
    (hb : b < f.blocks.size) (pos : Nat) (d : Draft) : f₀.Grows (f.insertInst b pos d).2 := by
  refine ⟨h.toWithin.insertInst (body_of_le hnew) hb pos d, fun c hc => ?_⟩
  have hbody : (f.insertInst b pos d).2.body c = f.body c := by
    rw [f.body_insertInst pos d hb, if_neg (Nat.ne_of_lt (Nat.lt_of_lt_of_le hc hnew))]
  rw [← h.phis_eq c hc]
  refine phis_congr hbody fun i hi => ?_
  rw [op, inst_insertInst, if_neg (Nat.ne_of_lt (hf c i hi)), op]

/-! ## Blocks, constants and entries of phis -/

section

variable (f) (name : String)

@[simp] theorem fst_addBlock : (f.addBlock name).1 = f.blocks.size := rfl

@[simp] theorem insts_addBlock : (f.addBlock name).2.insts = f.insts := rfl

@[simp] theorem blocks_size_addBlock : (f.addBlock name).2.blocks.size = f.blocks.size + 1 :=
  Array.size_push _

@[simp] theorem op_addBlock (i : InstId) : (f.addBlock name).2.op i = f.op i := rfl

theorem layout_addBlock : (f.addBlock name).2.layout = f.layout ++ [f.blocks.size] := by
  simp [addBlock, addBlockAt, placeAt]

@[simp] theorem body_addBlock (c : BlockId) : (f.addBlock name).2.body c = f.body c := by
  simp only [body, block, addBlock, addBlockAt, Array.getElem?_push]
  split
  · rename_i hc
    simp [hc, Block.fresh]
  · rfl

theorem Listed.addBlock {f : Func} (h : f.Listed) (name : String) : (f.addBlock name).2.Listed := by
  intro b i hi
  rw [body_addBlock] at hi
  exact h b i hi

theorem grows_addBlock : f.Grows (f.addBlock name).2 where
  params_eq := rfl
  ret_eq := rfl
  insts_le := Nat.le_refl _
  blocks_le := by simp
  ty_eq _ _ := rfl
  name_eq _ _ := rfl
  widens _ _ := .refl _
  constant_eq _ _ h := h
  isPrefix_body c := (f.body_addBlock name c).symm ▸ List.prefix_refl _
  phis_eq c _ := phis_congr (f.body_addBlock name c) fun _ _ => rfl
  layout_prefix := by
    rw [layout_addBlock]
    exact List.prefix_append _ _

theorem grows_rename : f.Grows { f with name } where
  params_eq := rfl
  ret_eq := rfl
  insts_le := Nat.le_refl _
  blocks_le := Nat.le_refl _
  ty_eq _ _ := rfl
  name_eq _ _ := rfl
  widens _ _ := .refl _
  constant_eq _ _ h := h
  isPrefix_body _ := List.prefix_refl _
  phis_eq _ _ := rfl
  layout_prefix := List.prefix_refl _

theorem grows_addConstant (t : TyId) (l : Literal) : f.Grows (f.addConstant t l).2 where
  params_eq := rfl
  ret_eq := rfl
  insts_le := Nat.le_refl _
  blocks_le := Nat.le_refl _
  ty_eq _ _ := rfl
  name_eq _ _ := rfl
  widens _ _ := .refl _
  constant_eq := (f.below_addConstant t l).constant_eq
  isPrefix_body _ := List.prefix_refl _
  phis_eq _ _ := rfl
  layout_prefix := List.prefix_refl _

end

theorem widens_addIncoming (i : InstId) (v : Operand) (p : BlockId) (j : InstId) :
    (f.op j).Widens ((f.addIncoming i v p).op j) := by
  rw [op, addIncoming, modifyOp, op, inst_modifyInst]
  split
  · dsimp only
    split
    · rename_i hop
      rw [hop]
      exact .phi _ _
    · exact .refl _
  · exact .refl _

theorem grows_addIncoming (i : InstId) (v : Operand) (p : BlockId) :
    f.Grows (f.addIncoming i v p) where
  params_eq := rfl
  ret_eq := rfl
  insts_le := by simp [addIncoming]
  blocks_le := Nat.le_refl _
  ty_eq j _ := f.ty_modifyOp i j _
  name_eq j _ := by
    rw [addIncoming, modifyOp, inst_modifyInst]
    split <;> rfl
  widens j _ := widens_addIncoming i v p j
  constant_eq _ _ h := h
  isPrefix_body _ := List.prefix_refl _
  phis_eq _ _ := phis_congr rfl fun j _ => (widens_addIncoming i v p j).isPhi_eq
  layout_prefix := List.prefix_refl _

end

end Func

/-! ## Growth of sites -/

namespace Site

/-- A site with more in it. -/
structure Grows (s s' : Site) : Prop where
  types : s.types.Extends s'.types
  func : s.func.Grows s'.func

/-- Everything in a site is also in another one. -/
structure Within (s s' : Site) : Prop where
  types : s.types.Extends s'.types
  func : s.func.Within s'.func

variable {s s' s'' : Site}

theorem Within.trans (h : s.Within s') (h' : s'.Within s'') : s.Within s'' :=
  ⟨h.types.trans h'.types, h.func.trans h'.func⟩

theorem Grows.within (h : s.Grows s') : s.Within s' := ⟨h.types, h.func.toWithin⟩

theorem Grows.refl (s : Site) : s.Grows s := ⟨.refl _, .refl _⟩

theorem Grows.trans (h : s.Grows s') (h' : s'.Grows s'') : s.Grows s'' :=
  ⟨h.types.trans h'.types, h.func.trans h'.func⟩

/-- Code can be emitted into a block. -/
structure Ready (s : Site) (here : BlockId) : Prop where
  listed : s.func.Listed
  lt : here < s.func.blocks.size

/-- The site grows in one block and in new ones, and goes on in that block or in a new one.  What
was emitted before stays. -/
structure Continues (s s' : Site) (here there : BlockId) : Prop where
  grows : s.Grows s'
  ready : s'.Ready there
  elsewhere : ∀ b < s.func.blocks.size, b ≠ here → s'.func.body b = s.func.body b
  op_eq : ∀ i < s.func.insts.size, s'.func.op i = s.func.op i
  there_eq_or_le : there = here ∨ s.func.blocks.size ≤ there

namespace Continues

variable {a b c : BlockId}

theorem refl (h : s.Ready a) : s.Continues s a a :=
  ⟨.refl s, h, fun _ _ _ => rfl, fun _ _ => rfl, .inl rfl⟩

theorem trans (h : s.Continues s' a b) (h' : s'.Continues s'' b c) : s.Continues s'' a c where
  grows := h.grows.trans h'.grows
  ready := h'.ready
  elsewhere d hd hne := by
    have hdb : d ≠ b := by
      rcases h.there_eq_or_le with rfl | hle
      · exact hne
      · exact Nat.ne_of_lt (Nat.lt_of_lt_of_le hd hle)
    rw [h'.elsewhere d (Nat.lt_of_lt_of_le hd h.grows.func.blocks_le) hdb, h.elsewhere d hd hne]
  op_eq i hi := (h'.op_eq i (Nat.lt_of_lt_of_le hi h.grows.func.insts_le)).trans (h.op_eq i hi)
  there_eq_or_le := by
    have := h.grows.func.blocks_le
    rcases h'.there_eq_or_le with rfl | hle
    · exact h.there_eq_or_le
    · exact .inr (Nat.le_trans this hle)

end Continues

end Site

namespace Build

variable {α β : Type} {s s' : Site}

/-! ## Outcomes of steps -/

theorem bind_eq (x : Build α) (k : α → Build β) (s : Site) :
    (x >>= k) s = match x s with
      | (.ok a, s) => k a s
      | (.error e, s) => (.error e, s) := by
  show (match x s with
    | (a, s) => (ExceptT.bindCont k a) s) = _
  rcases x s with ⟨r, t⟩
  cases r <;> rfl

theorem bind_eq_ok {x : Build α} {k : α → Build β} {b : β} :
    (x >>= k) s = (.ok b, s') ↔ ∃ a t, x s = (.ok a, t) ∧ k a t = (.ok b, s') := by
  rw [bind_eq]
  rcases x s with ⟨r, t⟩
  cases r with
  | ok a =>
    constructor
    · exact fun h => ⟨a, t, rfl, h⟩
    · rintro ⟨a, t, heq, h⟩
      cases heq
      exact h
  | error e =>
    constructor
    · exact fun h => by cases (Prod.mk.inj h).1
    · rintro ⟨a, t, heq, _⟩
      cases (Prod.mk.inj heq).1

theorem pure_eq_ok {a b : α} : (pure a : Build α) s = (.ok b, s') ↔ b = a ∧ s' = s := by
  constructor
  · intro h
    exact ⟨(Except.ok.inj (Prod.mk.inj h).1).symm, (Prod.mk.inj h).2.symm⟩
  · rintro ⟨rfl, rfl⟩
    rfl

theorem check_eq_ok {r : Except BuildError α} {a : α} :
    check r s = (.ok a, s') ↔ r = .ok a ∧ s' = s := by
  constructor
  · intro h
    exact ⟨(Prod.mk.inj h).1, (Prod.mk.inj h).2.symm⟩
  · rintro ⟨rfl, rfl⟩
    rfl

theorem site_bind {k : Site → Build β} : (site >>= k) s = k s s := bind_eq site k s

theorem edit_eq_ok {g : Func → α × Func} {a : α} :
    edit g s = (.ok a, s') ↔ a = (g s.func).1 ∧ s' = ⟨s.types, (g s.func).2⟩ :=
  pure_eq_ok (s := ⟨s.types, (g s.func).2⟩)

theorem internTy_eq_ok {ty : Ty} {t : TyId} : internTy ty s = (.ok t, s') ↔
    t = (s.types.insert ty).1 ∧ s' = ⟨(s.types.insert ty).2, s.func⟩ :=
  pure_eq_ok (s := ⟨(s.types.insert ty).2, s.func⟩)

theorem block_eq_ok {name : String} {b : BlockId} : block name s = (.ok b, s') ↔
    b = s.func.blocks.size ∧ s' = ⟨s.types, (s.func.addBlock name).2⟩ := edit_eq_ok

theorem continues_of_block {name : String} {b here : BlockId} (hs : s.Ready here)
    (h : block name s = (.ok b, s')) : b = s.func.blocks.size ∧
      s'.func.blocks.size = s.func.blocks.size + 1 ∧ (∀ c, s'.func.body c = s.func.body c) ∧
      s.Continues s' here here := by
  obtain ⟨rfl, rfl⟩ := block_eq_ok.mp h
  have hsize := s.func.blocks_size_addBlock name
  have hbody := s.func.body_addBlock name
  exact ⟨rfl, hsize, hbody, ⟨.refl _, s.func.grows_addBlock name⟩,
    ⟨hs.listed.addBlock name, hsize ▸ Nat.lt_succ_of_lt hs.lt⟩, fun c _ _ => hbody c,
    fun _ _ => rfl, .inl rfl⟩

theorem operandTy_eq_ok {v : Operand} {t : TyId} :
    operandTy v s = (.ok t, s') ↔ s.func.operandTy v = .ok t ∧ s' = s := by
  rw [operandTy, site_bind]
  exact check_eq_ok

theorem param_eq_ok {k : Nat} {v : Operand} (h : param k s = (.ok v, s')) :
    v = .param k ∧ s' = s := by
  obtain ⟨_, _, ht, hv⟩ := bind_eq_ok.mp h
  obtain ⟨_, rfl⟩ := operandTy_eq_ok.mp ht
  exact pure_eq_ok.mp hv

/-- An instruction is appended to an open block with the type that its operands give, or nothing
happens. -/
theorem emit_cases (here : BlockId) (op : Op) (declared : Option TyId) (name : Option String)
    (s : Site) : (∃ e, emit here op declared name s = (.error e, s)) ∨
    ∃ ty, here < s.func.blocks.size ∧ s.func.terminator? here = none ∧
      Typing.resultTy s.types s.func op declared = .ok ty ∧
      emit here op declared name s = (.ok s.func.insts.size, ⟨(s.types.insert ty).2,
        (s.func.appendInst here ⟨op, (s.types.insert ty).1, name⟩).2⟩) := by
  rw [emit, site_bind]
  cases hk : s.func.blocks[here]? with
  | none => exact .inl ⟨_, rfl⟩
  | some k =>
    dsimp only
    by_cases ht : (s.func.terminator? here).isSome
    · rw [if_pos ht]
      exact .inl ⟨_, rfl⟩
    · rw [if_neg ht]
      cases hty : Typing.resultTy s.types s.func op declared with
      | error e => exact .inl ⟨e, rfl⟩
      | ok ty =>
        have hopen : s.func.terminator? here = none := by simpa using ht
        exact .inr ⟨ty, (Array.getElem?_eq_some_iff.mp hk).1, hopen, rfl, rfl⟩

theorem emit_eq_ok {here : BlockId} {op : Op} {declared : Option TyId} {name : Option String}
    {i : InstId} (h : emit here op declared name s = (.ok i, s')) :
    here < s.func.blocks.size ∧ ∃ ty, Typing.resultTy s.types s.func op declared = .ok ty ∧
      i = s.func.insts.size ∧ s' = ⟨(s.types.insert ty).2,
        (s.func.appendInst here ⟨op, (s.types.insert ty).1, name⟩).2⟩ := by
  rcases emit_cases here op declared name s with ⟨e, he⟩ | ⟨ty, hb, _, hty, he⟩
  · cases (Prod.mk.inj (he.symm.trans h)).1
  · cases he.symm.trans h
    exact ⟨hb, ty, hty, rfl, rfl⟩

/-- An emitted instruction comes last in its block. -/
theorem body_of_emit {here : BlockId} {op : Op} {declared : Option TyId} {name : Option String}
    {i : InstId} (h : emit here op declared name s = (.ok i, s')) : i = s.func.insts.size ∧
      i < s'.func.insts.size ∧ s'.func.op i = op ∧
      ∀ b, s'.func.body b = if b = here then s.func.body here ++ [i] else s.func.body b := by
  obtain ⟨hb, ty, _, rfl, rfl⟩ := emit_eq_ok h
  refine ⟨rfl, ?_, ?_, fun b => Func.body_appendInst _ _ hb b⟩
  · exact (Func.insts_size_appendInst _ _ _).symm ▸ Nat.lt_succ_self _
  · rw [Func.op, Func.inst_appendInst, if_pos rfl]

theorem body_of_effect {here : BlockId} {op : Op} {u : Unit}
    (h : effect here op s = (.ok u, s')) : ∃ i, i = s.func.insts.size ∧
      i < s'.func.insts.size ∧ s'.func.op i = op ∧
      ∀ b, s'.func.body b = if b = here then s.func.body here ++ [i] else s.func.body b := by
  obtain ⟨i, _, hi, hrest⟩ := bind_eq_ok.mp h
  obtain ⟨_, rfl⟩ := pure_eq_ok.mp hrest
  exact ⟨i, body_of_emit hi⟩

theorem continues_of_emit {here : BlockId} {op : Op} {declared : Option TyId} {name : Option String}
    {i : InstId} (hop : op.isPhi = false) (hs : s.func.Listed)
    (h : emit here op declared name s = (.ok i, s')) : s.Continues s' here here := by
  obtain ⟨hb, ty, _, rfl, rfl⟩ := emit_eq_ok h
  refine ⟨⟨s.types.extends_insert ty, Func.grows_appendInst hb _ hop⟩,
    ⟨Func.listed_insertInst hs hb _ _, ?_⟩, fun b _ hne => ?_, fun i hi => ?_, .inl rfl⟩
  · rw [Func.blocks_size_appendInst]
    exact hb
  · rw [Func.body_appendInst _ _ hb, if_neg hne]
  · rw [Func.op, Func.inst_appendInst, if_neg (Nat.ne_of_lt hi), Func.op]

theorem continues_of_effect {here : BlockId} {op : Op} {u : Unit} (hop : op.isPhi = false)
    (hs : s.func.Listed) (h : effect here op s = (.ok u, s')) : s.Continues s' here here := by
  obtain ⟨i, _, hi, hrest⟩ := bind_eq_ok.mp h
  obtain ⟨_, rfl⟩ := pure_eq_ok.mp hrest
  exact continues_of_emit hop hs hi

theorem blocks_size_of_emit {here : BlockId} {op : Op} {declared : Option TyId}
    {name : Option String} {i : InstId} (h : emit here op declared name s = (.ok i, s')) :
    s'.func.blocks.size = s.func.blocks.size := by
  obtain ⟨_, _, _, _, rfl⟩ := emit_eq_ok h
  exact Func.blocks_size_appendInst _ _ _

theorem blocks_size_of_effect {here : BlockId} {op : Op} {u : Unit}
    (h : effect here op s = (.ok u, s')) : s'.func.blocks.size = s.func.blocks.size := by
  obtain ⟨i, _, hi, hrest⟩ := bind_eq_ok.mp h
  obtain ⟨_, rfl⟩ := pure_eq_ok.mp hrest
  exact blocks_size_of_emit hi

theorem value_eq_ok {here : BlockId} {op : Op} {name : String} {v : Operand} :
    value here op name s = (.ok v, s') ↔
      ∃ i, v = .inst i ∧ emit here op none (some name) s = (.ok i, s') := by
  simp only [value, bind_eq_ok, pure_eq_ok]
  constructor
  · rintro ⟨i, _, h, rfl, rfl⟩
    exact ⟨i, rfl, h⟩
  · rintro ⟨i, rfl, h⟩
    exact ⟨i, _, h, rfl, rfl⟩

theorem effect_eq_ok {here : BlockId} {op : Op} :
    effect here op s = (.ok (), s') ↔ ∃ i, emit here op none none s = (.ok i, s') := by
  simp only [effect, bind_eq_ok, pure_eq_ok]
  constructor
  · rintro ⟨i, _, h, _, rfl⟩
    exact ⟨i, h⟩
  · rintro ⟨i, h⟩
    exact ⟨i, _, h, trivial, rfl⟩

theorem constant_eq_ok {sc : Scalar} {l : Literal} {v : Operand} :
    constant sc l s = (.ok v, s') ↔ v = .const s.func.constants.size ∧
      s' = ⟨(s.types.intern (.scalar sc)).2,
        (s.func.addConstant (s.types.intern (.scalar sc)).1 l).2⟩ := by
  constructor
  · intro h
    obtain ⟨_, _, ht, h⟩ := bind_eq_ok.mp h
    obtain ⟨rfl, rfl⟩ := internTy_eq_ok.mp ht
    exact edit_eq_ok.mp h
  · rintro ⟨rfl, rfl⟩
    exact bind_eq_ok.mpr ⟨_, _, rfl, rfl⟩

theorem addIncoming_eq_ok {phi v : Operand} {pred : BlockId} {u : Unit}
    (h : addIncoming phi v pred s = (.ok u, s')) : ∃ i, phi = .inst i ∧
      (s.func.op i).isPhi = true ∧ s' = ⟨s.types, s.func.addIncoming i v pred⟩ := by
  cases phi with
  | inst i =>
    rw [addIncoming, site_bind] at h
    obtain ⟨_, _, ht, hrest⟩ := bind_eq_ok.mp h
    obtain ⟨_, rfl⟩ := operandTy_eq_ok.mp ht
    split at hrest
    · cases (Prod.mk.inj hrest).1
    · split at hrest
      · rename_i hphi
        exact ⟨i, rfl, hphi, (edit_eq_ok.mp hrest).2⟩
      · cases (Prod.mk.inj hrest).1
  | param k => cases (Prod.mk.inj h).1
  | const c => cases (Prod.mk.inj h).1

end Build

end LoopNest
