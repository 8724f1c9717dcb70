import LoopNest.Proofs.Func.Edit

/-!
# Adding to functions

New blocks, constants and instructions get the next free numbers, so what was there keeps its
number and its content.  The lemmas here give the views of a function after each such edit:
the instruction under a number (`inst`), the instructions of a block (`body`), the marks of
blocks, and the layout.
-/

namespace LoopNest

namespace Func

variable (f : Func)

theorem body_modifyBlock (b c : BlockId) (g : Block → Block) : (f.modifyBlock b g).body c =
    if b = c ∧ c < f.blocks.size then (g (f.block c)).insts else f.body c := by
  simp only [body, block, modifyBlock, Array.getElem?_modify]
  by_cases hbc : b = c
  · subst hbc
    by_cases hlt : b < f.blocks.size <;> simp [hlt]
  · simp [hbc]

theorem vectorized_modifyBlock (b c : BlockId) (g : Block → Block) :
    ((f.modifyBlock b g).block c).vectorized =
      if b = c ∧ c < f.blocks.size then (g (f.block c)).vectorized else (f.block c).vectorized := by
  simp only [block, modifyBlock, Array.getElem?_modify]
  by_cases hbc : b = c
  · subst hbc
    by_cases hlt : b < f.blocks.size <;> simp [hlt]
  · simp [hbc]

/-- The phis of a block depend on its instructions only. -/
theorem phis_congr {f g : Func} {b : BlockId} (hbody : g.body b = f.body b)
    (hop : ∀ i ∈ f.body b, (g.op i).isPhi = (f.op i).isPhi) : g.phis b = f.phis b := by
  have hcongr : ∀ {is : List InstId}, (∀ i ∈ is, (g.op i).isPhi = (f.op i).isPhi) →
      is.takeWhile (fun i => (g.op i).isPhi) = is.takeWhile fun i => (f.op i).isPhi := by
    intro is his
    induction is with
    | nil => rfl
    | cons i is ih =>
      rw [List.takeWhile_cons, List.takeWhile_cons, his i List.mem_cons_self,
        ih fun j hj => his j (List.mem_cons_of_mem _ hj)]
  rw [phis, hbody]
  exact hcongr hop

theorem terminator?_congr {f g : Func} {b : BlockId} (hbody : g.body b = f.body b)
    (hop : ∀ i ∈ f.body b, g.op i = f.op i) : g.terminator? b = f.terminator? b := by
  rw [terminator?, terminator?, hbody]
  split
  · rename_i i hi
    rw [hop i (List.mem_of_getLast? hi)]
  · rfl

/-- Where a block leads to depends on its instructions only. -/
theorem successors_congr {f g : Func} {b : BlockId} (hbody : g.body b = f.body b)
    (hop : ∀ i ∈ f.body b, g.op i = f.op i) : g.successors b = f.successors b := by
  rw [successors, successors, terminator?_congr hbody hop]
  split
  · rename_i t ht
    rw [hop t (mem_body_of_terminator ht).1]
  · rfl

/-- Everything but blocks and instructions stays. -/
structure SameOutline (f g : Func) : Prop where
  name_eq : g.name = f.name
  params_eq : g.params = f.params
  ret_eq : g.ret = f.ret
  constants_eq : g.constants = f.constants
  layout_eq : g.layout = f.layout

theorem SameOutline.refl (f : Func) : f.SameOutline f := ⟨rfl, rfl, rfl, rfl, rfl⟩

theorem SameOutline.trans {f g h : Func} (hfg : f.SameOutline g) (hgh : g.SameOutline h) :
    f.SameOutline h where
  name_eq := hgh.name_eq.trans hfg.name_eq
  params_eq := hgh.params_eq.trans hfg.params_eq
  ret_eq := hgh.ret_eq.trans hfg.ret_eq
  constants_eq := hgh.constants_eq.trans hfg.constants_eq
  layout_eq := hgh.layout_eq.trans hfg.layout_eq

/-- Everything in a function is in another one, under the same numbers.  Blocks may differ. -/
structure Below (f g : Func) : Prop where
  params_eq : g.params = f.params
  ret_eq : g.ret = f.ret
  size_le : f.insts.size ≤ g.insts.size
  inst_eq : ∀ i < f.insts.size, g.inst i = f.inst i
  constant_eq : ∀ (c : Nat) x, f.constants[c]? = some x → g.constants[c]? = some x

theorem Below.refl (f : Func) : f.Below f := ⟨rfl, rfl, Nat.le_refl _, fun _ _ => rfl, fun _ _ h => h⟩

theorem Below.trans {f g h : Func} (hfg : f.Below g) (hgh : g.Below h) : f.Below h where
  params_eq := hgh.params_eq.trans hfg.params_eq
  ret_eq := hgh.ret_eq.trans hfg.ret_eq
  size_le := Nat.le_trans hfg.size_le hgh.size_le
  inst_eq i hi := (hgh.inst_eq i (Nat.lt_of_lt_of_le hi hfg.size_le)).trans (hfg.inst_eq i hi)
  constant_eq c x hx := hgh.constant_eq c x (hfg.constant_eq c x hx)

/-- Operands keep their types. -/
structure KeepsTypes (f g : Func) : Prop where
  ret_eq : g.ret = f.ret
  operandTy_eq : ∀ v t, f.operandTy v = .ok t → g.operandTy v = .ok t

theorem KeepsTypes.refl (f : Func) : f.KeepsTypes f := ⟨rfl, fun _ _ h => h⟩

theorem KeepsTypes.trans {f g h : Func} (hfg : f.KeepsTypes g) (hgh : g.KeepsTypes h) :
    f.KeepsTypes h where
  ret_eq := hgh.ret_eq.trans hfg.ret_eq
  operandTy_eq v t hv := hgh.operandTy_eq v t (hfg.operandTy_eq v t hv)

theorem operandTy_inst {f : Func} {i : InstId} (hi : i < f.insts.size) :
    f.operandTy (.inst i) = .ok (f.inst i).ty := by
  simp [operandTy, inst, Array.getElem?_eq_getElem hi]

theorem lt_of_operandTy {f : Func} {i : InstId} {t : TyId} (h : f.operandTy (.inst i) = .ok t) :
    i < f.insts.size ∧ (f.inst i).ty = t := by
  have hi : i < f.insts.size := by
    by_contra hi
    simp [operandTy, Array.getElem?_eq_none (Nat.le_of_not_lt hi)] at h
  exact ⟨hi, Except.ok.inj ((operandTy_inst hi).symm.trans h)⟩

/-- Types are kept if parameters, constants and the types of instructions are. -/
theorem keepsTypes_of {f g : Func} (hparams : g.params = f.params) (hret : g.ret = f.ret)
    (hsize : f.insts.size ≤ g.insts.size)
    (hty : ∀ i < f.insts.size, (g.inst i).ty = (f.inst i).ty)
    (hconst : ∀ (c : Nat) x, f.constants[c]? = some x → g.constants[c]? = some x) :
    f.KeepsTypes g := by
  refine ⟨hret, fun v t h => ?_⟩
  cases v with
  | inst i =>
    obtain ⟨hi, rfl⟩ := lt_of_operandTy h
    rw [operandTy_inst (Nat.lt_of_lt_of_le hi hsize), hty i hi]
  | param k =>
    simp only [operandTy, hparams] at h ⊢
    exact h
  | const c =>
    simp only [operandTy] at h ⊢
    split at h
    · rename_i x hx
      rw [hconst c x hx]
      exact h
    · cases h

theorem Below.keepsTypes {f g : Func} (h : f.Below g) : f.KeepsTypes g :=
  keepsTypes_of h.params_eq h.ret_eq h.size_le (fun i hi => by rw [h.inst_eq i hi]) h.constant_eq

/-! ## Instructions -/

section

variable (b : BlockId) (pos : Nat) (d : Draft)

@[simp] theorem fst_insertInst : (f.insertInst b pos d).1 = f.insts.size := rfl

@[simp] theorem insts_size_insertInst : (f.insertInst b pos d).2.insts.size = f.insts.size + 1 :=
  Array.size_push _

@[simp] theorem blocks_size_insertInst : (f.insertInst b pos d).2.blocks.size = f.blocks.size :=
  Array.size_modify

@[simp] theorem layout_insertInst : (f.insertInst b pos d).2.layout = f.layout := rfl

@[simp] theorem constants_insertInst : (f.insertInst b pos d).2.constants = f.constants := rfl

@[simp] theorem params_insertInst : (f.insertInst b pos d).2.params = f.params := rfl

theorem sameOutline_insertInst : f.SameOutline (f.insertInst b pos d).2 :=
  ⟨rfl, rfl, rfl, rfl, rfl⟩

@[simp] theorem inst_insertInst (j : InstId) : (f.insertInst b pos d).2.inst j =
    if j = f.insts.size then ⟨d.op, d.ty, d.name, some b⟩ else f.inst j := by
  simp only [inst, insertInst, modifyBlock, Array.getElem?_push]
  split <;> rfl

theorem below_insertInst : f.Below (f.insertInst b pos d).2 where
  params_eq := rfl
  ret_eq := rfl
  size_le := by simp
  inst_eq i hi := by simp [Nat.ne_of_lt hi]
  constant_eq _ _ h := h

@[simp] theorem vectorized_insertInst (c : BlockId) :
    ((f.insertInst b pos d).2.block c).vectorized = (f.block c).vectorized := by
  simp only [insertInst]
  rw [vectorized_modifyBlock]
  split <;> rfl

theorem body_insertInst {b : BlockId} (hb : b < f.blocks.size) (c : BlockId) :
    (f.insertInst b pos d).2.body c =
      if c = b then (f.body b).take pos ++ f.insts.size :: (f.body b).drop pos else f.body c := by
  simp only [insertInst]
  rw [body_modifyBlock]
  by_cases hbc : b = c
  · subst hbc
    rw [if_pos ⟨rfl, hb⟩, if_pos rfl]
    rfl
  · rw [if_neg fun h => hbc h.1, if_neg (Ne.symm hbc)]
    rfl

end

section

variable (b : BlockId) (d : Draft)

@[simp] theorem fst_appendInst : (f.appendInst b d).1 = f.insts.size := rfl

@[simp] theorem insts_size_appendInst : (f.appendInst b d).2.insts.size = f.insts.size + 1 :=
  f.insts_size_insertInst _ _ _

@[simp] theorem blocks_size_appendInst : (f.appendInst b d).2.blocks.size = f.blocks.size :=
  f.blocks_size_insertInst _ _ _

@[simp] theorem layout_appendInst : (f.appendInst b d).2.layout = f.layout := rfl

@[simp] theorem constants_appendInst : (f.appendInst b d).2.constants = f.constants := rfl

@[simp] theorem params_appendInst : (f.appendInst b d).2.params = f.params := rfl

@[simp] theorem inst_appendInst (j : InstId) : (f.appendInst b d).2.inst j =
    if j = f.insts.size then ⟨d.op, d.ty, d.name, some b⟩ else f.inst j :=
  f.inst_insertInst _ _ _ j

@[simp] theorem vectorized_appendInst (c : BlockId) :
    ((f.appendInst b d).2.block c).vectorized = (f.block c).vectorized :=
  f.vectorized_insertInst _ _ _ c

theorem body_appendInst {b : BlockId} (hb : b < f.blocks.size) (c : BlockId) :
    (f.appendInst b d).2.body c = if c = b then f.body b ++ [f.insts.size] else f.body c := by
  simp only [appendInst]
  rw [f.body_insertInst _ _ hb]
  simp

end

/-- Instructions were added at the end of a block, and nothing else changed. -/
structure Appends (b : BlockId) (code : List InstId) (f g : Func) : Prop extends Below f g where
  layout_eq : g.layout = f.layout
  constants_eq : g.constants = f.constants
  blocks_size_eq : g.blocks.size = f.blocks.size
  vectorized_eq : ∀ c, (g.block c).vectorized = (f.block c).vectorized
  body_eq : ∀ c, g.body c = if c = b then f.body b ++ code else f.body c
  mem_code : ∀ i, i ∈ code ↔ f.insts.size ≤ i ∧ i < g.insts.size
  owner_eq : ∀ i ∈ code, g.owner i = some b

namespace Appends

variable {f} {g h : Func} {b : BlockId} {code code' : List InstId}

theorem refl (f : Func) (b : BlockId) : Appends b [] f f where
  toBelow := .refl f
  layout_eq := rfl
  constants_eq := rfl
  blocks_size_eq := rfl
  vectorized_eq _ := rfl
  body_eq c := by split <;> simp_all
  mem_code i := by simp
  owner_eq i hi := absurd hi List.not_mem_nil

theorem trans (hfg : Appends b code f g) (hgh : Appends b code' g h) :
    Appends b (code ++ code') f h where
  toBelow := hfg.toBelow.trans hgh.toBelow
  layout_eq := hgh.layout_eq.trans hfg.layout_eq
  constants_eq := hgh.constants_eq.trans hfg.constants_eq
  blocks_size_eq := hgh.blocks_size_eq.trans hfg.blocks_size_eq
  vectorized_eq c := (hgh.vectorized_eq c).trans (hfg.vectorized_eq c)
  body_eq c := by
    rw [hgh.body_eq, hfg.body_eq, hfg.body_eq]
    split <;> simp
  mem_code i := by
    rw [List.mem_append, hfg.mem_code, hgh.mem_code]
    have hsplit : ∀ a b c i : Nat, a ≤ b → b ≤ c →
      (a ≤ i ∧ i < b ∨ b ≤ i ∧ i < c ↔ a ≤ i ∧ i < c) := by omega
    exact hsplit _ _ _ i hfg.size_le hgh.size_le
  owner_eq i hi := by
    rcases List.mem_append.mp hi with hi | hi
    · rw [owner, hgh.inst_eq i ((hfg.mem_code i).mp hi).2]
      exact hfg.owner_eq i hi
    · exact hgh.owner_eq i hi

theorem op_eq (hfg : Appends b code f g) {i : InstId} (hi : i < f.insts.size) :
    g.op i = f.op i := by
  rw [op, hfg.inst_eq i hi, op]

/-- What was added is what the block has got. -/
theorem code_unique (h : Appends b code f g) (h' : Appends b code' f g) : code = code' := by
  have hbody := h.body_eq b
  have hbody' := h'.body_eq b
  rw [if_pos rfl] at hbody hbody'
  exact List.append_cancel_left (hbody.symm.trans hbody')

end Appends

theorem appends_appendInst {b : BlockId} (hb : b < f.blocks.size) (d : Draft) :
    Appends b [f.insts.size] f (f.appendInst b d).2 where
  toBelow := f.below_insertInst _ _ _
  layout_eq := rfl
  constants_eq := rfl
  blocks_size_eq := f.blocks_size_appendInst b d
  vectorized_eq c := f.vectorized_appendInst b d c
  body_eq c := f.body_appendInst d hb c
  mem_code i := by
    rw [List.mem_singleton, insts_size_appendInst]
    exact ⟨fun h => h ▸ ⟨Nat.le_refl _, Nat.lt_succ_self _⟩,
      fun h => Nat.le_antisymm (Nat.le_of_lt_succ h.2) h.1⟩
  owner_eq i hi := by
    rw [List.mem_singleton.mp hi, owner, inst_appendInst, if_pos rfl]

/-- A new instruction goes between the rest of a block and its terminator. -/
theorem body_insertBeforeTerminator {b : BlockId} {front : List InstId} {t : InstId}
    (hbody : f.body b = front ++ [t]) (ht : (f.op t).isTerminator = true)
    (hb : b < f.blocks.size) (d : Draft) (c : BlockId) :
    (f.insertBeforeTerminator b d).2.body c =
      if c = b then front ++ [f.insts.size] ++ [t] else f.body c := by
  have hterm : f.terminator? b = some t := by
    simp [terminator?, hbody, ht]
  simp only [insertBeforeTerminator]
  rw [f.body_insertInst _ _ hb, hbody, hterm]
  simp

section

variable (b : BlockId) (d : Draft)

@[simp] theorem fst_insertBeforeTerminator :
    (f.insertBeforeTerminator b d).1 = f.insts.size := rfl

@[simp] theorem insts_size_insertBeforeTerminator :
    (f.insertBeforeTerminator b d).2.insts.size = f.insts.size + 1 :=
  f.insts_size_insertInst _ _ _

@[simp] theorem blocks_size_insertBeforeTerminator :
    (f.insertBeforeTerminator b d).2.blocks.size = f.blocks.size :=
  f.blocks_size_insertInst _ _ _

@[simp] theorem layout_insertBeforeTerminator :
    (f.insertBeforeTerminator b d).2.layout = f.layout := rfl

@[simp] theorem constants_insertBeforeTerminator :
    (f.insertBeforeTerminator b d).2.constants = f.constants := rfl

@[simp] theorem params_insertBeforeTerminator :
    (f.insertBeforeTerminator b d).2.params = f.params := rfl

@[simp] theorem inst_insertBeforeTerminator (j : InstId) :
    (f.insertBeforeTerminator b d).2.inst j =
      if j = f.insts.size then ⟨d.op, d.ty, d.name, some b⟩ else f.inst j :=
  f.inst_insertInst _ _ _ j

@[simp] theorem vectorized_insertBeforeTerminator (c : BlockId) :
    ((f.insertBeforeTerminator b d).2.block c).vectorized = (f.block c).vectorized :=
  f.vectorized_insertInst _ _ _ c

end

/-! ## Blocks and constants -/

section

variable (name : String) (before : BlockId)

@[simp] theorem fst_addBlockBefore : (f.addBlockBefore name before).1 = f.blocks.size := rfl

@[simp] theorem insts_addBlockBefore : (f.addBlockBefore name before).2.insts = f.insts := rfl

@[simp] theorem blocks_size_addBlockBefore :
    (f.addBlockBefore name before).2.blocks.size = f.blocks.size + 1 := Array.size_push _

@[simp] theorem constants_addBlockBefore :
    (f.addBlockBefore name before).2.constants = f.constants := rfl

@[simp] theorem params_addBlockBefore : (f.addBlockBefore name before).2.params = f.params := rfl

@[simp] theorem inst_addBlockBefore (j : InstId) :
    (f.addBlockBefore name before).2.inst j = f.inst j := rfl

theorem block_addBlockBefore (c : BlockId) : (f.addBlockBefore name before).2.block c =
    if c = f.blocks.size then .fresh name else f.block c := by
  simp only [block, addBlockBefore, addBlockAt, Array.getElem?_push]
  split <;> rfl

@[simp] theorem body_addBlockBefore (c : BlockId) :
    (f.addBlockBefore name before).2.body c = f.body c := by
  rw [body, block_addBlockBefore, body]
  split
  · rename_i hc
    simp [block, hc, Block.fresh]
  · rfl

@[simp] theorem vectorized_addBlockBefore (c : BlockId) :
    ((f.addBlockBefore name before).2.block c).vectorized = (f.block c).vectorized := by
  rw [block_addBlockBefore]
  split
  · rename_i hc
    simp [block, hc, Block.fresh]
  · rfl

theorem mem_layout_addBlockBefore {c : BlockId} :
    c ∈ (f.addBlockBefore name before).2.layout ↔ c = f.blocks.size ∨ c ∈ f.layout := mem_placeAt

/-- A block that is added before another block than the entry is not the entry. -/
theorem entry?_addBlockBefore {before e : BlockId} (he : f.entry? = some e) (hne : before ≠ e) :
    Func.entry? (f.addBlockBefore name before).2 = some e := by
  simp only [ Func.entry?] at he ⊢
  obtain ⟨rest, hrest⟩ : ∃ rest, f.layout = e :: rest := by
    cases hl : f.layout with
    | nil => simp [hl] at he
    | cons x xs =>
      rw [hl] at he
      cases he
      exact ⟨xs, rfl⟩
  have hpos : ∃ k, (f.position? before).getD f.layout.length = k + 1 := by
    simp only [position?, hrest, List.findIdx?_cons, Ne.symm hne, decide_false, Bool.false_eq_true,
      if_false]
    cases List.findIdx? (fun x => decide (x = before)) rest with
    | none => exact ⟨rest.length, rfl⟩
    | some n => exact ⟨n, rfl⟩
  obtain ⟨k, hk⟩ := hpos
  simp only [addBlockBefore, addBlockAt, placeAt, hk]
  rw [hrest]
  rfl

end

/-- Empty blocks were added, before a given block. -/
structure Opens (before : BlockId) (bs : List BlockId) (f g : Func) : Prop where
  insts_eq : g.insts = f.insts
  constants_eq : g.constants = f.constants
  params_eq : g.params = f.params
  ret_eq : g.ret = f.ret
  size_eq : g.blocks.size = f.blocks.size + bs.length
  body_eq : ∀ c, g.body c = f.body c
  vectorized_eq : ∀ c, (g.block c).vectorized = (f.block c).vectorized
  mem_layout : ∀ c, c ∈ g.layout ↔ c ∈ bs ∨ c ∈ f.layout
  entry_eq : ∀ e, f.entry? = some e → before ≠ e → g.entry? = some e
  /-- The order of the old blocks stays. -/
  filter_eq : ∀ q : BlockId → Bool, (∀ b ∈ bs, q b = false) → g.layout.filter q = f.layout.filter q

theorem Opens.trans {f g h : Func} {before : BlockId} {bs bs' : List BlockId}
    (hfg : Opens before bs f g) (hgh : Opens before bs' g h) : Opens before (bs ++ bs') f h where
  insts_eq := hgh.insts_eq.trans hfg.insts_eq
  constants_eq := hgh.constants_eq.trans hfg.constants_eq
  params_eq := hgh.params_eq.trans hfg.params_eq
  ret_eq := hgh.ret_eq.trans hfg.ret_eq
  size_eq := by rw [hgh.size_eq, hfg.size_eq, List.length_append, Nat.add_assoc]
  body_eq c := (hgh.body_eq c).trans (hfg.body_eq c)
  vectorized_eq c := (hgh.vectorized_eq c).trans (hfg.vectorized_eq c)
  mem_layout c := by
    rw [hgh.mem_layout, hfg.mem_layout, List.mem_append]
    tauto
  entry_eq e he hne := hgh.entry_eq e (hfg.entry_eq e he hne) hne
  filter_eq q hq := (hgh.filter_eq q fun b hb => hq b (List.mem_append_right _ hb)).trans
    (hfg.filter_eq q fun b hb => hq b (List.mem_append_left _ hb))

theorem opens_addBlockBefore (name : String) (before : BlockId) :
    Opens before [f.blocks.size] f (f.addBlockBefore name before).2 where
  insts_eq := rfl
  constants_eq := rfl
  params_eq := rfl
  ret_eq := rfl
  size_eq := f.blocks_size_addBlockBefore name before
  body_eq c := f.body_addBlockBefore name before c
  vectorized_eq c := f.vectorized_addBlockBefore name before c
  mem_layout c := by rw [mem_layout_addBlockBefore, List.mem_singleton]
  entry_eq _ he hne := f.entry?_addBlockBefore name he hne
  filter_eq _ hq := filter_placeAt (hq _ List.mem_cons_self) _ _

section

variable (t : TyId) (l : Literal)

@[simp] theorem fst_addConstant : (f.addConstant t l).1 = .const f.constants.size := rfl

@[simp] theorem insts_addConstant : (f.addConstant t l).2.insts = f.insts := rfl

@[simp] theorem blocks_addConstant : (f.addConstant t l).2.blocks = f.blocks := rfl

@[simp] theorem layout_addConstant : (f.addConstant t l).2.layout = f.layout := rfl

@[simp] theorem params_addConstant : (f.addConstant t l).2.params = f.params := rfl

@[simp] theorem constants_addConstant :
    (f.addConstant t l).2.constants = f.constants.push ⟨t, l⟩ := rfl

theorem below_addConstant : f.Below (f.addConstant t l).2 where
  params_eq := rfl
  ret_eq := rfl
  size_le := Nat.le_refl _
  inst_eq _ _ := rfl
  constant_eq c x h := by
    have hlt := (Array.getElem?_eq_some_iff.mp h).1
    rw [constants_addConstant, Array.getElem?_push, if_neg (Nat.ne_of_lt hlt)]
    exact h

theorem operandTy_addConstant :
    (f.addConstant t l).2.operandTy (f.addConstant t l).1 = .ok t := by
  simp [operandTy, addConstant]

@[simp] theorem inst_addConstant (j : InstId) : (f.addConstant t l).2.inst j = f.inst j := rfl

@[simp] theorem block_addConstant (b : BlockId) : (f.addConstant t l).2.block b = f.block b := rfl

@[simp] theorem body_addConstant (b : BlockId) : (f.addConstant t l).2.body b = f.body b := rfl

end

/-! ## Replacing uses -/

theorem modifyOps_shape (k : Op → Op) (is : List InstId) (f : Func) :
    f.SameOutline (f.modifyOps is k) ∧ (f.modifyOps is k).blocks = f.blocks ∧
      (f.modifyOps is k).insts.size = f.insts.size := by
  induction is generalizing f with
  | nil => exact ⟨.refl f, rfl, rfl⟩
  | cons i is ih =>
    obtain ⟨hout, hblocks, hsize⟩ := ih (f.modifyOp i k)
    have hone : f.SameOutline (f.modifyOp i k) := ⟨rfl, rfl, rfl, rfl, rfl⟩
    exact ⟨hone.trans hout, hblocks, hsize.trans (f.insts_size_modifyOp i k)⟩

/-- A change that does nothing the second time is made to the listed instructions. -/
theorem inst_modifyOps {k : Op → Op} (hk : ∀ o, k (k o) = k o) (is : List InstId) (f : Func)
    {j : InstId} (hj : j < f.insts.size) :
    (f.modifyOps is k).inst j = if j ∈ is then { f.inst j with op := k (f.op j) } else f.inst j := by
  induction is generalizing f with
  | nil => rfl
  | cons i is ih =>
    change ((f.modifyOp i k).modifyOps is k).inst j = _
    rw [ih (f.modifyOp i k) (by simpa using hj)]
    simp only [op, modifyOp, inst_modifyInst, hj, and_true, List.mem_cons]
    by_cases hij : i = j
    · by_cases hmem : j ∈ is <;> simp [hij, hmem, hk]
    · simp [hij, Ne.symm hij]

theorem mapOperands_mapOperands (k l : Operand → Operand) (o : Op) :
    (o.mapOperands k).mapOperands l = o.mapOperands (l ∘ k) := by
  cases o <;> simp [Op.mapOperands]

theorem isTerminator_mapOperands (k : Operand → Operand) (o : Op) :
    (o.mapOperands k).isTerminator = o.isTerminator := by
  cases o <;> rfl

theorem isPhi_mapOperands (k : Operand → Operand) (o : Op) : (o.mapOperands k).isPhi = o.isPhi := by
  cases o <;> rfl

theorem alloca_of_mapOperands {k : Operand → Operand} {o : Op} {t : TyId} {a : Nat}
    (h : o.mapOperands k = .alloca t a) : o = .alloca t a := by
  cases o with
  | alloca _ _ => exact h
  | _ => cases h

theorem mapOperands_eq_self {k : Operand → Operand} {o : Op} (h : ∀ v ∈ o.operands, k v = v) :
    o.mapOperands k = o := by
  cases o with
  | phi incoming =>
    have hid : incoming.map (fun e => (k e.1, e.2)) = incoming.map id :=
      List.map_congr_left fun e he => by
        rw [h e.1 (List.mem_map_of_mem he)]
        rfl
    simpa [Op.mapOperands] using hid
  | call name args =>
    have hid : args.map k = args.map id := List.map_congr_left h
    simpa [Op.mapOperands] using hid
  | ret v => cases v <;> simp_all [Op.mapOperands, Op.operands]
  | _ => simp_all [Op.mapOperands, Op.operands]

/-- Replacing the uses of an operand by another one. -/
theorem inst_replaceUses {old new : Operand} (hne : new ≠ old) {j : InstId}
    (hj : j < f.insts.size) : (f.replaceUses old new).inst j =
      if j ∈ f.liveInsts then
        { f.inst j with op := (f.op j).mapOperands fun v => if v = old then new else v }
      else f.inst j := by
  refine inst_modifyOps (fun o => ?_) _ f hj
  rw [mapOperands_mapOperands]
  congr 1
  funext v
  by_cases hv : v = old <;> simp [hv, hne]

/-! ## Erasing -/

theorem inst_eraseInst {i : InstId} {b : BlockId} (hown : f.owner i = some b) (j : InstId) :
    (f.eraseInst i).inst j = if j = i then { f.inst j with owner := none } else f.inst j := by
  have hlt := owner_lt hown
  simp only [eraseInst, hown]
  change (f.modifyInst i fun x => { x with owner := none }).inst j = _
  rw [inst_modifyInst]
  by_cases hij : j = i
  · subst hij
    simp [hlt]
  · simp [hij, Ne.symm hij]

theorem op_eraseInst (i j : InstId) : (f.eraseInst i).op j = f.op j := by
  cases hown : f.owner i with
  | none => simp only [eraseInst, hown]
  | some b =>
    rw [ op, inst_eraseInst f hown, op]
    split <;> rfl

theorem sameOutline_eraseInst (i : InstId) : f.SameOutline (f.eraseInst i) := by
  unfold eraseInst
  split <;> exact ⟨rfl, rfl, rfl, rfl, rfl⟩

theorem insts_size_eraseInst (i : InstId) : (f.eraseInst i).insts.size = f.insts.size := by
  unfold eraseInst
  split
  · exact Array.size_modify
  · rfl

theorem body_eraseInst {i : InstId} {b : BlockId} (hown : f.owner i = some b) (c : BlockId) :
    (f.eraseInst i).body c = if c = b then (f.body c).filter (· ≠ i) else f.body c := by
  simp only [eraseInst, hown]
  rw [body_modifyBlock]
  by_cases hbc : b = c
  · subst hbc
    by_cases hlt : b < f.blocks.size
    · rw [if_pos ⟨rfl, hlt⟩, if_pos rfl]
      rfl
    · have hnil : f.body b = [] := by
        simp [body, block, Array.getElem?_eq_none (Nat.le_of_not_lt hlt), Block.fresh]
      rw [if_neg fun h => hlt h.2, if_pos rfl, hnil]
      exact hnil
  · rw [if_neg fun h => hbc h.1, if_neg (Ne.symm hbc)]
    rfl

end Func

end LoopNest
