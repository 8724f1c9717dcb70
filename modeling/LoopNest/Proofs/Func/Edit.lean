import LoopNest.Func.Edit
import LoopNest.Proofs.Machine.Lockstep

/-!
# What edits change

Each edit of a function changes some of its parts and leaves the others alone.  The lemmas
here say so for the views `inst`, `op`, `body` and `layout`.

Two functions are *relinked* (`Func.Relinked`) when they differ in where their branches lead,
in the sources of their phis, and in their layout only.  All instructions then keep their
block, their type and their kind, so the code of every block stays.
-/

namespace LoopNest

namespace Func

variable (f : Func)

/-! ## Operations -/

theorem inst_modifyInst (i j : InstId) (g : Inst → Inst) :
    (f.modifyInst i g).inst j = if i = j ∧ j < f.insts.size then g (f.inst j) else f.inst j := by
  unfold inst modifyInst
  simp only [Array.getElem?_modify]
  by_cases hij : i = j
  · subst hij
    by_cases hlt : i < f.insts.size
    · simp [hlt]
    · simp [hlt]
  · simp [hij]

@[simp] theorem insts_size_modifyOp (i : InstId) (g : Op → Op) :
    (f.modifyOp i g).insts.size = f.insts.size := Array.size_modify

@[simp] theorem blocks_modifyOp (i : InstId) (g : Op → Op) :
    (f.modifyOp i g).blocks = f.blocks := rfl

@[simp] theorem layout_modifyOp (i : InstId) (g : Op → Op) :
    (f.modifyOp i g).layout = f.layout := rfl

@[simp] theorem constants_modifyOp (i : InstId) (g : Op → Op) :
    (f.modifyOp i g).constants = f.constants := rfl

@[simp] theorem params_modifyOp (i : InstId) (g : Op → Op) :
    (f.modifyOp i g).params = f.params := rfl

theorem op_modifyOp {i : InstId} (hi : i < f.insts.size) (j : InstId) (g : Op → Op) :
    (f.modifyOp i g).op j = if i = j then g (f.op j) else f.op j := by
  unfold op modifyOp
  rw [inst_modifyInst]
  by_cases hij : i = j
  · subst hij
    simp [hi]
  · simp [hij]

@[simp] theorem ty_modifyOp (i j : InstId) (g : Op → Op) :
    ((f.modifyOp i g).inst j).ty = (f.inst j).ty := by
  unfold modifyOp
  rw [inst_modifyInst]
  split <;> rfl

@[simp] theorem owner_modifyOp (i j : InstId) (g : Op → Op) :
    (f.modifyOp i g).owner j = f.owner j := by
  unfold modifyOp owner
  rw [inst_modifyInst]
  split <;> rfl

/-! ## Relinking -/

/-- The functions differ in branch targets, phi sources and layout only. -/
structure Relinked (f f' : Func) : Prop where
  blocks_eq : f'.blocks = f.blocks
  constants_eq : f'.constants = f.constants
  params_eq : f'.params = f.params
  ret_eq : f'.ret = f.ret
  size_eq : f'.insts.size = f.insts.size
  ty_eq : ∀ i, (f'.inst i).ty = (f.inst i).ty
  owner_eq : ∀ i, f'.owner i = f.owner i
  isTerminator_eq : ∀ i, (f'.op i).isTerminator = (f.op i).isTerminator
  isPhi_eq : ∀ i, (f'.op i).isPhi = (f.op i).isPhi
  op_eq : ∀ i, (f.op i).isTerminator = false → (f.op i).isPhi = false → f'.op i = f.op i

namespace Relinked

variable {f f' f'' : Func}

theorem refl : Relinked f f :=
  ⟨rfl, rfl, rfl, rfl, rfl, fun _ => rfl, fun _ => rfl, fun _ => rfl, fun _ => rfl, fun _ _ _ => rfl⟩

theorem trans (h : Relinked f f') (h' : Relinked f' f'') : Relinked f f'' where
  blocks_eq := h'.blocks_eq.trans h.blocks_eq
  constants_eq := h'.constants_eq.trans h.constants_eq
  params_eq := h'.params_eq.trans h.params_eq
  ret_eq := h'.ret_eq.trans h.ret_eq
  size_eq := h'.size_eq.trans h.size_eq
  ty_eq i := (h'.ty_eq i).trans (h.ty_eq i)
  owner_eq i := (h'.owner_eq i).trans (h.owner_eq i)
  isTerminator_eq i := (h'.isTerminator_eq i).trans (h.isTerminator_eq i)
  isPhi_eq i := (h'.isPhi_eq i).trans (h.isPhi_eq i)
  op_eq i ht hp := (h'.op_eq i ((h.isTerminator_eq i).trans ht) ((h.isPhi_eq i).trans hp)).trans
    (h.op_eq i ht hp)

theorem body_eq (h : Relinked f f') (b : BlockId) : f'.body b = f.body b := by
  unfold body block
  rw [h.blocks_eq]

theorem phis_eq (h : Relinked f f') (b : BlockId) : f'.phis b = f.phis b := by
  unfold phis
  rw [h.body_eq, funext h.isPhi_eq]

theorem afterPhis_eq (h : Relinked f f') (b : BlockId) : f'.afterPhis b = f.afterPhis b := by
  unfold afterPhis
  rw [h.body_eq, funext h.isPhi_eq]

theorem code_eq (h : Relinked f f') (b : BlockId) : f'.code b = f.code b := by
  unfold code
  rw [h.afterPhis_eq]
  congr 1
  funext i
  rw [h.isTerminator_eq]

theorem cost_eq (h : Relinked f f') (b : BlockId) : f'.cost b = f.cost b := by
  unfold cost
  rw [h.phis_eq, h.code_eq]

theorem terminator?_eq (h : Relinked f f') (b : BlockId) : f'.terminator? b = f.terminator? b := by
  unfold terminator?
  rw [h.body_eq]
  cases (f.body b).getLast? with
  | none => rfl
  | some i => simp only [h.isTerminator_eq]

theorem value_eq (h : Relinked f f') (tt : TypeTable) (args : List Datum) (ρ : Values) :
    f'.value tt args ρ = f.value tt args ρ := by
  funext v
  cases v with
  | const c => simp only [value, constantValue, h.constants_eq]
  | _ => rfl

theorem operandTy_eq (h : Relinked f f') : f'.operandTy = f.operandTy := by
  funext v
  cases v with
  | inst i =>
    have hty := h.ty_eq i
    unfold inst at hty
    simp only [operandTy]
    by_cases hi : i < f.insts.size
    · have hi' : i < f'.insts.size := by rw [h.size_eq]; exact hi
      simpa [Array.getElem?_eq_getElem hi, Array.getElem?_eq_getElem hi'] using hty
    · have hi' : ¬ i < f'.insts.size := by rw [h.size_eq]; exact hi
      simp [Array.getElem?_eq_none (Nat.le_of_not_lt hi),
        Array.getElem?_eq_none (Nat.le_of_not_lt hi'), h.size_eq]
  | param k => simp only [operandTy, h.params_eq]
  | const c => simp only [operandTy, h.constants_eq]

theorem tyOf_eq (h : Relinked f f') : f'.tyOf = f.tyOf := by
  funext v
  simp only [tyOf, h.operandTy_eq]

/-- All blocks have the same code. -/
theorem sameCode (h : Relinked f f') (tt : TypeTable) {b : BlockId}
    (hphi : ∀ i ∈ f.code b, (f.op i).isPhi = false) : f.SameCode tt f' b where
  phis_eq := h.phis_eq b
  code_eq := h.code_eq b
  terminator?_eq := h.terminator?_eq b
  inst_eq i hi := ⟨h.op_eq i (not_isTerminator_of_code hi) (hphi i hi), h.ty_eq i⟩
  tyOf_eq _ _ v _ := by rw [h.tyOf_eq]
  value_eq _ _ v _ args ρ := by rw [h.value_eq]

end Relinked

theorem isTerminator_retarget (a b : BlockId) (o : Op) :
    (o.retarget a b).isTerminator = o.isTerminator := by
  cases o <;> rfl

theorem isPhi_retarget (a b : BlockId) (o : Op) : (o.retarget a b).isPhi = o.isPhi := by
  cases o <;> rfl

theorem isTerminator_renameIncoming (a b : BlockId) (o : Op) :
    (renameIncoming a b o).isTerminator = o.isTerminator := by
  cases o <;> rfl

theorem isPhi_renameIncoming (a b : BlockId) (o : Op) :
    (renameIncoming a b o).isPhi = o.isPhi := by
  cases o <;> rfl

theorem operands_retarget (a b : BlockId) (o : Op) : (o.retarget a b).operands = o.operands := by
  cases o <;> rfl

theorem operands_renameIncoming (a b : BlockId) (o : Op) :
    (renameIncoming a b o).operands = o.operands := by
  cases o with
  | phi incoming => simp [renameIncoming, Op.operands, Function.comp_def]
  | _ => rfl

theorem op_modifyOp_cases (i j : InstId) (g : Op → Op) :
    (f.modifyOp i g).op j = g (f.op j) ∨ (f.modifyOp i g).op j = f.op j := by
  unfold op modifyOp
  rw [inst_modifyInst]
  split
  · exact .inl rfl
  · exact .inr rfl

/-- Changing one operation within its kind relinks. -/
theorem relinked_modifyOp {i : InstId} {g : Op → Op}
    (ht : ∀ o, (g o).isTerminator = o.isTerminator) (hp : ∀ o, (g o).isPhi = o.isPhi)
    (hg : ∀ o, o.isTerminator = false → o.isPhi = false → g o = o) :
    Relinked f (f.modifyOp i g) := by
  have hop (j : InstId) := f.op_modifyOp_cases i j g
  refine ⟨rfl, rfl, rfl, rfl, by simp, fun j => by simp, fun j => by simp, fun j => ?_, fun j => ?_,
    fun j hj hj' => ?_⟩
  · rcases hop j with h | h <;> rw [h]
    exact ht _
  · rcases hop j with h | h <;> rw [h]
    exact hp _
  · rcases hop j with h | h <;> rw [h]
    exact hg _ hj hj'

theorem relinked_modifyOps {g : Op → Op} (ht : ∀ o, (g o).isTerminator = o.isTerminator)
    (hp : ∀ o, (g o).isPhi = o.isPhi)
    (hg : ∀ o, o.isTerminator = false → o.isPhi = false → g o = o) :
    ∀ (is : List InstId) (f : Func), Relinked f (f.modifyOps is g)
  | [], _ => .refl
  | _ :: is, f => (f.relinked_modifyOp ht hp hg).trans (relinked_modifyOps ht hp hg is _)

theorem relinked_retarget (b source target : BlockId) :
    Relinked f (f.retarget b source target) := by
  unfold retarget
  split
  · refine f.relinked_modifyOp (isTerminator_retarget _ _) (isPhi_retarget _ _) fun o ht _ => ?_
    cases o <;> first | rfl | cases ht
  · exact .refl

theorem relinked_renamePredecessor (b old new : BlockId) :
    Relinked f (f.renamePredecessor b old new) := by
  refine relinked_modifyOps (isTerminator_renameIncoming _ _) (isPhi_renameIncoming _ _)
    (fun o _ hp => ?_) _ f
  cases o <;> first | rfl | cases hp

theorem relinked_layout (layout : List BlockId) : Relinked f { f with layout } :=
  ⟨rfl, rfl, rfl, rfl, rfl, fun _ => rfl, fun _ => rfl, fun _ => rfl, fun _ => rfl, fun _ _ _ => rfl⟩

theorem relinked_moveBlockBefore (b before : BlockId) :
    Relinked f (f.moveBlockBefore b before) := by
  unfold moveBlockBefore
  split
  · exact .refl
  · simp only
    split <;> exact f.relinked_layout _

/-- What a change of operations keeps of each of them. -/
theorem modifyOps_keeps {α : Type} {P : Op → α} {g : Op → Op} (hg : ∀ o, P (g o) = P o)
    (j : InstId) : ∀ (is : List InstId) (f : Func), P ((f.modifyOps is g).op j) = P (f.op j)
  | [], _ => rfl
  | i :: is, f => by
    refine (modifyOps_keeps hg j is (f.modifyOp i g)).trans ?_
    rcases f.op_modifyOp_cases i j g with h | h
    · rw [h, hg]
    · rw [h]

theorem retarget_keeps {α : Type} {P : Op → α} (hP : ∀ a b o, P (Op.retarget a b o) = P o)
    (b source target : BlockId) (j : InstId) :
    P ((f.retarget b source target).op j) = P (f.op j) := by
  unfold retarget
  split
  · exact modifyOps_keeps (hP source target) j [_] f
  · rfl

theorem op_retarget {b : BlockId} {t : InstId} (ht : f.terminator? b = some t)
    (hlt : t < f.insts.size) (source target : BlockId) (j : InstId) :
    (f.retarget b source target).op j =
      if t = j then (f.op j).retarget source target else f.op j := by
  unfold retarget
  rw [ht]
  exact f.op_modifyOp hlt j _

theorem op_renamePredecessor {b : BlockId} {phi : InstId} (hp : f.phis b = [phi])
    (hlt : phi < f.insts.size) (old new : BlockId) (j : InstId) :
    (f.renamePredecessor b old new).op j =
      if phi = j then renameIncoming old new (f.op j) else f.op j := by
  unfold renamePredecessor modifyOps
  rw [hp]
  exact f.op_modifyOp hlt j _

@[simp] theorem op_moveBlockBefore (b before : BlockId) (j : InstId) :
    (f.moveBlockBefore b before).op j = f.op j := by
  unfold moveBlockBefore
  split
  · rfl
  · simp only
    split <;> rfl

/-! ## Layout -/

theorem layout_retarget (b x y : BlockId) : (f.retarget b x y).layout = f.layout := by
  unfold retarget
  split <;> rfl

theorem layout_modifyOps (g : Op → Op) : ∀ (is : List InstId) (f : Func),
    (f.modifyOps is g).layout = f.layout
  | [], _ => rfl
  | i :: is, f => by
    unfold modifyOps
    rw [List.foldl_cons]
    exact layout_modifyOps g is (f.modifyOp i g)

theorem mem_placeAt {layout : List BlockId} {pos : Nat} {b c : BlockId} :
    c ∈ placeAt layout pos b ↔ c = b ∨ c ∈ layout := by
  have hsplit : c ∈ layout ↔ c ∈ layout.take pos ∨ c ∈ layout.drop pos := by
    rw [← List.mem_append, List.take_append_drop]
  unfold placeAt
  rw [List.mem_append, List.mem_cons, hsplit]
  tauto

theorem nodup_placeAt {layout : List BlockId} (hl : layout.Nodup) {b : BlockId} (hb : b ∉ layout)
    (pos : Nat) : (placeAt layout pos b).Nodup := by
  refine (List.perm_middle.nodup_iff).mpr (List.nodup_cons.mpr ?_)
  rw [List.take_append_drop]
  exact ⟨hb, hl⟩

theorem filter_placeAt {q : BlockId → Bool} {b : BlockId} (hb : q b = false) (layout : List BlockId)
    (pos : Nat) : (placeAt layout pos b).filter q = layout.filter q := by
  rw [placeAt, List.filter_append, List.filter_cons_of_neg (by simp [hb]), ← List.filter_append,
    List.take_append_drop]

/-- Moving a live block keeps the set of live blocks. -/
theorem mem_layout_moveBlockBefore {b before c : BlockId} (hb : b ∈ f.layout)
    (hbefore : before ∈ f.layout) :
    c ∈ (f.moveBlockBefore b before).layout ↔ c ∈ f.layout := by
  unfold moveBlockBefore
  split
  · rfl
  · rename_i hne
    simp only [not_or] at hne
    have hin : before ∈ f.layout.filter (· ≠ b) :=
      List.mem_filter.mpr ⟨hbefore, by simpa using Ne.symm hne.1⟩
    simp only
    split
    · rw [mem_placeAt, List.mem_filter]
      by_cases hc : c = b
      · simp [hc, hb]
      · simp [hc]
    · rename_i hnone
      rw [List.findIdx?_eq_none_iff] at hnone
      have := hnone before hin
      simp at this

/-- Moving a block puts no other block into the layout. -/
theorem mem_of_mem_layout_moveBlockBefore {b before c : BlockId}
    (hc : c ∈ (f.moveBlockBefore b before).layout) : c = b ∨ c ∈ f.layout := by
  unfold moveBlockBefore at hc
  split at hc
  · exact .inr hc
  · dsimp only at hc
    split at hc
    · exact (mem_placeAt.mp hc).imp_right fun h => (List.mem_filter.mp h).1
    · exact .inr (List.mem_filter.mp hc).1

theorem nodup_layout_moveBlockBefore {b before : BlockId} (h : f.layout.Nodup) :
    (f.moveBlockBefore b before).layout.Nodup := by
  unfold moveBlockBefore
  split
  · exact h
  · have hrest : (f.layout.filter (· ≠ b)).Nodup := h.filter _
    simp only
    split
    · exact nodup_placeAt hrest (by simp) _
    · exact hrest

/-- Moving a block other than the entry before another block than the entry keeps the entry. -/
theorem head?_layout_moveBlockBefore {b before e : BlockId} (he : f.layout.head? = some e)
    (hb : b ≠ e) (hbefore : before ≠ e) :
    (f.moveBlockBefore b before).layout.head? = some e := by
  unfold moveBlockBefore
  split
  · exact he
  · obtain ⟨rest, hrest⟩ : ∃ rest, f.layout = e :: rest := by
      cases hl : f.layout with
      | nil => simp [hl] at he
      | cons x xs =>
        rw [hl] at he
        cases he
        exact ⟨xs, rfl⟩
    have hfilter : f.layout.filter (· ≠ b) = e :: rest.filter (· ≠ b) := by
      rw [hrest, List.filter_cons_of_pos (by simpa using Ne.symm hb)]
    simp only [hfilter]
    split
    · rename_i pos hpos
      obtain ⟨pos, rfl⟩ : ∃ k, pos = k + 1 := by
        cases pos with
        | zero =>
          obtain ⟨_, heq, _⟩ := List.findIdx?_eq_some_iff_getElem.mp hpos
          simp at heq
          exact absurd heq.symm hbefore
        | succ k => exact ⟨k, rfl⟩
      rfl
    · rfl

end Func

end LoopNest
