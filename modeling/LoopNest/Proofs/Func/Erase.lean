import LoopNest.Proofs.Func.Grow

/-!
# Erasing blocks

Erasing a block takes it out of the layout, leaves its instructions without an owner, and drops
the entries of phis for it.  `Func.Erased` and `Func.ErasedAll` give the views of what is left of
a function, after one block and after several.  What a phi takes from the blocks that are kept
stays (`Func.Pruned`).
-/

namespace LoopNest

namespace Func

/-- The operation stays, or it is a phi that loses entries for blocks that are not kept. -/
def Pruned (keep : BlockId → Prop) (o o' : Op) : Prop :=
  o' = o ∨ ∃ incoming stays, o = .phi incoming ∧ o' = .phi (incoming.filter stays) ∧
    ∀ e, keep e.2 → stays e = true

namespace Pruned

variable {keep : BlockId → Prop} {o o' o'' : Op}

theorem trans (h : Pruned keep o o') (h' : Pruned keep o' o'') : Pruned keep o o'' := by
  rcases h with rfl | ⟨inc, stays, rfl, rfl, hs⟩
  · exact h'
  · rcases h' with rfl | ⟨inc', stays', heq, rfl, hs'⟩
    · exact .inr ⟨inc, stays, rfl, rfl, hs⟩
    · cases heq
      refine .inr ⟨inc, fun e => stays e && stays' e, rfl, ?_, fun e he => ?_⟩
      · rw [List.filter_filter]
        simp [Bool.and_comm]
      · simp [hs e he, hs' e he]

theorem mono {keep' : BlockId → Prop} (h : Pruned keep o o') (hk : ∀ b, keep' b → keep b) :
    Pruned keep' o o' := by
  rcases h with h | ⟨inc, stays, ho, ho', hs⟩
  · exact .inl h
  · exact .inr ⟨inc, stays, ho, ho', fun e he => hs e (hk _ he)⟩

theorem eq_of_not_isPhi (h : Pruned keep o o') (hp : o.isPhi = false) : o' = o := by
  rcases h with h | ⟨inc, stays, rfl, _⟩
  · exact h
  · cases hp

theorem eq_of_keep (h : Pruned keep o o') (hk : ∀ incoming, o = .phi incoming → ∀ e ∈ incoming, keep e.2) :
    o' = o := by
  rcases h with h | ⟨inc, stays, rfl, rfl, hs⟩
  · exact h
  · rw [List.filter_eq_self.mpr fun e he => hs e (hk inc rfl e he)]

theorem operands_subset (h : Pruned keep o o') {v : Operand} (hv : v ∈ o'.operands) :
    v ∈ o.operands := by
  rcases h with rfl | ⟨inc, stays, rfl, rfl, _⟩
  · exact hv
  · simp only [Op.operands, List.mem_map, List.mem_filter] at hv ⊢
    obtain ⟨e, he, rfl⟩ := hv
    exact ⟨e, he.1, rfl⟩

end Pruned

section

variable (b : BlockId)

theorem modifyOps_pruned {keep : BlockId → Prop} (hk : ¬ keep b) :
    ∀ (is : List InstId) (f : Func) (j : InstId),
      Pruned keep (f.op j) ((f.modifyOps is (dropIncoming b)).op j)
  | [], _, _ => .inl rfl
  | i :: is, f, j => by
    refine Pruned.trans ?_ (modifyOps_pruned hk is (f.modifyOp i (dropIncoming b)) j)
    simp only [op, modifyOp]
    rw [inst_modifyInst]
    split
    · dsimp only
      cases hop : (f.inst j).op with
      | phi inc =>
        refine .inr ⟨inc, fun e => e.2 ≠ b, rfl, rfl, fun e he => ?_⟩
        simpa using fun heq : e.2 = b => hk (heq ▸ he)
      | _ => exact .inl rfl
    · exact .inl rfl

theorem inst_disown (is : List InstId) (f : Func) (j : InstId) :
    (is.foldl (fun f i => f.modifyInst i fun x => { x with owner := none }) f).inst j =
      { f.inst j with owner := if j ∈ is ∧ j < f.insts.size then none else f.owner j } := by
  induction is generalizing f with
  | nil => simp [owner]
  | cons i is ih =>
    rw [List.foldl_cons, ih, inst_modifyInst, owner, inst_modifyInst]
    have hsize : (f.modifyInst i fun x => { x with owner := none }).insts.size = f.insts.size :=
      Array.size_modify
    rw [hsize]
    by_cases hij : i = j
    · subst hij
      by_cases hlt : i < f.insts.size <;> simp [hlt, owner]
    · simp [hij, Ne.symm hij, owner]

theorem insts_size_disown (is : List InstId) (f : Func) :
    (is.foldl (fun f i => f.modifyInst i fun x => { x with owner := none }) f).insts.size =
      f.insts.size := by
  induction is generalizing f with
  | nil => rfl
  | cons i is ih =>
    rw [List.foldl_cons, ih]
    exact Array.size_modify

theorem rest_disown (is : List InstId) (f : Func) :
    f.SameOutline (is.foldl (fun f i => f.modifyInst i fun x => { x with owner := none }) f) ∧
      (is.foldl (fun f i => f.modifyInst i fun x => { x with owner := none }) f).blocks =
        f.blocks := by
  induction is generalizing f with
  | nil => exact ⟨.refl f, rfl⟩
  | cons i is ih =>
    obtain ⟨houtline, hblocks⟩ := ih (f.modifyInst i fun x => { x with owner := none })
    have hstep : f.SameOutline (f.modifyInst i fun x => { x with owner := none }) :=
      ⟨rfl, rfl, rfl, rfl, rfl⟩
    exact ⟨hstep.trans houtline, hblocks⟩

theorem relinked_dropIncoming (is : List InstId) (f : Func) :
    Relinked f (f.modifyOps is (dropIncoming b)) := by
  refine relinked_modifyOps (fun o => ?_) (fun o => ?_) (fun o _ hp => ?_) is f
  · cases o <;> rfl
  · cases o <;> rfl
  · cases o <;> first | rfl | cases hp

theorem dropIncoming_dropIncoming (o : Op) : dropIncoming b (dropIncoming b o) = dropIncoming b o := by
  cases o with
  | phi incoming => simp [dropIncoming]
  | _ => rfl

end

section

variable (f : Func) (b : BlockId)

/-! ## A detached block -/

/-- A block taken out of the layout with its instructions, before the phis are dealt with. -/
def detachBlock (f : Func) (b : BlockId) : Func :=
  (f.body b).foldl (fun f i => f.modifyInst i fun x => { x with owner := none })
    (Func.modifyBlock { f with layout := f.layout.filter (· ≠ b) } b fun k => { k with insts := [] })

theorem eraseBlock_eq : f.eraseBlock b =
    (f.detachBlock b).modifyOps (f.detachBlock b).liveInsts (dropIncoming b) := rfl

theorem sameOutline_detachBlock :
    SameOutline { f with layout := f.layout.filter (· ≠ b) } (f.detachBlock b) := by
  obtain ⟨hname, hparams, hret, hconstants, hlayout⟩ := (rest_disown (f.body b) (Func.modifyBlock
    { f with layout := f.layout.filter (· ≠ b) } b fun k => { k with insts := [] })).1
  exact ⟨hname, hparams, hret, hconstants, hlayout⟩

theorem blocks_detachBlock :
    (f.detachBlock b).blocks = (f.modifyBlock b fun k => { k with insts := [] }).blocks :=
  (rest_disown (f.body b) _).2

theorem body_detachBlock (c : BlockId) :
    (f.detachBlock b).body c = if c = b then [] else f.body c := by
  rw [body, block, blocks_detachBlock, ← block, ← body, body_modifyBlock]
  by_cases hc : c = b
  · subst hc
    by_cases hlt : c < f.blocks.size
    · simp [hlt]
    · simp [hlt, body, block, Block.fresh]
  · simp [hc, Ne.symm hc]

theorem inst_detachBlock (j : InstId) : (f.detachBlock b).inst j =
    { f.inst j with owner := if j ∈ f.body b then none else f.owner j } := by
  rw [detachBlock, inst_disown]
  change { f.inst j with
    owner := if j ∈ f.body b ∧ j < f.insts.size then none else f.owner j } = _
  cases hown : f.owner j with
  | none => simp
  | some c => simp [owner_lt hown]

theorem owner_detachBlock (j : InstId) :
    (f.detachBlock b).owner j = if j ∈ f.body b then none else f.owner j := by
  rw [owner, inst_detachBlock]

theorem insts_size_detachBlock : (f.detachBlock b).insts.size = f.insts.size :=
  insts_size_disown (f.body b) _

/-! ## An erased block -/

/-- What is left of a function without a block. -/
structure Erased (f g : Func) (b : BlockId) : Prop where
  name_eq : g.name = f.name
  layout_eq : g.layout = f.layout.filter (· ≠ b)
  constants_eq : g.constants = f.constants
  params_eq : g.params = f.params
  ret_eq : g.ret = f.ret
  size_eq : g.insts.size = f.insts.size
  blocks_size_eq : g.blocks.size = f.blocks.size
  body_eq : ∀ c, c ≠ b → g.body c = f.body c
  mem_body : ∀ c, ∀ j ∈ g.body c, j ∈ f.body c
  vectorized_eq : ∀ c, (g.block c).vectorized = (f.block c).vectorized
  ty_eq : ∀ j, (g.inst j).ty = (f.inst j).ty
  owner_eq : ∀ j, j ∉ f.body b → g.owner j = f.owner j
  owner_of : ∀ j d, g.owner j = some d → f.owner j = some d
  pruned : ∀ (keep : BlockId → Prop), ¬ keep b → ∀ j, Pruned keep (f.op j) (g.op j)

theorem erased_eraseBlock : Erased f (f.eraseBlock b) b := by
  have hd := f.sameOutline_detachBlock b
  have hs := (modifyOps_shape (dropIncoming b) (f.detachBlock b).liveInsts (f.detachBlock b)).1
  have hr := relinked_dropIncoming b (f.detachBlock b).liveInsts (f.detachBlock b)
  have hbody (c : BlockId) : (f.eraseBlock b).body c = if c = b then [] else f.body c :=
    (hr.body_eq c).trans (f.body_detachBlock b c)
  have howner (j : InstId) :
      (f.eraseBlock b).owner j = if j ∈ f.body b then none else f.owner j :=
    (hr.owner_eq j).trans (f.owner_detachBlock b j)
  constructor
  case name_eq => exact hs.name_eq.trans hd.name_eq
  case layout_eq => exact hs.layout_eq.trans hd.layout_eq
  case constants_eq => exact hs.constants_eq.trans hd.constants_eq
  case params_eq => exact hs.params_eq.trans hd.params_eq
  case ret_eq => exact hs.ret_eq.trans hd.ret_eq
  case size_eq => exact hr.size_eq.trans (f.insts_size_detachBlock b)
  case blocks_size_eq =>
    rw [eraseBlock_eq, hr.blocks_eq, blocks_detachBlock]
    exact Array.size_modify
  case body_eq => exact fun c hc => (hbody c).trans (if_neg hc)
  case mem_body =>
    intro c j hj
    rw [hbody] at hj
    split at hj
    · exact absurd hj List.not_mem_nil
    · exact hj
  case vectorized_eq =>
    intro c
    rw [eraseBlock_eq, block, hr.blocks_eq, blocks_detachBlock, ← block, vectorized_modifyBlock]
    split <;> rfl
  case ty_eq =>
    intro j
    rw [eraseBlock_eq, hr.ty_eq, inst_detachBlock]
  case owner_eq => exact fun j hj => (howner j).trans (if_neg hj)
  case owner_of =>
    intro j d hown
    rw [howner] at hown
    split at hown
    · cases hown
    · exact hown
  case pruned =>
    intro keep hk j
    have hpruned := modifyOps_pruned b hk (f.detachBlock b).liveInsts (f.detachBlock b) j
    rwa [show (f.detachBlock b).op j = f.op j by rw [op, inst_detachBlock, op]] at hpruned

end

/-- What is left of a function without some blocks. -/
structure ErasedAll (f g : Func) (bs : List BlockId) : Prop where
  mem_layout : ∀ c, c ∈ g.layout ↔ c ∈ f.layout ∧ c ∉ bs
  entry_eq : ∀ e, f.entry? = some e → e ∉ bs → g.entry? = some e
  constants_eq : g.constants = f.constants
  params_eq : g.params = f.params
  ret_eq : g.ret = f.ret
  size_eq : g.insts.size = f.insts.size
  blocks_size_eq : g.blocks.size = f.blocks.size
  /-- The order of the other blocks stays. -/
  filter_eq : ∀ q : BlockId → Bool, (∀ b ∈ bs, q b = false) → g.layout.filter q = f.layout.filter q
  body_eq : ∀ c, c ∉ bs → g.body c = f.body c
  vectorized_eq : ∀ c, (g.block c).vectorized = (f.block c).vectorized
  ty_eq : ∀ j, (g.inst j).ty = (f.inst j).ty
  owner_eq : ∀ j, (∀ b ∈ bs, j ∉ f.body b) → g.owner j = f.owner j
  owner_of : ∀ j d, g.owner j = some d → f.owner j = some d
  pruned : ∀ j, Pruned (· ∉ bs) (f.op j) (g.op j)

theorem erasedAll_foldl : ∀ (bs : List BlockId) (f : Func), ErasedAll f (bs.foldl eraseBlock f) bs
  | [], f => ⟨fun c => by simp, fun e he _ => he, rfl, rfl, rfl, rfl, rfl, fun _ _ => rfl,
      fun _ _ => rfl, fun _ => rfl, fun _ => rfl, fun _ _ => rfl, fun _ _ h => h, fun _ => .inl rfl⟩
  | b :: bs, f => by
    have h₁ := erased_eraseBlock f b
    have h := erasedAll_foldl bs (f.eraseBlock b)
    rw [List.foldl_cons]
    generalize f.eraseBlock b = f₁ at h₁ h ⊢
    refine ⟨fun c => ?_, fun e he hout => ?_, h.constants_eq.trans h₁.constants_eq,
      h.params_eq.trans h₁.params_eq, h.ret_eq.trans h₁.ret_eq, h.size_eq.trans h₁.size_eq,
      h.blocks_size_eq.trans h₁.blocks_size_eq, fun q hq => ?_, fun c hc => ?_,
      fun c => (h.vectorized_eq c).trans (h₁.vectorized_eq c),
      fun j => (h.ty_eq j).trans (h₁.ty_eq j), fun j hj => ?_,
      fun j d hd => h₁.owner_of j d (h.owner_of j d hd), fun j => ?_⟩
    · rw [h.mem_layout, h₁.layout_eq, List.mem_filter, List.mem_cons, not_or]
      simp [and_assoc]
    · rw [List.mem_cons, not_or] at hout
      refine h.entry_eq e ?_ hout.2
      simp only [ Func.entry?] at he ⊢
      rw [h₁.layout_eq]
      cases hl : f.layout with
      | nil => simp [hl] at he
      | cons x xs =>
        rw [hl] at he
        cases he
        rw [List.filter_cons_of_pos (by simpa using hout.1)]
        rfl
    · rw [h.filter_eq q fun c hc => hq c (List.mem_cons_of_mem _ hc), h₁.layout_eq, List.filter_filter]
      refine List.filter_congr fun c _ => ?_
      by_cases hc : c = b
      · simp [hc, hq b List.mem_cons_self]
      · simp [hc]
    · rw [List.mem_cons, not_or] at hc
      rw [h.body_eq c hc.2, h₁.body_eq c hc.1]
    · have hb := hj b List.mem_cons_self
      rw [h.owner_eq j fun b' hb' hmem => ?_, h₁.owner_eq j hb]
      exact hj b' (List.mem_cons_of_mem _ hb') (h₁.mem_body b' j hmem)
    · have hnot : ¬ (b ∉ b :: bs) := by simp
      exact (h₁.pruned _ hnot j).trans ((h.pruned j).mono fun c hc hmem => hc (List.mem_cons_of_mem _ hmem))

end Func

end LoopNest
