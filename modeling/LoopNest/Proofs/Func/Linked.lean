import LoopNest.Proofs.Func.Erase
import LoopNest.Proofs.Func.Insert

/-!
# Ownership

Which block holds an instruction is recorded twice: the block lists the instruction, and the
instruction records the block.  `Func.Linked` says that the two agree, that no list repeats itself,
and that the layout lists blocks that exist, each once.

A function is built by *edits* (`Func.Edit`), each of which may only look up handles that exist.
Every edit keeps a function linked (`Linked.apply`), and so a function that is built by edits from
an empty one (`Func.Built`) is linked.  From there the counts and the views of users follow
(`Built.consistent`).
-/

namespace LoopNest

namespace Func

/-- Ownership agrees on both sides, and nothing is listed twice. -/
structure Linked (f : Func) : Prop where
  nodup_layout : f.layout.Nodup
  layout_lt : ∀ b ∈ f.layout, b < f.blocks.size
  owner_iff : ∀ i b, f.owner i = some b ↔ i ∈ f.body b
  nodup_body : ∀ b, (f.body b).Nodup

namespace Linked

variable {f g : Func} {i : InstId} {b c : BlockId}

theorem declare (name : String) (params : Array Param) (ret : TyId) :
    Linked (declare name params ret) where
  nodup_layout := .nil
  layout_lt _ hb := absurd hb List.not_mem_nil
  owner_iff i b := by simp [Func.declare, owner, inst, body, block, Block.fresh]
  nodup_body b := by simp [Func.declare, body, block, Block.fresh]

/-- An instruction is listed in one block. -/
theorem eq_of_mem (h : f.Linked) (hb : i ∈ f.body b) (hc : i ∈ f.body c) : b = c := by
  have hown := (h.owner_iff i b).mpr hb
  rw [(h.owner_iff i c).mpr hc] at hown
  exact (Option.some.inj hown).symm

theorem lt_of_mem (h : f.Linked) (hi : i ∈ f.body b) : i < f.insts.size :=
  owner_lt ((h.owner_iff i b).mpr hi)

/-- Only the layout, the blocks and the owners matter. -/
theorem congr (h : f.Linked) (hlayout : g.layout = f.layout) (hblocks : g.blocks = f.blocks)
    (howner : ∀ i, g.owner i = f.owner i) : g.Linked where
  nodup_layout := hlayout ▸ h.nodup_layout
  layout_lt := by
    rw [hlayout, hblocks]
    exact h.layout_lt
  owner_iff i b := by
    rw [howner, body, block, hblocks]
    exact h.owner_iff i b
  nodup_body b := by
    rw [body, block, hblocks]
    exact h.nodup_body b

/-! ## Changed operations -/

theorem modifyOp (h : f.Linked) (i : InstId) (k : Op → Op) : (f.modifyOp i k).Linked :=
  h.congr rfl rfl fun j => f.owner_modifyOp i j k

theorem modifyOps (h : f.Linked) (k : Op → Op) : ∀ is : List InstId, (f.modifyOps is k).Linked := by
  intro is
  induction is generalizing f with
  | nil => exact h
  | cons i is ih => exact ih (h.modifyOp i k)

theorem retarget (h : f.Linked) (b source target : BlockId) :
    (f.retarget b source target).Linked := by
  unfold Func.retarget
  split
  · exact h.modifyOp _ _
  · exact h

/-! ## Added blocks and instructions -/

theorem addBlockAt (h : f.Linked) (name : String) (pos : Nat) :
    Linked (f.addBlockAt name pos).2 := by
  have hbody (c : BlockId) : body (f.addBlockAt name pos).2 c = f.body c :=
    f.body_addBlockBefore name 0 c
  constructor
  · exact nodup_placeAt h.nodup_layout
      (fun hmem => Nat.lt_irrefl _ (h.layout_lt _ hmem)) pos
  · intro c hc
    rw [Func.addBlockAt, Array.size_push]
    rcases mem_placeAt.mp hc with rfl | hc
    · exact Nat.lt_succ_self _
    · exact Nat.lt_succ_of_lt (h.layout_lt c hc)
  · intro i c
    rw [hbody]
    exact h.owner_iff i c
  · intro c
    rw [hbody]
    exact h.nodup_body c

theorem insertInst (h : f.Linked) (hb : b < f.blocks.size) (pos : Nat) (d : Draft) :
    Linked (f.insertInst b pos d).2 := by
  have hnew (c : BlockId) : f.insts.size ∉ f.body c := fun hmem =>
    Nat.lt_irrefl _ (h.lt_of_mem hmem)
  have hbody (c : BlockId) : body (f.insertInst b pos d).2 c =
      if c = b then placeAt (f.body b) pos f.insts.size else f.body c :=
    f.body_insertInst pos d hb c
  constructor
  · exact h.nodup_layout
  · rw [blocks_size_insertInst]
    exact h.layout_lt
  · intro i c
    rw [owner, inst_insertInst, hbody]
    by_cases hi : i = f.insts.size
    · -- the new instruction is in the block it records, and was in none before
      subst hi
      rw [if_pos rfl]
      by_cases hc : c = b
      · simp [hc, mem_placeAt]
      · simp [hc, hnew c, Ne.symm hc]
    · rw [if_neg hi]
      by_cases hc : c = b
      · rw [if_pos hc, mem_placeAt, hc]
        simp only [hi, false_or]
        exact h.owner_iff i b
      · rw [if_neg hc]
        exact h.owner_iff i c
  · intro c
    rw [hbody]
    split
    · exact nodup_placeAt (h.nodup_body b) (hnew b) pos
    · exact h.nodup_body c

/-! ## Erased and moved parts -/

theorem eraseInst (h : f.Linked) (i : InstId) : (f.eraseInst i).Linked := by
  cases hown : f.owner i with
  | none =>
    rw [Func.eraseInst, hown]
    exact h
  | some b =>
    constructor
    · rw [(f.sameOutline_eraseInst i).layout_eq]
      exact h.nodup_layout
    · have hsize : (f.eraseInst i).blocks.size = f.blocks.size := by
        rw [Func.eraseInst, hown]
        exact Array.size_modify
      rw [(f.sameOutline_eraseInst i).layout_eq, hsize]
      exact h.layout_lt
    · intro j c
      rw [owner, inst_eraseInst f hown, body_eraseInst f hown]
      by_cases hj : j = i
      · subst hj
        by_cases hc : c = b
        · simp [hc]
        · have hnot : j ∉ f.body c := fun hmem =>
            hc (h.eq_of_mem hmem ((h.owner_iff j b).mp hown))
          simp [hc, hnot]
      · rw [if_neg hj, ← owner, h.owner_iff]
        by_cases hc : c = b <;> simp [hc, hj]
    · intro c
      rw [body_eraseInst f hown]
      split
      · exact (h.nodup_body c).filter _
      · exact h.nodup_body c

theorem detachBlock (h : f.Linked) (b : BlockId) : (f.detachBlock b).Linked := by
  have hlayout := (f.sameOutline_detachBlock b).layout_eq
  constructor
  · rw [hlayout]
    exact h.nodup_layout.filter _
  · intro c hc
    rw [hlayout] at hc
    rw [blocks_detachBlock, modifyBlock, Array.size_modify]
    exact h.layout_lt c (List.mem_filter.mp hc).1
  · intro i c
    rw [owner_detachBlock, body_detachBlock]
    by_cases hi : i ∈ f.body b
    · by_cases hc : c = b
      · simp [hi, hc]
      · have hnot : i ∉ f.body c := fun hmem => hc (h.eq_of_mem hmem hi)
        simp [hi, hc, hnot]
    · rw [if_neg hi, h.owner_iff]
      by_cases hc : c = b
      · simp [hc, hi]
      · simp [hc]
  · intro c
    rw [body_detachBlock]
    split
    · exact .nil
    · exact h.nodup_body c

theorem eraseBlock (h : f.Linked) (b : BlockId) : (f.eraseBlock b).Linked := by
  rw [eraseBlock_eq]
  exact (h.detachBlock b).modifyOps _ _

theorem moveBlockBefore (h : f.Linked) (hb : b < f.blocks.size) (before : BlockId) :
    (f.moveBlockBefore b before).Linked := by
  have hr := f.relinked_moveBlockBefore b before
  constructor
  · exact f.nodup_layout_moveBlockBefore h.nodup_layout
  · intro c hc
    rw [hr.blocks_eq]
    rcases f.mem_of_mem_layout_moveBlockBefore hc with rfl | hc
    · exact hb
    · exact h.layout_lt c hc
  · intro i c
    rw [hr.owner_eq, hr.body_eq]
    exact h.owner_iff i c
  · intro c
    rw [hr.body_eq]
    exact h.nodup_body c

end Linked

/-! ## Edits -/

/-- An edit of a function. -/
inductive Edit where
  | addBlock (name : String)
  | addBlockBefore (name : String) (before : BlockId)
  | addBlockAfter (name : String) (after : BlockId)
  | addConstant (ty : TyId) (l : Literal)
  | appendInst (b : BlockId) (d : Draft)
  | insertInst (b : BlockId) (pos : Nat) (d : Draft)
  | insertBefore (anchor : InstId) (d : Draft)
  | insertBeforeTerminator (b : BlockId) (d : Draft)
  | insertPhi (b : BlockId) (incoming : List (Operand × BlockId)) (ty : TyId)
      (name : Option String)
  | replaceUses (old new : Operand)
  | eraseInst (i : InstId)
  | eraseBlock (b : BlockId)
  | moveBlockBefore (b before : BlockId)
  | retarget (b source target : BlockId)
  | renamePredecessor (b old new : BlockId)
  | setIncoming (phi : InstId) (pred : BlockId) (value : Operand)
  | addIncoming (phi : InstId) (value : Operand) (pred : BlockId)

namespace Edit

/-- The function after an edit.  Inserting before an instruction that is in no block fails and
changes nothing. -/
def apply (f : Func) : Edit → Func
  | .addBlock name => (f.addBlock name).2
  | .addBlockBefore name before => (f.addBlockBefore name before).2
  | .addBlockAfter name after => (f.addBlockAfter name after).2
  | .addConstant ty l => (f.addConstant ty l).2
  | .appendInst b d => (f.appendInst b d).2
  | .insertInst b pos d => (f.insertInst b pos d).2
  | .insertBefore anchor d =>
    match f.insertBefore? anchor d with
    | some (_, g) => g
    | none => f
  | .insertBeforeTerminator b d => (f.insertBeforeTerminator b d).2
  | .insertPhi b incoming ty name => (f.insertPhi b incoming ty name).2
  | .replaceUses old new => f.replaceUses old new
  | .eraseInst i => f.eraseInst i
  | .eraseBlock b => f.eraseBlock b
  | .moveBlockBefore b before => f.moveBlockBefore b before
  | .retarget b source target => f.retarget b source target
  | .renamePredecessor b old new => f.renamePredecessor b old new
  | .setIncoming phi pred value => f.setIncoming phi pred value
  | .addIncoming phi value pred => f.addIncoming phi value pred

/-- The blocks that an edit looks up or places. -/
def blocks : Edit → List BlockId
  | .appendInst b _ | .insertInst b _ _ | .insertBeforeTerminator b _ | .insertPhi b _ _ _
  | .eraseBlock b | .moveBlockBefore b _ | .retarget b _ _ | .renamePredecessor b _ _ => [b]
  | _ => []

/-- The instructions that an edit looks up. -/
def insts : Edit → List InstId
  | .insertBefore i _ | .eraseInst i | .setIncoming i _ _ | .addIncoming i _ _ => [i]
  | _ => []

/-- The handles of an edit exist. -/
def Exists (f : Func) (e : Edit) : Prop :=
  (∀ b ∈ e.blocks, b < f.blocks.size) ∧ ∀ i ∈ e.insts, i < f.insts.size

instance (f : Func) (e : Edit) : Decidable (e.Exists f) := inferInstanceAs (Decidable (_ ∧ _))

end Edit

/-- An insertion before an instruction inserts into the block that holds it. -/
theorem insertBefore?_eq_some {f g : Func} {anchor i : InstId} {d : Draft}
    (h : f.insertBefore? anchor d = some (i, g)) :
    ∃ b pos, f.owner anchor = some b ∧ (i, g) = f.insertInst b pos d := by
  simp only [insertBefore?, Option.bind_eq_bind, Option.bind_eq_some_iff, Option.pure_def,
    Option.some.injEq] at h
  obtain ⟨b, hb, pos, _, h⟩ := h
  exact ⟨b, pos, hb, h.symm⟩

/-- Every edit keeps a function linked. -/
theorem Linked.apply {f : Func} (h : f.Linked) (e : Edit) (he : e.Exists f) :
    (e.apply f).Linked := by
  have hblock : ∀ b ∈ e.blocks, b < f.blocks.size := he.1
  cases e with
  | addBlock name => exact h.addBlockAt name _
  | addBlockBefore name before => exact h.addBlockAt name _
  | addBlockAfter name after => exact h.addBlockAt name _
  | addConstant ty l => exact h.congr rfl rfl fun _ => rfl
  | appendInst b d => exact h.insertInst (hblock b (List.mem_singleton_self b)) _ d
  | insertInst b pos d => exact h.insertInst (hblock b (List.mem_singleton_self b)) pos d
  | insertBefore anchor d =>
    rw [Edit.apply]
    split
    · rename_i i g hg
      obtain ⟨b, pos, hown, heq⟩ := insertBefore?_eq_some hg
      cases heq
      exact h.insertInst (lt_blocks_size ((h.owner_iff anchor b).mp hown)) pos d
    · exact h
  | insertBeforeTerminator b d => exact h.insertInst (hblock b (List.mem_singleton_self b)) _ d
  | insertPhi b incoming ty name => exact h.insertInst (hblock b (List.mem_singleton_self b)) _ _
  | replaceUses old new => exact h.modifyOps _ _
  | eraseInst i => exact h.eraseInst i
  | eraseBlock b => exact h.eraseBlock b
  | moveBlockBefore b before => exact h.moveBlockBefore (hblock b (List.mem_singleton_self b)) before
  | retarget b source target => exact h.retarget b source target
  | renamePredecessor b old new => exact h.modifyOps _ _
  | setIncoming phi pred value =>
    rw [Edit.apply, setIncoming]
    exact h.modifyOp _ _
  | addIncoming phi value pred =>
    rw [Edit.apply, addIncoming]
    exact h.modifyOp _ _

/-- The functions that edits make of an empty one. -/
inductive Built : Func → Prop
  | declare (name : String) (params : Array Param) (ret : TyId) : Built (declare name params ret)
  | edit {f : Func} (h : Built f) (e : Edit) (he : e.Exists f) : Built (e.apply f)

theorem Built.linked {f : Func} (h : Built f) : f.Linked := by
  induction h with
  | declare name params ret => exact .declare name params ret
  | edit _ e he ih => exact ih.apply e he

/-! ## Live instructions -/

namespace Linked

variable {f : Func} {i : InstId} {b : BlockId}

theorem isLiveInst_iff (h : f.Linked) : f.isLiveInst i = true ↔ i ∈ f.liveInsts := by
  rw [liveInsts, List.mem_flatMap, isLiveInst]
  cases hown : f.owner i with
  | none =>
    have hnot : ∀ b, i ∉ f.body b := fun b hmem => by
      rw [(h.owner_iff i b).mpr hmem] at hown
      cases hown
    simp [hnot]
  | some c =>
    have hmem : ∀ b, i ∈ f.body b ↔ c = b := fun b => by
      rw [← h.owner_iff, hown, Option.some.injEq]
    simp [hmem, isLiveBlock]

theorem nodup_liveInsts (h : f.Linked) : f.liveInsts.Nodup := by
  refine List.nodup_flatMap.mpr ⟨fun b _ => h.nodup_body b, h.nodup_layout.imp fun hne => ?_⟩
  exact fun i hb hc => hne (h.eq_of_mem hb hc)

theorem lt_of_mem_liveInsts (h : f.Linked) (hi : i ∈ f.liveInsts) : i < f.insts.size := by
  obtain ⟨b, _, hb⟩ := List.mem_flatMap.mp hi
  exact h.lt_of_mem hb

theorem instCount_eq (h : f.Linked) :
    f.instCount = ((List.range f.insts.size).filter f.isLiveInst).length := by
  have hperm : f.liveInsts.Perm ((List.range f.insts.size).filter f.isLiveInst) := by
    refine (List.perm_ext_iff_of_nodup h.nodup_liveInsts (List.nodup_range.filter _)).mpr fun i => ?_
    rw [List.mem_filter, List.mem_range, h.isLiveInst_iff]
    exact ⟨fun hi => ⟨h.lt_of_mem_liveInsts hi, hi⟩, fun hi => hi.2⟩
  rw [← hperm.length_eq, instCount, liveInsts, List.length_flatMap]

/-- The phis that are left have no entry for an erased block. -/
theorem not_mem_incoming_eraseBlock (h : f.Linked) (hi : i ∈ (f.eraseBlock b).liveInsts)
    {incoming : List (Operand × BlockId)} (hop : (f.eraseBlock b).op i = .phi incoming) :
    ∀ e ∈ incoming, e.2 ≠ b := by
  have hd := h.detachBlock b
  have hlive : (f.eraseBlock b).liveInsts = (f.detachBlock b).liveInsts := by
    have hr := relinked_dropIncoming b (f.detachBlock b).liveInsts (f.detachBlock b)
    rw [eraseBlock_eq, liveInsts, layout_modifyOps, funext hr.body_eq, liveInsts]
  rw [hlive] at hi
  have hdrop : (f.eraseBlock b).op i = dropIncoming b ((f.detachBlock b).op i) := by
    rw [eraseBlock_eq, op, inst_modifyOps (dropIncoming_dropIncoming b) _ _
      (hd.lt_of_mem_liveInsts hi), if_pos hi]
  rw [hdrop] at hop
  cases ho : (f.detachBlock b).op i with
  | phi old =>
    rw [ho] at hop
    cases hop
    intro e he
    simpa using (List.mem_filter.mp he).2
  | _ =>
    rw [ho] at hop
    cases hop

/-- Replacing the uses of an operand leaves the live instructions and changes the operands of each
of them. -/
theorem mem_users_replaceUses (h : f.Linked) {old new : Operand} (hne : old ≠ new) (v : Operand) :
    i ∈ (f.replaceUses old new).users v ↔
      i ∈ f.liveInsts ∧ ∃ u ∈ (f.op i).operands, (if u = old then new else u) = v := by
  have hlive : (f.replaceUses old new).liveInsts = f.liveInsts := by
    have hbody (b : BlockId) : (f.replaceUses old new).body b = f.body b := by
      rw [body, block, replaceUses, (modifyOps_shape _ _ f).2.1]
      rfl
    rw [liveInsts, funext hbody, replaceUses, layout_modifyOps, liveInsts]
  rw [users, hlive, List.mem_filter, List.contains_iff_mem]
  refine and_congr_right fun hi => ?_
  rw [op, inst_replaceUses f hne.symm (h.lt_of_mem_liveInsts hi), if_pos hi,
    Op.operands_mapOperands, List.mem_map]

end Linked

theorem mem_users {f : Func} {i : InstId} {v : Operand} :
    i ∈ f.users v ↔ i ∈ f.liveInsts ∧ v ∈ (f.op i).operands := by
  rw [users, List.mem_filter, List.contains_iff_mem]

/-- What edits keep, and what holds right after two of them. -/
structure Consistent (f : Func) : Prop where
  /-- No block is in the layout twice. -/
  nodup_layout : f.layout.Nodup
  /-- An instruction records the block that lists it. -/
  owner_iff : ∀ i b, f.owner i = some b ↔ i ∈ f.body b
  /-- It is listed there once, and in no other block. -/
  listed_once : ∀ i b, i ∈ f.body b → (f.body b).count i = 1 ∧ ∀ c, i ∈ f.body c → c = b
  /-- The instructions that are counted are those whose block is live. -/
  instCount_eq : f.instCount = ((List.range f.insts.size).filter f.isLiveInst).length
  /-- An erased block is not in the layout, and no live phi has an entry for it. -/
  erased : ∀ b, b ∉ (f.eraseBlock b).layout ∧ ∀ i ∈ (f.eraseBlock b).liveInsts,
    ∀ incoming, (f.eraseBlock b).op i = .phi incoming → ∀ e ∈ incoming, e.2 ≠ b
  /-- A replaced operand has no users, and its users go to the operand that replaces it. -/
  replaced : ∀ old new, old ≠ new → (f.replaceUses old new).users old = [] ∧
    ∀ i, i ∈ (f.replaceUses old new).users new ↔ i ∈ f.users old ∨ i ∈ f.users new

theorem Built.consistent {f : Func} (hf : Built f) : f.Consistent := by
  have h := hf.linked
  constructor
  case nodup_layout => exact h.nodup_layout
  case owner_iff => exact h.owner_iff
  case listed_once =>
    exact fun i b hi => ⟨List.count_eq_one_of_mem (h.nodup_body b) hi, fun c hc => h.eq_of_mem hc hi⟩
  case instCount_eq => exact h.instCount_eq
  case erased =>
    refine fun b => ⟨fun hmem => ?_, fun i hi incoming hop => h.not_mem_incoming_eraseBlock hi hop⟩
    rw [(erased_eraseBlock f b).layout_eq] at hmem
    simpa using (List.mem_filter.mp hmem).2
  case replaced =>
    intro old new hne
    refine ⟨List.eq_nil_iff_forall_not_mem.mpr fun i hi => ?_, fun i => ?_⟩
    · obtain ⟨_, u, _, hu⟩ := (h.mem_users_replaceUses hne old).mp hi
      split at hu
      · exact hne hu.symm
      · contradiction
    · rw [h.mem_users_replaceUses hne, mem_users, mem_users, ← and_or_left]
      refine and_congr_right fun _ => ⟨?_, ?_⟩
      · rintro ⟨u, hu, heq⟩
        split at heq
        · exact .inl (by rwa [← ‹u = old›])
        · exact .inr (heq ▸ hu)
      · rintro (hold | hnew)
        · exact ⟨old, hold, if_pos rfl⟩
        · exact ⟨new, hnew, if_neg hne.symm⟩

/-- A block with a branch and one with phis; the first is erased, put back, and filled again. -/
theorem Built.consistent_refilled :
    Consistent ([.addBlock "a", .addBlock "b", .appendInst 0 ⟨.br 1, 0, none⟩,
      .insertPhi 1 [(.param 0, 0)] 1 none, .insertBefore 1 ⟨.phi [], 1, none⟩, .eraseBlock 0,
      .replaceUses (.inst 1) (.param 0), .moveBlockBefore 0 1, .insertInst 0 7 ⟨.br 1, 0, none⟩,
      .eraseInst 1].foldl Edit.apply (Func.declare "f" #[⟨"x", 1, false⟩] 0)) := by
  have hempty := Built.declare "f" #[⟨"x", 1, false⟩] 0
  have hblocks := (hempty.edit (.addBlock "a") (by decide)).edit (.addBlock "b") (by decide)
  have hbranch := hblocks.edit (.appendInst 0 ⟨.br 1, 0, none⟩) (by decide)
  have hphis := (hbranch.edit (.insertPhi 1 [(.param 0, 0)] 1 none) (by decide)).edit
    (.insertBefore 1 ⟨.phi [], 1, none⟩) (by decide)
  have herased := (hphis.edit (.eraseBlock 0) (by decide)).edit
    (.replaceUses (.inst 1) (.param 0)) (by decide)
  have hback := (herased.edit (.moveBlockBefore 0 1) (by decide)).edit
    (.insertInst 0 7 ⟨.br 1, 0, none⟩) (by decide)
  exact Built.consistent (hback.edit (.eraseInst 1) (by decide))

end Func

end LoopNest
