import LoopNest.Proofs.Func.Erase
import LoopNest.Proofs.Func.Insert

/-!
# Functions without some blocks

Blocks that are never reached do not matter to a run, but they may branch into the code that a pass
moves or erases, and then the verifier refuses the function.  `Func.Without` relates a function to
the same function without some blocks, whose entries the phis of the other blocks do not have either.

There is one lemma for each edit that passes use: an edit of the blocks that stay can be made with or
without the others.

`Func.Tidied` adds what the listings of the blocks that stay are like: nothing is listed twice, and
there are no calls.  Also the constants are of some kind.  Again there is one lemma for each edit.
-/

namespace LoopNest

namespace Func

/-- A phi without its entries for some blocks; other operations stay. -/
def dropAll (D : List BlockId) : Op → Op
  | .phi incoming => .phi (incoming.filter fun e => e.2 ∉ D)
  | op => op

theorem dropAll_of_not_isPhi {D : List BlockId} {o : Op} (h : o.isPhi = false) : dropAll D o = o := by
  cases o <;> first | rfl | cases h

theorem isPhi_dropAll (D : List BlockId) (o : Op) : (dropAll D o).isPhi = o.isPhi := by
  cases o <;> rfl

theorem mem_operands_of_dropAll {D : List BlockId} {o : Op} {v : Operand}
    (hv : v ∈ (dropAll D o).operands) : v ∈ o.operands := by
  cases o with
  | phi incoming =>
    obtain ⟨x, hx, rfl⟩ := List.mem_map.mp hv
    exact List.mem_map.mpr ⟨x, (List.mem_filter.mp hx).1, rfl⟩
  | _ => exact hv

theorem dropIncoming_dropAll (D : List BlockId) (b : BlockId) (o : Op) :
    dropIncoming b (dropAll D o) = dropAll D (dropIncoming b o) := by
  cases o with
  | phi incoming => simp only [dropAll, dropIncoming, List.filter_filter, Bool.and_comm]
  | _ => rfl

/-- The operations are the same, or both are phis. -/
def Alike (o o' : Op) : Prop := o' = o ∨ o.isPhi = true ∧ o'.isPhi = true

namespace Alike

variable {o o' o'' : Op}

theorem isPhi_eq (h : Alike o o') : o'.isPhi = o.isPhi := by
  rcases h with rfl | ⟨h, h'⟩
  · rfl
  · rw [h, h']

theorem eq_of_not_isPhi (h : Alike o o') (hp : o.isPhi = false) : o' = o :=
  h.resolve_right fun h' => by simp [hp] at h'

theorem isTerminator_eq (h : Alike o o') : o'.isTerminator = o.isTerminator := by
  rcases h with rfl | ⟨h, h'⟩
  · rfl
  · cases o <;> cases h
    cases o' <;> cases h'
    rfl

theorem isCall_eq (h : Alike o o') : o'.isCall = o.isCall := by
  rcases h with rfl | ⟨h, h'⟩
  · rfl
  · cases o <;> cases h
    cases o' <;> cases h'
    rfl

theorem trans (h : Alike o o') (h' : Alike o' o'') : Alike o o'' := by
  rcases h with rfl | ⟨h, _⟩
  · exact h'
  · rcases h' with rfl | ⟨_, h'⟩
    · exact .inr ⟨h, ‹_›⟩
    · exact .inr ⟨h, h'⟩

/-- Both are changed in the same way. -/
theorem map (h : Alike o o') {k : Op → Op} (hk : ∀ o, (k o).isPhi = o.isPhi) :
    Alike (k o) (k o') := by
  rcases h with rfl | ⟨h, h'⟩
  · exact .inl rfl
  · exact .inr ⟨(hk o).trans h, (hk o').trans h'⟩

end Alike

theorem alike_dropAll (D : List BlockId) (o : Op) : Alike o (dropAll D o) := by
  cases o with
  | phi incoming => exact .inr ⟨rfl, rfl⟩
  | _ => exact .inl rfl

/-- Where a block leads to does not depend on phis. -/
theorem successors_of_alike {f g : Func} {b : BlockId} (hbody : g.body b = f.body b)
    (hop : ∀ i ∈ f.body b, Alike (f.op i) (g.op i)) : g.successors b = f.successors b := by
  have hterm : g.terminator? b = f.terminator? b := by
    rw [terminator?, terminator?, hbody]
    cases hlast : (f.body b).getLast? with
    | none => rfl
    | some i =>
      dsimp only
      rw [(hop i (List.mem_of_getLast? hlast)).isTerminator_eq]
  rw [successors, successors, hterm]
  cases ht : f.terminator? b with
  | none => rfl
  | some t =>
    dsimp only
    obtain ⟨hmem, hend⟩ := mem_body_of_terminator ht
    rw [(hop t hmem).eq_of_not_isPhi (Op.not_isPhi_of_isTerminator hend)]

/-- The second function is the first one without some blocks, from which none is reached. -/
structure Without (D : List BlockId) (f g : Func) : Prop where
  outline : SameOutline { f with layout := f.layout.filter (· ∉ D) } g
  blocks_eq : g.blocks = f.blocks
  size_eq : g.insts.size = f.insts.size
  inst_eq : ∀ i, g.inst i = { f.inst i with op := g.op i }
  alike : ∀ i, Alike (f.op i) (g.op i)
  op_eq : ∀ b ∈ g.layout, ∀ i ∈ f.body b, g.op i = dropAll D (f.op i)
  live : ∀ d ∈ D, d ∈ f.layout
  block_lt : ∀ d ∈ D, d < f.blocks.size
  /-- The entries that a phi does not have any more are for predecessors. -/
  sources : ∀ b ∈ g.layout, ∀ i ∈ f.body b, ∀ incoming, f.op i = .phi incoming →
    ∀ e ∈ incoming, e.2 ∈ D → b ∈ f.successors e.2
  body_lt : ∀ b ∈ f.layout, ∀ i ∈ f.body b, i < f.insts.size
  disjoint : ∀ d ∈ D, ∀ b ∈ g.layout, ∀ i ∈ f.body d, i ∉ f.body b

namespace Without

variable {D : List BlockId} {f g : Func} {b : BlockId} {i : InstId}

section

variable (h : Without D f g)
include h

theorem layout_eq : g.layout = f.layout.filter (· ∉ D) := h.outline.layout_eq

theorem params_eq : g.params = f.params := h.outline.params_eq

theorem constants_eq : g.constants = f.constants := h.outline.constants_eq

theorem mem_layout : b ∈ g.layout ↔ b ∈ f.layout ∧ b ∉ D := by
  rw [h.layout_eq, List.mem_filter, decide_eq_true_iff]

theorem block_eq (b : BlockId) : g.block b = f.block b := by
  rw [block, block, h.blocks_eq]

theorem body_eq (b : BlockId) : g.body b = f.body b := by
  rw [body, body, h.block_eq]

theorem ty_eq (i : InstId) : (g.inst i).ty = (f.inst i).ty := by
  rw [h.inst_eq]

theorem owner_eq (i : InstId) : g.owner i = f.owner i := by
  rw [owner, h.inst_eq, owner]

theorem terminator?_eq (b : BlockId) : g.terminator? b = f.terminator? b := by
  rw [terminator?, terminator?, h.body_eq]
  split
  · rw [(h.alike _).isTerminator_eq]
  · rfl

theorem successors_eq (b : BlockId) : g.successors b = f.successors b :=
  successors_of_alike (h.body_eq b) fun i _ => h.alike i

theorem phis_eq (b : BlockId) : g.phis b = f.phis b :=
  phis_congr (h.body_eq b) fun i _ => (h.alike i).isPhi_eq

theorem operandTy_eq (v : Operand) : g.operandTy v = f.operandTy v := by
  cases v with
  | inst i =>
    by_cases hi : i < f.insts.size
    · rw [operandTy_inst hi, operandTy_inst (h.size_eq ▸ hi), h.ty_eq]
    · have hi' : ¬ i < g.insts.size := h.size_eq ▸ hi
      simp [operandTy, Array.getElem?_eq_none (Nat.le_of_not_lt hi),
        Array.getElem?_eq_none (Nat.le_of_not_lt hi'), h.size_eq]
  | param k => rw [operandTy, operandTy, h.params_eq]
  | const c => rw [operandTy, operandTy, h.constants_eq]

theorem tyOf_eq (v : Operand) : g.tyOf v = f.tyOf v := by
  rw [tyOf, tyOf, h.operandTy_eq]

/-- The entries of the phis that stay are the entries for the blocks that stay. -/
theorem predecessors_eq (b : BlockId) : g.predecessors b = (f.predecessors b).filter (· ∉ D) := by
  rw [predecessors, predecessors, h.layout_eq, List.filter_filter, List.filter_filter]
  refine List.filter_congr fun p _ => ?_
  rw [h.successors_eq, Bool.and_comm]

end


/-! ## Edits -/

theorem dropAll_of_sources {o : Op} (h : ∀ incoming, o = .phi incoming → ∀ e ∈ incoming, e.2 ∉ D) :
    dropAll D o = o := by
  cases o with
  | phi incoming =>
    exact congrArg Op.phi (List.filter_eq_self.mpr fun e he => decide_eq_true (h incoming rfl e he))
  | _ => rfl

theorem addConstant (h : Without D f g) (t : TyId) (l : Literal) :
    (g.addConstant t l).1 = (f.addConstant t l).1 ∧
      Without D (f.addConstant t l).2 (g.addConstant t l).2 := by
  refine ⟨by simp [h.constants_eq], ?_⟩
  exact {
    outline := ⟨h.outline.name_eq, h.outline.params_eq, h.outline.ret_eq, by simp [h.constants_eq],
      h.outline.layout_eq⟩
    blocks_eq := h.blocks_eq
    size_eq := h.size_eq
    inst_eq := h.inst_eq
    alike := h.alike
    op_eq := h.op_eq
    live := h.live
    block_lt := h.block_lt
    sources := h.sources
    body_lt := h.body_lt
    disjoint := h.disjoint }

theorem mem_body_insertInst (hb : b < f.blocks.size) {pos : Nat} {d : Draft} {c : BlockId}
    (hi : i ∈ (f.insertInst b pos d).2.body c) : i ∈ f.body c ∨ i = f.insts.size ∧ c = b := by
  rw [body_insertInst f pos d hb] at hi
  split at hi
  · rename_i hc
    subst hc
    exact (mem_placeAt.mp hi).symm.imp_right fun heq => ⟨heq, rfl⟩
  · exact .inl hi

theorem insertInst (h : Without D f g) (hb : b < f.blocks.size) (hout : b ∉ D) (pos : Nat)
    (d : Draft) (hd : ∀ incoming, d.op = .phi incoming → ∀ e ∈ incoming, e.2 ∉ D) :
    (g.insertInst b pos d).1 = (f.insertInst b pos d).1 ∧
      Without D (f.insertInst b pos d).2 (g.insertInst b pos d).2 := by
  have hop : ∀ (k : Func) j, op (k.insertInst b pos d).2 j =
      if j = k.insts.size then d.op else k.op j := fun k j => by
    rw [op, inst_insertInst]
    split <;> rfl
  have hold : ∀ {c j}, c ∈ f.layout → j ∈ f.body c → op (f.insertInst b pos d).2 j = f.op j :=
    fun hc hj => by rw [hop, if_neg (Nat.ne_of_lt (h.body_lt _ hc _ hj))]
  have hsucc : ∀ e ∈ D, (f.insertInst b pos d).2.successors e = f.successors e := fun e he => by
    refine successors_congr ?_ fun j hj => hold (h.live e he) hj
    rw [body_insertInst f pos d hb, if_neg fun heq : e = b => hout (heq ▸ he)]
  refine ⟨h.size_eq, ?_⟩
  constructor
  case outline =>
    exact ⟨h.outline.name_eq, h.outline.params_eq, h.outline.ret_eq, h.outline.constants_eq,
      h.outline.layout_eq⟩
  case blocks_eq =>
    simp only [Func.insertInst, modifyBlock, h.blocks_eq, h.size_eq]
  case size_eq => simp [h.size_eq]
  case inst_eq =>
    intro j
    rw [hop, inst_insertInst, inst_insertInst, h.size_eq]
    split
    · rfl
    · exact h.inst_eq j
  case alike =>
    intro j
    rw [hop, hop, h.size_eq]
    split
    · exact .inl rfl
    · exact h.alike j
  case op_eq =>
    intro c hc j hj
    have hc' := (h.mem_layout.mp hc).1
    rcases mem_body_insertInst hb hj with hj | ⟨rfl, rfl⟩
    · rw [hold hc' hj, hop, h.size_eq, if_neg (Nat.ne_of_lt (h.body_lt _ hc' _ hj)),
        h.op_eq c hc j hj]
    · rw [hop, hop, h.size_eq, if_pos rfl, if_pos rfl, dropAll_of_sources hd]
  case live => exact h.live
  case block_lt =>
    rw [blocks_size_insertInst]
    exact h.block_lt
  case sources =>
    intro c hc j hj incoming hphi e he hdead
    rw [hsucc _ hdead]
    rcases mem_body_insertInst hb hj with hj | ⟨rfl, rfl⟩
    · rw [hold (h.mem_layout.mp hc).1 hj] at hphi
      exact h.sources c hc j hj incoming hphi e he hdead
    · rw [hop, if_pos rfl] at hphi
      exact absurd hdead (hd incoming hphi e he)
  case body_lt =>
    intro c hc j hj
    rw [insts_size_insertInst]
    rcases mem_body_insertInst hb hj with hj | ⟨rfl, _⟩
    · exact Nat.lt_succ_of_lt (h.body_lt c hc j hj)
    · exact Nat.lt_succ_self _
  case disjoint =>
    intro e he c hc j hj hj'
    have hne : e ≠ b := fun heq => hout (heq ▸ he)
    have hj := (mem_body_insertInst hb hj).resolve_right fun hnew => hne hnew.2
    rcases mem_body_insertInst hb hj' with hj' | ⟨rfl, _⟩
    · exact h.disjoint e he c hc j hj hj'
    · exact Nat.lt_irrefl _ (h.body_lt e (h.live e he) _ hj)

theorem appendInst (h : Without D f g) (hb : b < f.blocks.size) (hout : b ∉ D) (d : Draft)
    (hd : ∀ incoming, d.op = .phi incoming → ∀ e ∈ incoming, e.2 ∉ D) :
    (g.appendInst b d).1 = (f.appendInst b d).1 ∧
      Without D (f.appendInst b d).2 (g.appendInst b d).2 := by
  rw [Func.appendInst, Func.appendInst, h.body_eq]
  exact h.insertInst hb hout _ d hd

theorem insertBeforeTerminator (h : Without D f g) (hb : b < f.blocks.size) (hout : b ∉ D)
    (d : Draft) (hd : ∀ incoming, d.op = .phi incoming → ∀ e ∈ incoming, e.2 ∉ D) :
    (g.insertBeforeTerminator b d).1 = (f.insertBeforeTerminator b d).1 ∧
      Without D (f.insertBeforeTerminator b d).2 (g.insertBeforeTerminator b d).2 := by
  rw [Func.insertBeforeTerminator, Func.insertBeforeTerminator, h.body_eq, h.terminator?_eq]
  exact h.insertInst hb hout _ d hd


theorem filter_placeAt_before {q : BlockId → Bool} {b c : BlockId} (hb : q b = true)
    (hc : q c = true) : ∀ layout : List BlockId,
    (placeAt layout ((layout.findIdx? (· = b)).getD layout.length) c).filter q =
      placeAt (layout.filter q) (((layout.filter q).findIdx? (· = b)).getD (layout.filter q).length) c
  | [] => by simp [placeAt, hc]
  | x :: layout => by
    have ih := filter_placeAt_before hb hc layout
    have hstep (l : List BlockId) (hx : x ≠ b) :
        placeAt (x :: l) (((x :: l).findIdx? (· = b)).getD (x :: l).length) c =
          x :: placeAt l ((l.findIdx? (· = b)).getD l.length) c := by
      cases hl : l.findIdx? (· = b) <;> simp [placeAt, List.findIdx?_cons, hx, hl]
    by_cases hx : x = b
    · subst hx
      simp [placeAt, List.findIdx?_cons, hb, hc]
    · rw [hstep layout hx]
      cases hq : q x with
      | true => rw [List.filter_cons_of_pos hq, List.filter_cons_of_pos hq, hstep _ hx, ih]
      | false =>
        rw [List.filter_cons_of_neg (by simp [hq]), List.filter_cons_of_neg (by simp [hq]), ih]

theorem addBlockBefore (h : Without D f g) (hb : b ∉ D) (name : String) :
    (g.addBlockBefore name b).1 = (f.addBlockBefore name b).1 ∧
      Without D (f.addBlockBefore name b).2 (g.addBlockBefore name b).2 := by
  have hnew : f.blocks.size ∉ D := fun hmem => Nat.lt_irrefl _ (h.block_lt _ hmem)
  have hbody (k : Func) (c : BlockId) : body (k.addBlockBefore name b).2 c = k.body c :=
    k.body_addBlockBefore name b c
  have hlayout : layout (g.addBlockBefore name b).2 =
      (layout (f.addBlockBefore name b).2).filter (· ∉ D) := by
    change placeAt g.layout ((g.position? b).getD g.layout.length) g.blocks.size =
      (placeAt f.layout ((f.position? b).getD f.layout.length) f.blocks.size).filter (· ∉ D)
    rw [position?, position?, filter_placeAt_before (decide_eq_true hb) (decide_eq_true hnew),
      h.layout_eq, h.blocks_eq]
  have hempty : f.body f.blocks.size = [] := by simp [body, block, Block.fresh]
  -- What a block lists, it listed before.
  have hmem : ∀ c ∈ layout (g.addBlockBefore name b).2, ∀ j ∈ f.body c, c ∈ g.layout :=
    fun c hc j hj => by
      rcases mem_layout_addBlockBefore g name b |>.mp hc with rfl | hc
      · rw [h.blocks_eq, hempty] at hj
        cases hj
      · exact hc
  refine ⟨congrArg Array.size h.blocks_eq, ?_⟩
  constructor
  case outline =>
    exact ⟨h.outline.name_eq, h.outline.params_eq, h.outline.ret_eq, h.outline.constants_eq, hlayout⟩
  case blocks_eq => exact congrArg (Array.push · _) h.blocks_eq
  case size_eq => exact h.size_eq
  case inst_eq => exact h.inst_eq
  case alike => exact h.alike
  case op_eq =>
    intro c hc j hj
    rw [hbody] at hj
    exact h.op_eq c (hmem c hc j hj) j hj
  case live => exact fun d hd => (mem_layout_addBlockBefore f name b).mpr (.inr (h.live d hd))
  case block_lt =>
    intro d hd
    rw [blocks_size_addBlockBefore]
    exact Nat.lt_succ_of_lt (h.block_lt d hd)
  case sources =>
    intro c hc j hj incoming hphi e he hdead
    rw [hbody] at hj
    rw [successors_congr (hbody f e.2) fun _ _ => rfl]
    exact h.sources c (hmem c hc j hj) j hj incoming hphi e he hdead
  case body_lt =>
    intro c hc j hj
    rw [hbody] at hj
    rcases mem_layout_addBlockBefore f name b |>.mp hc with rfl | hc
    · rw [hempty] at hj
      cases hj
    · exact h.body_lt c hc j hj
  case disjoint =>
    intro d hd c hc j hj hj'
    rw [hbody] at hj hj'
    exact h.disjoint d hd c (hmem c hc j hj') j hj hj'

/-- The operation of one instruction is changed. -/
theorem modifyOp (h : Without D f g) (i : InstId) {k : Op → Op} (hk : ∀ o, (k o).isPhi = o.isPhi)
    (hdrop : k (dropAll D (f.op i)) = dropAll D (k (f.op i)))
    (hdead : ∀ d ∈ D, i ∈ f.body d → Alike (f.op i) (k (f.op i)))
    (hsources : ∀ incoming', k (f.op i) = .phi incoming' → ∀ e ∈ incoming', e.2 ∈ D →
      ∃ incoming, f.op i = .phi incoming ∧ ∃ e' ∈ incoming, e'.2 = e.2) :
    Without D (f.modifyOp i k) (g.modifyOp i k) := by
  by_cases hi : i < f.insts.size
  swap
  · have hout {k' : Func} (hs : k'.insts.size = f.insts.size) : k'.modifyOp i k = k' := by
      have : k'.insts.modify i (fun x => { x with op := k x.op }) = k'.insts :=
        Array.ext (Array.size_modify ..) fun j hj hj' => by
          rw [Array.getElem_modify, if_neg fun heq => hi (by rw [heq, ← hs]; exact hj')]
      rw [Func.modifyOp, modifyInst, this]
    rw [hout rfl, hout h.size_eq]
    exact h
  have hop {k' : Func} (hs : k'.insts.size = f.insts.size) (j : InstId) :
      (k'.modifyOp i k).op j = if i = j then k (k'.op j) else k'.op j :=
    k'.op_modifyOp (hs.symm ▸ hi) j k
  have hsucc : ∀ d ∈ D, (f.modifyOp i k).successors d = f.successors d := fun d hd => by
    refine successors_of_alike rfl fun j hj => ?_
    rw [hop rfl]
    split
    · rename_i heq
      subst heq
      exact hdead d hd hj
    · exact .inl rfl
  constructor
  case outline => exact ⟨h.outline.name_eq, h.outline.params_eq, h.outline.ret_eq,
    h.outline.constants_eq, h.outline.layout_eq⟩
  case blocks_eq => exact h.blocks_eq
  case size_eq => simp [h.size_eq]
  case inst_eq =>
    intro j
    have hinst (k' : Func) : (k'.modifyOp i k).inst j =
        { k'.inst j with op := (k'.modifyOp i k).op j } := by
      simp only [op, Func.modifyOp, inst_modifyInst]
      split <;> rfl
    rw [hinst g, hinst f, h.inst_eq]
  case alike =>
    intro j
    rw [hop rfl, hop h.size_eq]
    split
    · exact (h.alike j).map hk
    · exact h.alike j
  case op_eq =>
    intro c hc j hj
    rw [hop rfl, hop h.size_eq, h.op_eq c hc j hj]
    split
    · rename_i heq
      subst heq
      exact hdrop
    · rfl
  case live => exact h.live
  case block_lt => exact h.block_lt
  case sources =>
    intro c hc j hj incoming hphi e he hin
    rw [hsucc _ hin]
    rw [hop rfl] at hphi
    split at hphi
    · rename_i heq
      subst heq
      obtain ⟨incoming', hphi', e', he', heq⟩ := hsources incoming hphi e he hin
      rw [← heq]
      exact h.sources c hc i hj incoming' hphi' e' he' (heq ▸ hin)
    · exact h.sources c hc j hj incoming hphi e he hin
  case body_lt =>
    intro c hc j hj
    rw [insts_size_modifyOp]
    exact h.body_lt c hc j hj
  case disjoint => exact h.disjoint

theorem retarget (h : Without D f g) (hb : b ∈ g.layout) (source target : BlockId) :
    Without D (f.retarget b source target) (g.retarget b source target) := by
  rw [Func.retarget, Func.retarget, h.terminator?_eq]
  cases ht : f.terminator? b with
  | none => exact h
  | some t =>
    obtain ⟨hmem, hend⟩ := mem_body_of_terminator ht
    have hphi := Op.not_isPhi_of_isTerminator hend
    refine h.modifyOp t (isPhi_retarget source target) ?_ (fun d hd hdead => ?_)
      fun incoming hop => ?_
    · rw [dropAll_of_not_isPhi hphi,
        dropAll_of_not_isPhi ((isPhi_retarget source target _).trans hphi)]
    · exact absurd hmem (h.disjoint d hd b hb t hdead)
    · have := (isPhi_retarget source target (f.op t)).trans hphi
      rw [hop] at this
      cases this

/-- The entries of a phi are changed one by one. -/
theorem modifyPhi (h : Without D f g) (i : InstId) {k : Op → Op}
    (m : Operand × BlockId → Operand × BlockId)
    (hphi : ∀ incoming, k (.phi incoming) = .phi (incoming.map m))
    (hother : ∀ o, o.isPhi = false → k o = o)
    (hm : ∀ e, (m e).2 = e.2 ∨ (m e).2 ∉ D ∧ e.2 ∉ D) :
    Without D (f.modifyOp i k) (g.modifyOp i k) := by
  have hisPhi (o : Op) : (k o).isPhi = o.isPhi := by
    cases hp : o.isPhi with
    | false => rw [hother o hp, hp]
    | true =>
      cases o <;> cases hp
      rw [hphi]
      rfl
  refine h.modifyOp i hisPhi ?_ (fun _ _ _ => ?_) fun incoming' hop e he hin => ?_
  · cases hp : (f.op i).isPhi with
    | false =>
      rw [dropAll_of_not_isPhi hp, hother _ hp, dropAll_of_not_isPhi hp]
    | true =>
      cases ho : f.op i <;> rw [ho] at hp <;> cases hp
      rename_i incoming
      rw [dropAll, hphi, hphi, dropAll, List.filter_map]
      refine congrArg (fun l => Op.phi (l.map m)) (List.filter_congr fun e _ => ?_)
      rcases hm e with heq | ⟨h₁, h₂⟩
      · simp [heq]
      · simp [h₁, h₂]
  · cases hp : (f.op i).isPhi with
    | false => exact .inl (hother _ hp)
    | true => exact .inr ⟨hp, (hisPhi _).trans hp⟩
  · cases ho : f.op i with
    | phi incoming =>
      rw [ho, hphi] at hop
      cases hop
      obtain ⟨e', he', rfl⟩ := List.mem_map.mp he
      exact ⟨incoming, rfl, e', he', ((hm e').resolve_right fun hno => hno.1 hin).symm⟩
    | _ =>
      rw [ho, hother _ rfl] at hop
      cases hop

theorem setIncoming (h : Without D f g) (phi : InstId) (pred : BlockId) (v : Operand) :
    Without D (f.setIncoming phi pred v) (g.setIncoming phi pred v) := by
  refine h.modifyPhi phi (fun e => (if e.2 = pred then v else e.1, e.2)) (fun _ => rfl)
    (fun o ho => ?_) fun _ => .inl rfl
  cases o <;> first | rfl | cases ho

theorem renamePredecessor (h : Without D f g) {old new : BlockId} (hold : old ∉ D) (hnew : new ∉ D)
    (b : BlockId) : Without D (f.renamePredecessor b old new) (g.renamePredecessor b old new) := by
  rw [Func.renamePredecessor, Func.renamePredecessor, h.phis_eq]
  generalize f.phis b = is
  induction is generalizing f g with
  | nil => exact h
  | cons i is ih =>
    refine ih (h.modifyPhi i (fun e => (e.1, if e.2 = old then new else e.2)) (fun _ => rfl)
      (fun o ho => ?_) fun e => ?_)
    · cases o <;> first | rfl | cases ho
    · by_cases he : e.2 = old
      · exact .inr ⟨by simpa [he] using hnew, he ▸ hold⟩
      · exact .inl (if_neg he)

theorem modifyBlock (h : Without D f g) (b : BlockId) {k : Block → Block}
    (hk : ∀ x, (k x).insts = x.insts) : Without D (f.modifyBlock b k) (g.modifyBlock b k) := by
  have hbody (f : Func) (c : BlockId) : (f.modifyBlock b k).body c = f.body c := by
    rw [body_modifyBlock]
    split
    · exact hk _
    · rfl
  constructor
  case outline => exact ⟨h.outline.name_eq, h.outline.params_eq, h.outline.ret_eq,
    h.outline.constants_eq, h.outline.layout_eq⟩
  case blocks_eq => simp only [Func.modifyBlock, h.blocks_eq]
  case size_eq => exact h.size_eq
  case inst_eq => exact h.inst_eq
  case alike => exact h.alike
  case op_eq =>
    intro c hc j hj
    rw [hbody] at hj
    exact h.op_eq c hc j hj
  case live => exact h.live
  case block_lt =>
    intro d hd
    simpa [Func.modifyBlock] using h.block_lt d hd
  case sources =>
    intro c hc j hj incoming hphi e he hin
    rw [hbody] at hj
    rw [successors_congr (hbody f e.2) fun _ _ => rfl]
    exact h.sources c hc j hj incoming hphi e he hin
  case body_lt =>
    intro c hc j hj
    rw [hbody] at hj
    exact h.body_lt c hc j hj
  case disjoint =>
    intro d hd c hc j hj
    rw [hbody] at hj ⊢
    exact h.disjoint d hd c hc j hj


theorem detachBlock (h : Without D f g) (hb : b ∉ D) :
    Without D (f.detachBlock b) (g.detachBlock b) := by
  have hop (k : Func) (j : InstId) : (k.detachBlock b).op j = k.op j := by
    rw [op, inst_detachBlock]
    rfl
  have hbody {c : BlockId} {j : InstId} (hj : j ∈ (f.detachBlock b).body c) : j ∈ f.body c := by
    rw [body_detachBlock] at hj
    split at hj
    · cases hj
    · exact hj
  have hlayout (k : Func) : (k.detachBlock b).layout = k.layout.filter (· ≠ b) :=
    (sameOutline_detachBlock k b).layout_eq
  have hlive {c : BlockId} (hc : c ∈ (g.detachBlock b).layout) : c ∈ g.layout := by
    rw [hlayout] at hc
    exact (List.mem_filter.mp hc).1
  have hf := sameOutline_detachBlock f b
  have hg := sameOutline_detachBlock g b
  constructor
  case outline =>
    refine ⟨?_, ?_, ?_, ?_, ?_⟩
    · exact (hg.name_eq.trans h.outline.name_eq).trans hf.name_eq.symm
    · exact (hg.params_eq.trans h.outline.params_eq).trans hf.params_eq.symm
    · exact (hg.ret_eq.trans h.outline.ret_eq).trans hf.ret_eq.symm
    · exact (hg.constants_eq.trans h.outline.constants_eq).trans hf.constants_eq.symm
    · dsimp only
      rw [hlayout, hlayout, h.layout_eq, List.filter_filter, List.filter_filter]
      exact List.filter_congr fun c _ => Bool.and_comm _ _
  case blocks_eq =>
    rw [blocks_detachBlock, blocks_detachBlock]
    simp only [Func.modifyBlock, h.blocks_eq]
  case size_eq => rw [insts_size_detachBlock, insts_size_detachBlock, h.size_eq]
  case inst_eq =>
    intro j
    rw [hop, inst_detachBlock, inst_detachBlock, h.inst_eq, h.body_eq, h.owner_eq]
  case alike =>
    intro j
    rw [hop, hop]
    exact h.alike j
  case op_eq =>
    intro c hc j hj
    rw [hop, hop]
    exact h.op_eq c (hlive hc) j (hbody hj)
  case live =>
    intro d hd
    rw [hlayout]
    exact List.mem_filter.mpr ⟨h.live d hd, by simpa using fun heq : d = b => hb (heq ▸ hd)⟩
  case block_lt =>
    intro d hd
    rw [blocks_detachBlock]
    simpa [Func.modifyBlock] using h.block_lt d hd
  case sources =>
    intro c hc j hj incoming hphi e he hin
    rw [hop] at hphi
    have hne : e.2 ≠ b := fun heq => hb (heq ▸ hin)
    rw [successors_congr (by rw [body_detachBlock, if_neg hne]) fun _ _ => hop f _]
    exact h.sources c (hlive hc) j (hbody hj) incoming hphi e he hin
  case body_lt =>
    intro c hc j hj
    rw [hlayout] at hc
    rw [insts_size_detachBlock]
    exact h.body_lt c (List.mem_filter.mp hc).1 j (hbody hj)
  case disjoint =>
    exact fun d hd c hc j hj hj' => h.disjoint d hd c (hlive hc) j (hbody hj) (hbody hj')

/-- Entries for a block are dropped, from the phis of the blocks that stay at least. -/
theorem dropIncoming (h : Without D f g) (b : BlockId) {is is' : List InstId}
    (his : ∀ c ∈ g.layout, ∀ i ∈ f.body c, i ∈ is ∧ i ∈ is') :
    Without D (f.modifyOps is (Func.dropIncoming b)) (g.modifyOps is' (Func.dropIncoming b)) := by
  obtain ⟨houtf, hblocksf, hsizef⟩ := modifyOps_shape (Func.dropIncoming b) is f
  obtain ⟨houtg, hblocksg, hsizeg⟩ := modifyOps_shape (Func.dropIncoming b) is' g
  have hpruned (k : Func) (l : List InstId) (j : InstId) :=
    @modifyOps_pruned b (fun _ => False) id l k j
  have halike (k : Func) (l : List InstId) (j : InstId) :
      Alike (k.op j) ((k.modifyOps l (Func.dropIncoming b)).op j) := by
    rcases hpruned k l j with heq | ⟨_, _, hop, hop', _⟩
    · exact .inl heq
    · exact .inr ⟨by rw [hop]; rfl, by rw [hop']; rfl⟩
  have hinst (k : Func) (l : List InstId) (j : InstId) :
      (k.modifyOps l (Func.dropIncoming b)).inst j =
        { k.inst j with op := (k.modifyOps l (Func.dropIncoming b)).op j } := by
    induction l generalizing k with
    | nil => rfl
    | cons i l ih =>
      refine (ih (k.modifyOp i (Func.dropIncoming b))).trans ?_
      simp only [Func.modifyOp, inst_modifyInst]
      split <;> rfl
  have hbody (c : BlockId) : (f.modifyOps is (Func.dropIncoming b)).body c = f.body c := by
    rw [body, block, hblocksf, ← block, ← body]
  have hlayout : (g.modifyOps is' (Func.dropIncoming b)).layout = g.layout := houtg.layout_eq
  have hop {k : Func} {l : List InstId} {j : InstId} (hj : j ∈ l) (hlt : j < k.insts.size) :
      (k.modifyOps l (Func.dropIncoming b)).op j = Func.dropIncoming b (k.op j) := by
    rw [op, inst_modifyOps (dropIncoming_dropIncoming b) l k hlt, if_pos hj]
  constructor
  case outline =>
    refine ⟨?_, ?_, ?_, ?_, ?_⟩
    · exact (houtg.name_eq.trans h.outline.name_eq).trans houtf.name_eq.symm
    · exact (houtg.params_eq.trans h.outline.params_eq).trans houtf.params_eq.symm
    · exact (houtg.ret_eq.trans h.outline.ret_eq).trans houtf.ret_eq.symm
    · exact (houtg.constants_eq.trans h.outline.constants_eq).trans houtf.constants_eq.symm
    · dsimp only
      rw [hlayout, houtf.layout_eq, h.layout_eq]
  case blocks_eq => rw [hblocksf, hblocksg, h.blocks_eq]
  case size_eq => rw [hsizef, hsizeg, h.size_eq]
  case inst_eq =>
    intro j
    rw [hinst g, hinst f, h.inst_eq]
  case alike =>
    intro j
    rcases halike f is j with heq | hphis
    · rw [heq]
      exact (h.alike j).trans (halike g is' j)
    · have := (halike g is' j).isPhi_eq.trans ((h.alike j).isPhi_eq.trans hphis.1)
      exact .inr ⟨hphis.2, this⟩
  case op_eq =>
    intro c hc j hj
    rw [hlayout] at hc
    rw [hbody] at hj
    have hlt := h.body_lt c (h.mem_layout.mp hc).1 j hj
    rw [hop (his c hc j hj).1 hlt, hop (his c hc j hj).2 (h.size_eq ▸ hlt), h.op_eq c hc j hj,
      dropIncoming_dropAll]
  case live =>
    rw [houtf.layout_eq]
    exact h.live
  case block_lt =>
    rw [hblocksf]
    exact h.block_lt
  case sources =>
    intro c hc j hj incoming hphi e he hin
    rw [hlayout] at hc
    rw [hbody] at hj
    rw [successors_of_alike (hbody e.2) fun i _ => halike f is i]
    rcases hpruned f is j with heq | ⟨incoming', stays, hop', hnew, _⟩
    · exact h.sources c hc j hj incoming (heq ▸ hphi) e he hin
    · rw [hnew] at hphi
      cases hphi
      exact h.sources c hc j hj incoming' hop' e (List.mem_filter.mp he).1 hin
  case body_lt =>
    rw [houtf.layout_eq, hsizef]
    intro c hc j hj
    exact h.body_lt c hc j (hbody c ▸ hj)
  case disjoint =>
    rw [hlayout]
    intro d hd c hc j hj
    rw [hbody] at hj ⊢
    exact h.disjoint d hd c hc j hj

theorem eraseBlock (h : Without D f g) (hb : b ∉ D) : Without D (f.eraseBlock b) (g.eraseBlock b) := by
  have hd := h.detachBlock hb
  rw [eraseBlock_eq, eraseBlock_eq]
  refine hd.dropIncoming b fun c hc i hi => ⟨?_, ?_⟩
  · exact List.mem_flatMap.mpr ⟨c, (hd.mem_layout.mp hc).1, hi⟩
  · exact List.mem_flatMap.mpr ⟨c, hc, (hd.body_eq c).symm ▸ hi⟩

end Without

/-! ## Tidy functions -/

/-- The second function is the first one without some blocks.  It lists nothing twice, makes no
calls, and its constants are of some kind. -/
structure Tidied (D : List BlockId) (P : Constant → Prop) (f g : Func) : Prop
    extends Without D f g where
  listedOnce : g.ListedOnce
  uncalled : ∀ b ∈ g.layout, ∀ i ∈ g.body b, (g.op i).isCall = false
  constants : ∀ x ∈ g.constants, P x

namespace Tidied

variable {D : List BlockId} {P : Constant → Prop} {f g f' g' : Func} {b : BlockId}
  (h : Tidied D P f g)

include h

theorem callFree : g.CallFree := fun b hb i hi => Op.isCall_eq_false.mp (h.uncalled b hb i hi)

/-- Blocks may be emptied or taken away, and operations changed into others that are no calls. -/
theorem congr (hw : Without D f' g')
    (hbody : ∀ c ∈ g'.layout, g'.body c = [] ∨ c ∈ g.layout ∧ g'.body c = g.body c)
    (hcall : ∀ i, (g'.op i).isCall = (g.op i).isCall) (hconst : g'.constants = g.constants) :
    Tidied D P f' g' where
  toWithout := hw
  listedOnce c hc := by
    rcases hbody c hc with hnil | ⟨hc, heq⟩
    · rw [hnil]
      exact .nil
    · rw [heq]
      exact h.listedOnce c hc
  uncalled c hc i hi := by
    rcases hbody c hc with hnil | ⟨hc, heq⟩
    · rw [hnil] at hi
      cases hi
    · rw [hcall]
      exact h.uncalled c hc i (heq ▸ hi)
  constants := hconst ▸ h.constants

theorem addConstant {t : TyId} {l : Literal} (hl : P ⟨t, l⟩) :
    (g.addConstant t l).1 = (f.addConstant t l).1 ∧
      Tidied D P (f.addConstant t l).2 (g.addConstant t l).2 := by
  obtain ⟨heq, hw⟩ := h.toWithout.addConstant t l
  refine ⟨heq, hw, h.listedOnce, h.uncalled, fun x hx => ?_⟩
  rw [constants_addConstant] at hx
  rcases Array.mem_push.mp hx with hx | rfl
  · exact h.constants x hx
  · exact hl

theorem insertInst (hb : b < f.blocks.size) (hout : b ∉ D) (pos : Nat) {d : Draft}
    (hd : ∀ incoming, d.op = .phi incoming → ∀ e ∈ incoming, e.2 ∉ D)
    (hcall : d.op.isCall = false) :
    (g.insertInst b pos d).1 = (f.insertInst b pos d).1 ∧
      Tidied D P (f.insertInst b pos d).2 (g.insertInst b pos d).2 := by
  obtain ⟨heq, hw⟩ := h.toWithout.insertInst hb hout pos d hd
  have hb' : b < g.blocks.size := h.blocks_eq ▸ hb
  have hlt : ∀ c ∈ g.layout, ∀ i ∈ g.body c, i < g.insts.size := fun c hc i hi => by
    rw [h.size_eq]
    exact h.body_lt c (h.mem_layout.mp hc).1 i (h.body_eq c ▸ hi)
  refine ⟨heq, hw, fun c hc => ?_, fun c hc i hi => ?_, h.constants⟩
  · have hbody : body (g.insertInst b pos d).2 c =
        if c = b then placeAt (g.body b) pos g.insts.size else g.body c :=
      g.body_insertInst pos d hb' c
    rw [hbody]
    split
    · rename_i hcb
      subst hcb
      exact nodup_placeAt (h.listedOnce c hc) (fun hmem => Nat.lt_irrefl _ (hlt c hc _ hmem)) pos
    · exact h.listedOnce c hc
  · rw [op, inst_insertInst]
    split
    · exact hcall
    · rename_i hne
      exact h.uncalled c hc i ((Without.mem_body_insertInst hb' hi).resolve_right fun hi => hne hi.1)

theorem appendInst (hb : b < f.blocks.size) (hout : b ∉ D) {d : Draft}
    (hd : ∀ incoming, d.op = .phi incoming → ∀ e ∈ incoming, e.2 ∉ D)
    (hcall : d.op.isCall = false) :
    (g.appendInst b d).1 = (f.appendInst b d).1 ∧
      Tidied D P (f.appendInst b d).2 (g.appendInst b d).2 := by
  rw [Func.appendInst, Func.appendInst, h.body_eq]
  exact h.insertInst hb hout _ hd hcall

theorem insertBeforeTerminator (hb : b < f.blocks.size) (hout : b ∉ D) {d : Draft}
    (hd : ∀ incoming, d.op = .phi incoming → ∀ e ∈ incoming, e.2 ∉ D)
    (hcall : d.op.isCall = false) :
    (g.insertBeforeTerminator b d).1 = (f.insertBeforeTerminator b d).1 ∧
      Tidied D P (f.insertBeforeTerminator b d).2 (g.insertBeforeTerminator b d).2 := by
  rw [Func.insertBeforeTerminator, Func.insertBeforeTerminator, h.body_eq, h.terminator?_eq]
  exact h.insertInst hb hout _ hd hcall

theorem addBlockBefore (hb : b ∉ D) (name : String) :
    (g.addBlockBefore name b).1 = (f.addBlockBefore name b).1 ∧
      Tidied D P (f.addBlockBefore name b).2 (g.addBlockBefore name b).2 := by
  obtain ⟨heq, hw⟩ := h.toWithout.addBlockBefore hb name
  refine ⟨heq, h.congr hw (fun c hc => ?_) (fun _ => rfl) rfl⟩
  rw [body_addBlockBefore]
  rcases mem_layout_addBlockBefore g name b |>.mp hc with rfl | hc
  · exact .inl (by simp [body, block, Block.fresh])
  · exact .inr ⟨hc, rfl⟩

theorem modifyOps (hw : Without D f' g') {is : List InstId} {k : Op → Op}
    (hk : ∀ o, (k o).isCall = o.isCall) (heq : g' = g.modifyOps is k) : Tidied D P f' g' := by
  subst heq
  obtain ⟨hout, hblocks, _⟩ := modifyOps_shape k is g
  refine h.congr hw (fun c hc => .inr ⟨hout.layout_eq ▸ hc, ?_⟩) (fun i => modifyOps_keeps hk i is g)
    hout.constants_eq
  rw [body, block, hblocks, ← block, ← body]

theorem retarget (hb : b ∈ g.layout) (source target : BlockId) :
    Tidied D P (f.retarget b source target) (g.retarget b source target) := by
  have hw := h.toWithout.retarget hb source target
  have hcall (o : Op) : (o.retarget source target).isCall = o.isCall := by cases o <;> rfl
  have heq : g.retarget b source target =
      g.modifyOps (g.terminator? b).toList (Op.retarget source target) := by
    rw [Func.retarget]
    cases g.terminator? b <;> rfl
  exact h.modifyOps hw hcall heq

theorem setIncoming (phi : InstId) (pred : BlockId) (v : Operand) :
    Tidied D P (f.setIncoming phi pred v) (g.setIncoming phi pred v) := by
  refine h.congr (h.toWithout.setIncoming phi pred v) (fun c hc => .inr ⟨hc, rfl⟩) (fun j => ?_) rfl
  rcases g.op_modifyOp_cases phi j _ with heq | heq
  · rw [Func.setIncoming, heq]
    cases g.op j <;> rfl
  · rw [Func.setIncoming, heq]

theorem renamePredecessor {old new : BlockId} (hold : old ∉ D) (hnew : new ∉ D) (b : BlockId) :
    Tidied D P (f.renamePredecessor b old new) (g.renamePredecessor b old new) :=
  h.modifyOps (h.toWithout.renamePredecessor hold hnew b)
    (k := renameIncoming old new) (fun o => by cases o <;> rfl) rfl

theorem modifyBlock (b : BlockId) {k : Block → Block} (hk : ∀ x, (k x).insts = x.insts) :
    Tidied D P (f.modifyBlock b k) (g.modifyBlock b k) := by
  refine h.congr (h.toWithout.modifyBlock b hk) (fun c hc => .inr ⟨hc, ?_⟩) (fun _ => rfl) rfl
  rw [body_modifyBlock]
  split
  · exact hk _
  · rfl

theorem eraseBlock (hb : b ∉ D) : Tidied D P (f.eraseBlock b) (g.eraseBlock b) := by
  have he := erased_eraseBlock g b
  refine h.congr (h.toWithout.eraseBlock hb) (fun c hc => ?_) (fun i => ?_) he.constants_eq
  · rw [he.layout_eq] at hc
    obtain ⟨hc, hne⟩ := List.mem_filter.mp hc
    exact .inr ⟨hc, he.body_eq c (by simpa using hne)⟩
  · rcases he.pruned (fun _ => False) id i with heq | ⟨_, _, hop, hop', _⟩
    · rw [heq]
    · rw [hop, hop']
      rfl

omit h in
theorem eraseAll : ∀ (bs : List BlockId) {f g : Func}, (∀ b ∈ bs, b ∉ D) → Tidied D P f g →
    Tidied D P (bs.foldl Func.eraseBlock f) (bs.foldl Func.eraseBlock g)
  | [], _, _, _, h => h
  | b :: bs, _, _, hbs, h => eraseAll bs (fun c hc => hbs c (List.mem_cons_of_mem b hc))
    (h.eraseBlock (hbs b List.mem_cons_self))

end Tidied

end Func

end LoopNest
