import LoopNest.Proofs.Accepted
import LoopNest.Proofs.Padding.Blocks

/-!
# The verifier accepts padded functions

Renaming an operand keeps its type and the block that defines it (`Widens.owner_rename`,
`Widens.operandTy_rename`), and what came before an instruction in its block still does
(`rename_mem_expand`).  So a padded function is well formed and well typed again.

All slots of it consist of whole words or are too large, so padding it again changes nothing.
-/

namespace LoopNest

/-- Where an item of mapped lists comes from. -/
theorem flatMap_eq_append_cons {α β : Type} {k : α → List β} {x : β} {post : List β} :
    ∀ {as : List α} {pre : List β}, as.flatMap k = pre ++ x :: post →
    ∃ as₁ a as₂ u w, as = as₁ ++ a :: as₂ ∧ k a = u ++ x :: w ∧ pre = as₁.flatMap k ++ u
  | [], pre, h => by simp at h
  | a :: as, pre, h => by
    rw [List.flatMap_cons, List.append_eq_append_iff] at h
    rcases h with ⟨rest, hpre, hrest⟩ | ⟨rest, ha, hrest⟩
    · obtain ⟨as₁, a', as₂, u, w, has, hk, hr⟩ := flatMap_eq_append_cons hrest
      exact ⟨a :: as₁, a', as₂, u, w, by rw [has, List.cons_append], hk, by simp [hpre, hr]⟩
    · cases rest with
      | nil =>
        have hrest' : as.flatMap k = [] ++ x :: post := by simpa using hrest.symm
        obtain ⟨as₁, a', as₂, u, w, has, hk, hr⟩ := flatMap_eq_append_cons hrest'
        exact ⟨a :: as₁, a', as₂, u, w, by rw [has, List.cons_append], hk, by simp_all⟩
      | cons y rest =>
        obtain ⟨rfl, hrest⟩ := List.cons.inj hrest
        exact ⟨[], a, as, pre, rest, rfl, ha, rfl⟩

namespace Padding

namespace Widens

variable {tt tt' : TypeTable} {f g : Func} {slots : List Slot} {b : BlockId} {j : Nat}

theorem owner_rename (h : Widens tt f tt' g slots) (hj : j < f.insts.size) :
    g.owner (rename f.insts.size slots j) = f.owner j := by
  rcases rename_cases f.insts.size slots j with ⟨hnone, hr⟩ | ⟨k, s, hk, rfl, _, hr⟩
  · rw [hr, h.padded.owner_eq j hj hnone]
  · obtain ⟨_, _, _, _, _, _, _, hpad⟩ := h.pads s (List.mem_of_getElem? hk)
    rw [hr, Func.owner, h.padded.cast_eq k s hk, hpad.owner_eq]
    rfl

theorem rename_lt (h : Widens tt f tt' g slots) (hj : j < f.insts.size) :
    rename f.insts.size slots j < g.insts.size := by
  have hsize := h.padded.size_eq
  rcases rename_cases f.insts.size slots j with ⟨_, hr⟩ | ⟨k, s, hk, _, _, hr⟩
  · omega
  · have := (List.getElem?_eq_some_iff.mp hk).1
    omega

theorem ty_rename (h : Widens tt f tt' g slots) (hj : j < f.insts.size) :
    (g.inst (rename f.insts.size slots j)).ty = (f.inst j).ty := by
  rcases rename_cases f.insts.size slots j with ⟨hnone, hr⟩ | ⟨k, s, hk, rfl, _, hr⟩
  · rw [hr, h.padded.ty_eq j hj]
  · obtain ⟨_, _, _, _, _, _, _, hpad⟩ := h.pads s (List.mem_of_getElem? hk)
    rw [hr, h.padded.cast_eq k s hk, ← hpad.ptr_eq]
    rfl

/-- A renamed operand has the same type. -/
theorem operandTy_rename (h : Widens tt f tt' g slots) {v : Operand} {t : TyId}
    (hv : f.operandTy v = .ok t) : g.operandTy (renameOperand f.insts.size slots v) = .ok t := by
  cases v with
  | inst j =>
    have hj : j < f.insts.size := by
      by_contra hlt
      simp [Func.operandTy, Array.getElem?_eq_none (Nat.le_of_not_lt hlt)] at hv
    have hty := h.ty_rename hj
    have hlt := h.rename_lt hj
    simp only [Func.operandTy, renameOperand, Func.inst, Array.getElem?_eq_getElem hj,
      Array.getElem?_eq_getElem hlt, Option.getD_some] at hv hty ⊢
    rw [hty]
    exact hv
  | param k =>
    rw [← hv]
    simp only [Func.operandTy, renameOperand, h.padded.outline.params_eq]
  | const c =>
    rw [← hv]
    simp only [Func.operandTy, renameOperand, h.padded.outline.constants_eq]

theorem operandExists_rename (h : Widens tt f tt' g slots) {v : Operand}
    (hv : Verify.operandExists f v = true) :
    Verify.operandExists g (renameOperand f.insts.size slots v) = true := by
  cases v with
  | inst j =>
    simp only [Verify.operandExists, renameOperand, Bool.and_eq_true, decide_eq_true_eq] at hv ⊢
    refine ⟨h.rename_lt hv.1, ?_⟩
    have hlive := hv.2
    unfold Func.isLiveInst Func.isLiveBlock at hlive ⊢
    rw [h.owner_rename hv.1, h.layout_eq]
    exact hlive
  | param k =>
    simpa only [Verify.operandExists, renameOperand, h.padded.outline.params_eq] using hv
  | const c =>
    simpa only [Verify.operandExists, renameOperand, h.padded.outline.constants_eq] using hv

/-- A renamed operand comes from an operand. -/
theorem renameOperand_eq_inst {v : Operand} {n : Nat}
    (hv : renameOperand n slots v = .inst j) : ∃ i, v = .inst i ∧ rename n slots i = j := by
  cases v with
  | inst i => exact ⟨i, rfl, by simpa [renameOperand] using hv⟩
  | _ => cases hv

/-- A cast uses its slot, which comes just before it. -/
theorem wide_before_cast (h : Widens tt f tt' g slots) (hb : b ∈ f.layout) {k : Nat}
    {pre post : List InstId} (hbody : g.body b = pre ++ (f.insts.size + 2 * k + 1) :: post) :
    f.insts.size + 2 * k ∈ pre := by
  rw [h.padded.body_eq b hb] at hbody
  obtain ⟨is, i, _, u, w, his, hexp, rfl⟩ := flatMap_eq_append_cons hbody
  have hmem : f.insts.size + 2 * k + 1 ∈ expand f.insts.size slots i := by simp [hexp]
  have hi : i < f.insts.size := h.wellFormed.inst_lt hb (his ▸ by simp)
  rcases mem_expand hmem with ⟨heq, _⟩ | ⟨l, s, hl, _, hr, heq⟩
  · exact absurd heq.symm (Nat.lt_of_lt_of_le hi (by omega)).ne
  · obtain rfl : l = k := by omega
    unfold expand at hexp
    rw [hr] at hexp
    cases u with
    | nil => exact absurd (List.cons.inj hexp).1 (Nat.lt_succ_self _).ne
    | cons x u => simp [(List.cons.inj hexp).1]

/-- A phi of a padded function is an old one with its operands renamed. -/
theorem exists_phi (h : Widens tt f tt' g slots) (hb : b ∈ f.layout) {j : InstId}
    (hj : j ∈ g.body b) {incoming' : List (Operand × BlockId)} (hop : g.op j = .phi incoming') :
    ∃ incoming, j ∈ f.body b ∧ f.op j = .phi incoming ∧
      incoming' = incoming.map fun e => (renameOperand f.insts.size slots e.1, e.2) := by
  rcases h.mem_body hb hj with ⟨hj, _, hop'⟩ | ⟨k, s, _, _, ⟨_, hinst⟩ | ⟨_, hinst⟩⟩
  · rw [hop'] at hop
    cases hx : f.op j with
    | phi incoming =>
      rw [hx] at hop
      exact ⟨incoming, hj, rfl, (Op.phi.inj hop).symm⟩
    | _ =>
      rw [hx] at hop
      cases hop
  · rw [Func.op, hinst] at hop
    cases hop
  · rw [Func.op, hinst] at hop
    cases hop

/-- What an instruction of a padded function uses comes before it. -/
theorem use_dominated (h : Widens tt f tt' g slots) (hb : b ∈ f.layout)
    (hr : (FlowGraph.ofFunc f).Reachable b) {i j : InstId} (hi : i ∈ g.body b)
    (hphi : (g.op i).isPhi = false) (hj : Operand.inst j ∈ (g.op i).operands) :
    ∃ d, g.owner j = some d ∧ (d ≠ b → (FlowGraph.ofFunc f).Dominates d b) ∧
      (d = b → ∀ pre post, g.body b = pre ++ i :: post → j ∈ pre) := by
  have hf := h.wellFormed
  rcases h.mem_body hb hi with ⟨hi, _, hop⟩ | ⟨k, s, hk, rfl, ⟨_, hinst⟩ | ⟨rfl, hinst⟩⟩
  · rw [hop, Func.isPhi_mapOperands] at hphi
    rw [hop, Op.operands_mapOperands] at hj
    obtain ⟨v, hv, heq⟩ := List.mem_map.mp hj
    obtain ⟨j, rfl, rfl⟩ := renameOperand_eq_inst heq
    obtain ⟨d, hd, hdom, hsame⟩ := hf.use_dominated b hb hr i hi hphi j hv
    refine ⟨d, (h.owner_rename (Func.owner_lt hd)).trans hd, hdom, fun hdb pre post hbody => ?_⟩
    rw [h.padded.body_eq b hb] at hbody
    obtain ⟨is, x, is', u, w, his, hexp, rfl⟩ := flatMap_eq_append_cons hbody
    have hix : i ∈ expand f.insts.size slots x := by simp [hexp]
    obtain ⟨rfl, _⟩ := eq_of_mem_expand hix (hf.inst_lt hb hi)
    have hmem := hsame hdb is is' his
    exact List.mem_append_left _ (List.mem_flatMap.mpr ⟨j, hmem, rename_mem_expand⟩)
  · simp [Func.op, hinst, Slot.wide, Op.operands] at hj
  · simp only [Func.op, hinst, Slot.cast, Op.operands, List.mem_singleton, Operand.inst.injEq] at hj
    subst hj
    refine ⟨s.block, ?_, fun hne => absurd rfl hne, fun _ pre post => h.wide_before_cast hb⟩
    rw [Func.owner, h.padded.wide_eq k s hk]
    rfl

/-- A padded function is well formed. -/
theorem wellFormed' (h : Widens tt f tt' g slots) : g.WellFormed := by
  have hf := h.wellFormed
  have hlayout := h.layout_eq
  have hgraph := h.ofFunc_eq
  refine ⟨?_, ?_, ?_, ?_, ?_, ?_, ?_, ?_, ?_, ?_⟩ <;> try rw [hlayout]
  · intro b hb j hj
    rcases h.mem_body hb hj with ⟨hj, hnone, _⟩ | ⟨k, s, _, rfl, ⟨_, hinst⟩ | ⟨_, hinst⟩⟩
    · rw [h.padded.owner_eq j (hf.inst_lt hb hj) hnone, hf.owner_eq b hb j hj]
    · rw [Func.owner, hinst]
      rfl
    · rw [Func.owner, hinst]
      rfl
  · intro b hb
    rw [h.terminator?_eq hb]
    exact hf.ends b hb
  · intro b hb j hj hterm
    rw [h.terminator?_eq hb]
    rcases h.mem_body hb hj with ⟨hj, hnone, hop⟩ | ⟨k, s, _, rfl, ⟨_, hinst⟩ | ⟨_, hinst⟩⟩
    · rw [hop, Func.isTerminator_mapOperands] at hterm
      exact hf.terminator_eq b hb j hj hterm
    · rw [Func.op, hinst] at hterm
      cases hterm
    · rw [Func.op, hinst] at hterm
      cases hterm
  · intro b hb j hj
    have hafter := hj
    rw [h.afterPhis_eq hb] at hafter
    obtain ⟨i, hi, hexp⟩ := List.mem_flatMap.mp hafter
    rcases h.mem_body hb (Func.mem_body_of_afterPhis hj) with
      ⟨hj, hnone, hop⟩ | ⟨k, s, _, rfl, ⟨_, hinst⟩ | ⟨_, hinst⟩⟩
    · obtain ⟨rfl, _⟩ := eq_of_mem_expand hexp (hf.inst_lt hb hj)
      rw [hop, Func.isPhi_mapOperands]
      exact hf.phi_first b hb j hi
    · rw [Func.op, hinst]
      rfl
    · rw [Func.op, hinst]
      rfl
  · intro b hb c hc
    rw [h.successors_eq hb] at hc
    exact hf.successor_live b hb c hc
  · intro e he
    rw [ Func.entry?, hlayout] at he
    rw [h.predecessors_eq]
    exact hf.entry_predecessors e he
  · intro b hb j hj v hv
    rcases h.mem_body hb hj with ⟨hj, hnone, hop⟩ | ⟨k, s, hk, rfl, ⟨_, hinst⟩ | ⟨_, hinst⟩⟩
    · rw [hop, Op.operands_mapOperands] at hv
      obtain ⟨u, hu, rfl⟩ := List.mem_map.mp hv
      exact h.operandExists_rename (hf.operand_exists b hb j hj u hu)
    · simp [Func.op, hinst, Slot.wide, Op.operands] at hv
    · simp only [Func.op, hinst, Slot.cast, Op.operands, List.mem_singleton] at hv
      subst hv
      have hklt := (List.getElem?_eq_some_iff.mp hk).1
      have hlt : f.insts.size + 2 * k < g.insts.size := by
        rw [h.padded.size_eq]
        omega
      simp only [Verify.operandExists, Bool.and_eq_true, decide_eq_true_eq]
      refine ⟨hlt, ?_⟩
      unfold Func.isLiveInst Func.isLiveBlock
      rw [Func.owner, h.padded.wide_eq k s hk, hlayout]
      simpa [Slot.wide] using hb
  · intro b hb j hj incoming' hop'
    obtain ⟨incoming, hj, hop, rfl⟩ := h.exists_phi hb hj hop'
    obtain ⟨hnd, hmem⟩ := hf.phi_sources b hb j hj incoming hop
    rw [List.map_map, h.predecessors_eq]
    exact ⟨hnd, hmem⟩
  · intro b hb j hj incoming' hop' u p hmem d hd
    obtain ⟨incoming, hj, hop, rfl⟩ := h.exists_phi hb hj hop'
    obtain ⟨⟨v, q⟩, hmem', hpair⟩ := List.mem_map.mp hmem
    obtain ⟨heq, rfl⟩ := Prod.mk.inj hpair
    obtain ⟨i, rfl, rfl⟩ := renameOperand_eq_inst heq
    have hex := hf.operand_exists b hb j hj (.inst i) (by
      rw [hop]
      exact List.mem_map_of_mem (f := Prod.fst) hmem')
    simp only [Verify.operandExists, Bool.and_eq_true, decide_eq_true_eq] at hex
    rw [h.owner_rename hex.1] at hd
    rw [hgraph]
    exact hf.phi_dominated b hb j hj incoming hop i q hmem' d hd
  · intro b hb hr i hi hphi j hj
    rw [hgraph] at hr ⊢
    exact h.use_dominated hb hr hi hphi hj

/-- A padded function is well typed, also when types are interned afterwards. -/
theorem wellTyped_extends (h : Widens tt f tt' g slots) (ht : f.WellTyped tt)
    (hin : ∀ t ∈ f.tys, t < tt.size) {tt'' : TypeTable} (he : tt'.Extends tt'') :
    g.WellTyped tt'' := by
  intro b hb j hj
  rw [h.layout_eq] at hb
  have hext := h.types_extend.trans he
  rcases h.mem_body hb hj with ⟨hj, _, hop⟩ | ⟨k, s, hk, _, ⟨_, hinst⟩ | ⟨rfl, hinst⟩⟩
  · obtain ⟨ty, hty, hlook⟩ := ht b hb j hj
    rw [hop, h.padded.ty_eq j (h.wellFormed.inst_lt hb hj)]
    refine ⟨ty, ?_, hext.lookup_eq hlook⟩
    refine Typing.resultTy_extends hext h.padded.outline.ret_eq
      (hin _ List.mem_cons_self) (TypeTable.lookup_lt hlook) (fun v _ t hv => ?_) hty
    exact ⟨h.operandTy_rename hv, hin t (Func.mem_tys_of_operandTy hv)⟩
  · obtain ⟨_, _, _, _, _, _, _, hpad⟩ := h.pads s (List.mem_of_getElem? hk)
    rw [Func.op, hinst]
    exact ⟨_, rfl, he.lookup_eq hpad.lookup_eq⟩
  · -- Both the new slot and the old one have pointer types.
    obtain ⟨hb', ha, t, al, hop, _, _, hpad⟩ := h.pads s (List.mem_of_getElem? hk)
    obtain ⟨ty, hty, hlook⟩ := ht _ hb' _ ha
    rw [hop] at hty
    cases hty
    rw [← hpad.ptr_eq] at hlook
    have hold := hext.lookup_eq hlook
    have hwide : g.operandTy (.inst (f.insts.size + 2 * k)) = .ok s.paddedPtr := by
      have hlt : f.insts.size + 2 * k < g.insts.size := by
        have := (List.getElem?_eq_some_iff.mp hk).1
        rw [h.padded.size_eq]
        omega
      have hinst := h.padded.wide_eq k s hk
      simp only [Func.inst, Array.getElem?_eq_getElem hlt, Option.getD_some] at hinst
      simp only [Func.operandTy, Array.getElem?_eq_getElem hlt, hinst]
      rfl
    rw [Func.op, hinst]
    refine ⟨(Shape.pointer t).unnamed, ?_, hold⟩
    simp only [Slot.cast, Typing.resultTy, Typing.declaredTy, bind_eq_ok_iff, Typing.pointee_eq_ok]
    refine ⟨s.ptr, rfl, s.paddedPtr, hwide, s.padded, ?_, t, ?_, ?_⟩
    · rw [TypeTable.shape, Pool.get?_of_lookup (he.lookup_eq hpad.lookup_eq)]
      rfl
    · rw [TypeTable.shape, Pool.get?_of_lookup hold]
      rfl
    · rw [TypeTable.ty, Pool.get?_of_lookup hold]
      rfl

theorem wellTyped' (h : Widens tt f tt' g slots) (ht : f.WellTyped tt)
    (hin : ∀ t ∈ f.tys, t < tt.size) : g.WellTyped tt' := h.wellTyped_extends ht hin (.refl tt')

/-! ## Sizes -/

/-- The stack slots of a padded function consist of whole words or are too large. -/
theorem size_even (h : Widens tt f tt' g slots) (ht : f.WellTyped tt) {i : InstId}
    (hi : i ∈ g.liveInsts) {t : TyId} {a : Nat} (hop : g.op i = .alloca t a) :
    tt'.sizeInBits t % 64 = 0 ∨ 2 ^ 32 ≤ paddedBytes tt' t := by
  obtain ⟨b, hb, hi⟩ := List.mem_flatMap.mp hi
  rw [h.layout_eq] at hb
  rcases h.mem_body hb hi with ⟨hi, hnone, hop'⟩ | ⟨k, s, hk, _, ⟨_, hinst⟩ | ⟨_, hinst⟩⟩
  · have hold : f.op i = .alloca t a := by
      rw [hop'] at hop
      cases hx : f.op i <;> rw [hx] at hop <;> first | exact hop | cases hop
    have hlive : i ∈ f.liveInsts := List.mem_flatMap.mpr ⟨b, hb, hi⟩
    have hext := h.types_extend.extent_eq h.closed (slot_lt h.closed ht hlive hold)
    unfold TypeTable.sizeInBits TypeTable.storeSize paddedBytes TypeTable.paddedSize
    rw [hext]
    exact h.left i hlive hnone t a hold
  · rw [Func.op, hinst] at hop
    cases hop
    obtain ⟨_, _, u, _, _, _, _, hpad⟩ := h.pads s (List.mem_of_getElem? hk)
    left
    unfold TypeTable.sizeInBits TypeTable.storeSize
    rw [hpad.extent_eq]
    have := (alignTo_granule (tt.paddedSize u)).1
    simp only [paddedBytes]
    omega
  · rw [Func.op, hinst] at hop
    cases hop

/-- The sizes of its slots are counted in 64 bits if those of the function before are. -/
theorem padStuck_again (h : Widens tt f tt' g slots) (ht : f.WellTyped tt)
    (hfit : f.padStuck tt = false) : g.padStuck tt' = false := by
  rw [padStuck_eq_false_iff] at hfit ⊢
  intro i hi t a hop
  obtain ⟨b, hb, hi⟩ := List.mem_flatMap.mp hi
  rw [h.layout_eq] at hb
  rcases h.mem_body hb hi with ⟨hi, -, hop'⟩ | ⟨k, s, hk, _, ⟨_, hinst⟩ | ⟨_, hinst⟩⟩
  · have hold : f.op i = .alloca t a := by
      rw [hop'] at hop
      cases hx : f.op i <;> rw [hx] at hop <;> first | exact hop | cases hop
    have hlive : i ∈ f.liveInsts := List.mem_flatMap.mpr ⟨b, hb, hi⟩
    rw [slotStuck_extends h.types_extend h.closed (slot_lt h.closed ht hlive hold)]
    exact hfit i hlive t a hold
  · rw [Func.op, hinst] at hop
    cases hop
    obtain ⟨_, _, u, _, _, _, _, hpad⟩ := h.pads s (List.mem_of_getElem? hk)
    have height := (alignTo_granule (tt.paddedSize u)).1
    have hlt := hpad.bytes_lt
    unfold paddedBytes at hlt
    have hbits : tt'.sizeInBits s.padded = alignTo (tt.paddedSize u) granule * 8 := by
      rw [TypeTable.sizeInBits, TypeTable.storeSize, hpad.extent_eq, paddedBytes]
    have hlim : TypeTable.countLimit = 2 ^ 64 := rfl
    have heven : tt'.sizeInBits s.padded % 64 = 0 := by omega
    have hsmall : ¬ TypeTable.countLimit ≤ tt'.sizeInBits s.padded := by omega
    simp [slotStuck, hpad.storeFits, heven, hsmall]
  · rw [Func.op, hinst] at hop
    cases hop

/-- Padding again changes nothing. -/
theorem padSlots_again (h : Widens tt f tt' g slots) (ht : f.WellTyped tt) :
    (g.padSlots tt').changed = false ∧ (g.padSlots tt').func = g ∧ (g.padSlots tt').types = tt' := by
  obtain ⟨hslots, htypes⟩ := planSlots_of_large g tt' (candidates tt' g) fun c hmem => by
    obtain ⟨hi, a, hop, hsize⟩ := mem_candidates.mp hmem
    exact (h.size_even ht hi hop).resolve_left hsize
  simp [Func.padSlots, hslots, htypes]

end Widens

end Padding

end LoopNest
