import LoopNest.Proofs.Padding.Preserves
import LoopNest.Proofs.Pass.Interwoven

/-!
# Interwoven nests with padded stack slots

Padding the stack slots of a function replaces each slot by a wider one and a cast of its address,
and leaves all other instructions where they are.  So a nest stays interwoven
(`Padding.Widens.interwoven`), and padding has nothing left to do, whatever types are interned
afterwards (`Padding.Widens.padSlots_idle`).
-/

namespace LoopNest

open Func

namespace Padding

variable {tt tt' : TypeTable} {f g : Func} {slots : List Slot} {b : BlockId} {i : InstId}
  {v : Operand}

namespace Widens

/-- What is no slot stays where it is, with its operands renamed. -/
theorem keeps (h : Widens tt f tt' g slots) (hb : b ∈ f.layout) (hi : i ∈ f.body b)
    (hslot : (f.op i).isSlot = false) : i ∈ g.body b ∧
      g.op i = (f.op i).mapOperands (renameOperand f.insts.size slots) ∧
      rename f.insts.size slots i = i := by
  have hnone := h.replacement?_of_not_isSlot hslot
  refine ⟨?_, h.padded.op_eq b hb i hi hnone, rename_of_none hnone⟩
  rw [h.padded.body_eq b hb]
  exact List.mem_flatMap.mpr ⟨i, hi, by rw [expand_of_none hnone]; exact List.mem_singleton_self i⟩

/-- A renamed value is no phi if the old one is none. -/
theorem isPhi_rename (h : Widens tt f tt' g slots) (hb : b ∈ f.layout) (hi : i ∈ f.body b)
    (hphi : (f.op i).isPhi = false) : (g.op (rename f.insts.size slots i)).isPhi = false := by
  rcases rename_cases f.insts.size slots i with ⟨hnone, hr⟩ | ⟨k, s, hk, rfl, _, hr⟩
  · rw [hr, h.padded.op_eq b hb i hi hnone, Func.isPhi_mapOperands, hphi]
  · rw [hr, Func.op, h.padded.cast_eq k s hk]
    rfl

theorem fixed_rename (h : Widens tt f tt' g slots) (hb : b ∈ f.layout) (hv : f.Fixed b v) :
    g.Fixed b (renameOperand f.insts.size slots v) := by
  induction hv with
  | param k => exact .param k
  | const c => exact .const c
  | outside hd hi hne hphi =>
    refine .outside (h.layout_eq ▸ hd) ?_ hne (h.isPhi_rename hd hi hphi)
    rw [h.padded.body_eq _ hd]
    exact List.mem_flatMap.mpr ⟨_, hi, rename_mem_expand⟩
  | gep hi hop _ _ hbase hindex =>
    obtain ⟨hi', hop', hr⟩ := h.keeps hb hi (by rw [hop]; rfl)
    rw [hop] at hop'
    rw [renameOperand, hr]
    exact .gep hi' hop' hbase hindex

/-- Padding keeps a nest interwoven. -/
theorem interwoven (h : Widens tt f tt' g slots) (hf : f.Interwoven b) : g.Interwoven b where
  live := h.layout_eq ▸ hf.live
  within l hl := hf.within l (h.ofFunc_eq ▸ hl)
  uses l hl := by
    obtain ⟨i, hi, v, hv, hdef⟩ := hf.uses l (h.ofFunc_eq ▸ hl)
    have hslot : (f.op i).isSlot = false := by
      cases hop : f.op i with
      | alloca t a => simp [hop, Op.operands] at hv
      | _ => rfl
    obtain ⟨hi', hop', -⟩ := h.keeps hf.live hi hslot
    refine ⟨i, hi', renameOperand f.insts.size slots v, ?_, ?_⟩
    · rw [hop', Op.operands_mapOperands]
      exact List.mem_map_of_mem hv
    · cases v with
      | inst j => exact (h.owner_rename (Func.owner_lt hdef)).trans hdef
      | param k => cases hdef
      | const c => cases hdef
  stores := by
    obtain ⟨i, hi, v, p, hop, hp⟩ := hf.stores
    obtain ⟨hi', hop', -⟩ := h.keeps hf.live hi (by rw [hop]; rfl)
    rw [hop] at hop'
    exact ⟨i, hi', _, _, hop', h.fixed_rename hf.live hp⟩

/-! ## Conditions on the listing -/

/-- What a padded function uses stands in the block that it records if that was so before. -/
theorem usesListed (h : Widens tt f tt' g slots) (hu : f.UsesListed) : g.UsesListed := by
  rw [Func.usesListed_iff] at hu ⊢
  intro b hb j hj k hk d hd
  rw [h.layout_eq] at hb
  rcases h.mem_body hb hj with ⟨hold, -, hop⟩ | ⟨n, s, hn, rfl, ⟨-, hinst⟩ | ⟨rfl, hinst⟩⟩
  · rw [hop, Op.operands_mapOperands] at hk
    obtain ⟨u, hmem, heq⟩ := List.mem_map.mp hk
    obtain ⟨i, rfl, rfl⟩ := renameOperand_eq_inst heq
    obtain ⟨hlt, hlive⟩ : i < f.insts.size ∧ f.isLiveInst i = true := by
      simpa [Verify.operandExists] using h.wellFormed.operand_exists b hb j hold _ hmem
    rw [h.owner_rename hlt] at hd
    have hdlive : d ∈ f.layout := by simpa [Func.isLiveInst, Func.isLiveBlock, hd] using hlive
    rw [h.padded.body_eq d hdlive]
    exact List.mem_flatMap.mpr ⟨i, hu b hb j hold i hmem d hd, rename_mem_expand⟩
  · simp [Func.op, hinst, Slot.wide, Op.operands] at hk
  · obtain rfl : k = f.insts.size + 2 * n := by
      simpa [Func.op, hinst, Slot.cast, Op.operands] using hk
    obtain rfl : s.block = d := by
      simpa [Func.owner, h.padded.wide_eq n s hn, Slot.wide] using hd
    rw [h.padded.body_eq _ hb] at hj ⊢
    obtain ⟨i, hi, hexp⟩ := List.mem_flatMap.mp hj
    exact List.mem_flatMap.mpr ⟨i, hi, slot_mem_expand hexp (h.wellFormed.inst_lt hb hi)⟩

theorem callFree (h : Widens tt f tt' g slots) (hcall : f.CallFree) : g.CallFree := by
  intro b hb j hj c as hop
  rw [h.layout_eq] at hb
  rcases h.mem_body hb hj with ⟨hold, -, hop'⟩ | ⟨n, s, hn, -, ⟨-, hinst⟩ | ⟨-, hinst⟩⟩
  · rw [hop] at hop'
    cases hf : f.op j with
    | call c' as' => exact hcall b hb j hold c' as' hf
    | _ => simp [hf, Op.mapOperands] at hop'
  · simp [Func.op, hinst, Slot.wide] at hop
  · simp [Func.op, hinst, Slot.cast] at hop

/-! ## Padding again -/

/-- The slots of a padded function need no more padding, whatever types are interned. -/
theorem padSlots_idle (h : Widens tt f tt' g slots) (ht : f.WellTyped tt)
    (ht' : g.WellTyped tt') (hfit : f.padStuck tt = false) : Pass.padSlots.Idle tt' g where
  unstuck tt₁ he := padStuck_extends he h.closed' ht' (h.padStuck_again ht hfit)
  unchanged tt₁ he := by
    obtain ⟨hslots, -⟩ := planSlots_of_large g tt₁ (candidates tt₁ g) fun c hmem => by
      obtain ⟨hi, a, hop, hsize⟩ := mem_candidates.mp hmem
      have hext := he.extent_eq h.closed' (slot_lt h.closed' ht' hi hop)
      have heven := h.size_even ht hi hop
      unfold TypeTable.sizeInBits TypeTable.storeSize at heven hsize
      unfold paddedBytes TypeTable.paddedSize at heven ⊢
      rw [hext] at hsize ⊢
      exact heven.resolve_left hsize
    change (g.padSlots tt₁).changed = false
    simp [Func.padSlots, hslots]

end Widens

end Padding

end LoopNest
