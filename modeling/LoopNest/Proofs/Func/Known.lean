import LoopNest.Proofs.Dependence
import LoopNest.Proofs.Func.Grow
import LoopNest.Proofs.Typing.Extends

/-!
# What stays known

A pass decides about code that it may have changed elsewhere.  The decision follows operands, and
those that it comes to are computed from what was there at the start.  `Func.Closed` is about such a
set of known operands: they refer to something, and what they are computed from is known.  Phis and
terminators are where this ends, since a pass may change them.

Passes add to the stores, and otherwise change phis and terminators.  `Func.Grown` states this for
the old part of a function.  Then a known operand has the literal, the type and the place that it had
(`Grown.intLiteral?_eq`, `Grown.tyOf_eq`, `Grown.place_eq`), and what was known is known still
(`Grown.closed`).
-/

namespace LoopNest

namespace Func

/-- An operand that refers to something. -/
def Exists (f : Func) (v : Operand) : Prop := ∃ t, f.operandTy v = .ok t

/-- The known operands exist and are computed from known operands. -/
structure Closed (known : Operand → Prop) (f : Func) : Prop where
  exists_of : ∀ v, known v → f.Exists v
  operands : ∀ i, known (.inst i) → (f.op i).isPhi = false → (f.op i).isTerminator = false →
    ∀ v ∈ (f.op i).operands, known v
  owners : ∀ i, known (.inst i) → ∀ b ∈ f.owner i, b < f.blocks.size

/-- Added to, with other phis and terminators. -/
structure Grown (f g : Func) : Prop extends KeepsTypes f g where
  params_eq : g.params = f.params
  constant_eq : ∀ (c : Nat) x, f.constants[c]? = some x → g.constants[c]? = some x
  size_le : f.insts.size ≤ g.insts.size
  blocks_size_le : f.blocks.size ≤ g.blocks.size
  op_stays : ∀ i < f.insts.size, g.op i = f.op i ∨
    ((f.op i).isPhi || (f.op i).isTerminator) = true ∧
      ((g.op i).isPhi || (g.op i).isTerminator) = true
  owner_of : ∀ i < f.insts.size, ∀ b, g.owner i = some b → f.owner i = some b

variable {f g : Func} {known : Operand → Prop} {v : Operand} {i : InstId} {n : Nat}

theorem Exists.lt (h : f.Exists (.inst i)) : i < f.insts.size := by
  obtain ⟨t, ht⟩ := h
  exact (lt_of_operandTy ht).1

theorem Exists.const_lt {c : ConstId} (h : f.Exists (.const c)) : c < f.constants.size := by
  obtain ⟨t, ht⟩ := h
  by_contra hc
  simp [operandTy, Array.getElem?_eq_none (Nat.le_of_not_lt hc)] at ht

theorem KeepsTypes.exists_of (h : f.KeepsTypes g) (hv : f.Exists v) : g.Exists v := by
  obtain ⟨t, ht⟩ := hv
  exact ⟨t, h.operandTy_eq v t ht⟩

theorem Exists.tyOf_mem (h : f.Exists v) : f.tyOf v ∈ f.tys := by
  obtain ⟨t, ht⟩ := h
  simpa only [tyOf, ht] using mem_tys_of_operandTy ht

theorem Closed.lt (hf : f.Closed known) (hi : known (.inst i)) : i < f.insts.size :=
  (hf.exists_of _ hi).lt

theorem Grown.refl (f : Func) : f.Grown f :=
  ⟨.refl f, rfl, fun _ _ h => h, Nat.le_refl _, Nat.le_refl _, fun _ _ => .inl rfl, fun _ _ _ h => h⟩

theorem Grown.trans {k : Func} (h : f.Grown g) (h' : g.Grown k) : f.Grown k := by
  refine ⟨h.toKeepsTypes.trans h'.toKeepsTypes, h'.params_eq.trans h.params_eq,
    fun c x hx => h'.constant_eq c x (h.constant_eq c x hx), Nat.le_trans h.size_le h'.size_le,
    Nat.le_trans h.blocks_size_le h'.blocks_size_le, fun i hi => ?_, fun i hi b hb => ?_⟩
  · have hi' := Nat.lt_of_lt_of_le hi h.size_le
    rcases h.op_stays i hi with heq | ⟨hf, hg⟩
    · exact heq ▸ h'.op_stays i hi'
    · rcases h'.op_stays i hi' with heq | ⟨_, hk⟩
      · exact .inr ⟨hf, heq ▸ hg⟩
      · exact .inr ⟨hf, hk⟩
  · exact h.owner_of i hi b (h'.owner_of i (Nat.lt_of_lt_of_le hi h.size_le) b hb)

theorem placeWithin_of_control (h : ((f.op i).isPhi || (f.op i).isTerminator) = true) :
    f.placeWithin n (.inst i) = .unknown := by
  cases n with
  | zero => rfl
  | succ n =>
    rw [placeWithin]
    cases hop : f.op i <;> first | rfl | (rw [hop] at h; cases h)

namespace Grown

variable (h : f.Grown g) (hf : f.Closed known)

include h hf

theorem closed : g.Closed known where
  exists_of v hv := h.toKeepsTypes.exists_of (hf.exists_of v hv)
  operands i hi hphi hterm := by
    rcases h.op_stays i (hf.lt hi) with heq | ⟨_, hcontrol⟩
    · rw [heq] at hphi hterm ⊢
      exact hf.operands i hi hphi hterm
    · rw [hphi, hterm] at hcontrol
      cases hcontrol
  owners i hi b hb := Nat.lt_of_lt_of_le (hf.owners i hi b (h.owner_of i (hf.lt hi) b hb))
    h.blocks_size_le

theorem tyOf_eq (hv : known v) : g.tyOf v = f.tyOf v := by
  obtain ⟨t, ht⟩ := hf.exists_of v hv
  simp only [tyOf, ht, h.operandTy_eq v t ht]

theorem intLiteral?_eq (hv : known v) : g.intLiteral? v = f.intLiteral? v := by
  cases v with
  | inst j => rfl
  | param k => rfl
  | const c =>
    obtain ⟨t, ht⟩ := hf.exists_of _ hv
    rw [operandTy] at ht
    split at ht
    · rename_i x hx
      simp only [intLiteral?, literal?, hx, h.constant_eq c x hx]
    · cases ht

theorem placeWithin_eq : ∀ (n : Nat) (v : Operand), known v →
    g.placeWithin n v = f.placeWithin n v
  | 0, .param k, _ => by rw [placeWithin, placeWithin, h.params_eq]
  | _ + 1, .param k, _ => by rw [placeWithin, placeWithin, h.params_eq]
  | 0, .const c, _ => rfl
  | _ + 1, .const c, _ => rfl
  | 0, .inst i, _ => rfl
  | n + 1, .inst i, hv => by
    have hi := hf.lt hv
    rcases h.op_stays i hi with heq | ⟨hf, hg⟩
    · rw [placeWithin, placeWithin, heq]
      have hops := hf.operands i hv
      cases hop : f.op i with
      | alloca t a => simp only [hi, Nat.lt_of_lt_of_le hi h.size_le]
      | bitcast w =>
        rw [hop] at hops
        simp only [placeWithin_eq n w (hops rfl rfl w (by simp [Op.operands]))]
      | gep w x =>
        rw [hop] at hops
        simp only [placeWithin_eq n w (hops rfl rfl w (by simp [Op.operands]))]
      | _ => rfl
    · rw [placeWithin_of_control hf, placeWithin_of_control hg]

theorem place_eq (hv : known v) : g.place v = f.place v := by
  rw [← g.placeWithin_eq_place (Nat.le_refl _), h.placeWithin_eq hf _ v hv,
    f.placeWithin_eq_place h.size_le]

end Grown

end Func

end LoopNest
