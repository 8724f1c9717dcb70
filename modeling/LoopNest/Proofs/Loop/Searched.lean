import LoopNest.Loop.Affine
import LoopNest.Proofs.Func.Traces

/-!
# The search for a stride

`NaturalLoop.Searched` is the search for the stride of a value, one rule for each way in which it
can go.  A derivation is a search that comes to an end.  It ends with the stride that
`NaturalLoop.stride?` computes (`Searched.stride?_eq`).  Fuel does not matter: what a search comes to
with some fuel it also comes to with more (`searchWithin_mono`), and more fuel than there are
instructions finds nothing more.  So a search gets stuck exactly if it does not end
(`isStuck_eq_false_iff`).

The verifier looks at the instructions that blocks list.  What they use need not be listed, so the
search may come to an instruction or a constant that does not exist, or run in a circle.  In a function that lists
what it uses, it ends from every instruction of a reachable block (`Func.WellFormed.searched`).
-/

namespace LoopNest

/-- The operations that the search for a stride goes through. -/
def BinaryOp.isAffine : BinaryOp → Bool
  | .add | .sub | .mul => true
  | _ => false

theorem BinaryOp.isFloat_of_isAffine {o : BinaryOp} (h : o.isAffine = true) :
    o.isFloat = false := by
  cases o <;> first | rfl | cases h

theorem BinaryOp.isAffine_iff {o : BinaryOp} :
    o.isAffine = true ↔ o = .add ∨ o = .sub ∨ o = .mul := by
  cases o <;> simp [isAffine]

namespace NaturalLoop

/-- The stride of the result of an operation, from the strides of its operands. -/
def operationStride (f : Func) : BinaryOp → Operand → Operand → Int64 → Int64 → Option Int64
  | .add, _, _, ls, rs => checkedI64 (ls.toInt + rs.toInt)
  | .sub, _, _, ls, rs => checkedI64 (ls.toInt - rs.toInt)
  | .mul, lhs, rhs, ls, rs => productStride f lhs rhs ls rs
  | _, _, _, _, _ => none

/-- What the search comes to at an operation on operands with strides. -/
def operationSearch (f : Func) (o : BinaryOp) (a b : Operand) (ls rs : Int64) :
    Option (Option Int64) :=
  if o = .mul ∧ productLost f a b ls rs = true then none else some (operationStride f o a b ls rs)

section

variable (l : NaturalLoop) (f : Func) (dom : DomTree) (iv : Operand)

/-- From an instruction, the search for a stride goes on to the operands of an operation. -/
structure Follows (i : InstId) (o : BinaryOp) (a b : Operand) : Prop where
  ne : .inst i ≠ iv
  varies : l.isInvariant f dom (.inst i) = false
  op_eq : f.op i = .binary o a b
  affine : o.isAffine = true

/-- The search for the stride of a value, and what it ends with. -/
inductive Searched : Operand → Option Int64 → Prop where
  /-- The induction value. -/
  | self : Searched iv (some 1)
  /-- What is invariant. -/
  | invariant {v : Operand} : v ≠ iv → l.isInvariant f dom v = true → Searched v (some 0)
  /-- An instruction that the search does not go through. -/
  | other {i : InstId} : .inst i ≠ iv → l.isInvariant f dom (.inst i) = false →
      i < f.insts.size → (∀ o a b, ¬ Follows l f dom iv i o a b) → Searched (.inst i) none
  /-- The first operand has no stride. -/
  | left {i : InstId} {o : BinaryOp} {a b : Operand} : Follows l f dom iv i o a b →
      Searched a none → Searched (.inst i) none
  /-- Only the second operand has none. -/
  | right {i : InstId} {o : BinaryOp} {a b : Operand} {c : Int64} : Follows l f dom iv i o a b →
      Searched a (some c) → Searched b none → Searched (.inst i) none
  /-- Both operands have strides. -/
  | both {i : InstId} {o : BinaryOp} {a b : Operand} {c₁ c₂ : Int64} : Follows l f dom iv i o a b →
      Searched a (some c₁) → Searched b (some c₂) → (o = .mul → productLost f a b c₁ c₂ = false) →
      Searched (.inst i) (operationStride f o a b c₁ c₂)

end

variable {l : NaturalLoop} {f : Func} {dom : DomTree} {iv v : Operand} {i : InstId} {o : BinaryOp}
  {a b : Operand} {c : Int64} {r : Option Int64} {n : Nat}

/-! ## One step of the search -/

/-- The search ends at once, or goes on to two operands. -/
theorem search_cases (l : NaturalLoop) (f : Func) (dom : DomTree) (iv v : Operand) :
    v = iv ∨ (v ≠ iv ∧ l.isInvariant f dom v = true) ∨
      ∃ i, v = .inst i ∧ v ≠ iv ∧ l.isInvariant f dom v = false ∧
        ((∃ o a b, l.Follows f dom iv i o a b) ∨ ∀ o a b, ¬ l.Follows f dom iv i o a b) := by
  by_cases hv : v = iv
  · exact .inl hv
  · cases hinv : l.isInvariant f dom v with
    | true => exact .inr (.inl ⟨hv, rfl⟩)
    | false =>
      cases v with
      | inst i =>
        refine .inr (.inr ⟨i, rfl, hv, rfl, ?_⟩)
        by_cases h : ∃ o a b, l.Follows f dom iv i o a b
        · exact .inl h
        · exact .inr fun o a b hf => h ⟨o, a, b, hf⟩
      | _ => cases hinv

theorem strideWithin_iv (n : Nat) : l.strideWithin f dom iv (n + 1) iv = some 1 := by
  unfold strideWithin
  exact if_pos rfl

theorem strideWithin_invariant (hv : v ≠ iv) (hinv : l.isInvariant f dom v = true) (n : Nat) :
    l.strideWithin f dom iv (n + 1) v = some 0 := by
  unfold strideWithin
  rw [if_neg hv, if_pos hinv]

theorem Follows.strideWithin_eq (h : l.Follows f dom iv i o a b) (n : Nat) :
    l.strideWithin f dom iv (n + 1) (.inst i) =
      (l.strideWithin f dom iv n a).bind fun ls =>
        (l.strideWithin f dom iv n b).bind fun rs => operationStride f o a b ls rs := by
  rw [strideWithin, if_neg h.ne, if_neg (by simp [h.varies])]
  simp only [h.op_eq]
  rcases BinaryOp.isAffine_iff.mp h.affine with rfl | rfl | rfl <;> rfl

theorem strideWithin_other (hv : .inst i ≠ iv) (hinv : l.isInvariant f dom (.inst i) = false)
    (h : ∀ o a b, ¬ l.Follows f dom iv i o a b) (n : Nat) :
    l.strideWithin f dom iv n (.inst i) = none := by
  cases n with
  | zero => rfl
  | succ n =>
    rw [strideWithin, if_neg hv, if_neg (by simp [hinv])]
    cases hop : f.op i with
    | binary o a b =>
      have ho : ¬ o.isAffine = true := fun ho => h o a b ⟨hv, hinv, hop, ho⟩
      cases o <;> first | rfl | exact absurd rfl ho
    | _ => rfl

/-- An instruction that is followed exists. -/
theorem Follows.lt (h : l.Follows f dom iv i o a b) : i < f.insts.size := by
  by_contra hi
  have hop := h.op_eq
  simp [Func.op, Func.inst, Array.getElem?_eq_none (Nat.le_of_not_lt hi)] at hop

theorem Follows.searchWithin_eq (h : l.Follows f dom iv i o a b) (n : Nat) :
    l.searchWithin f dom iv (n + 1) (.inst i) =
      match l.searchWithin f dom iv n a with
      | some (some ls) =>
        match l.searchWithin f dom iv n b with
        | some (some rs) => operationSearch f o a b ls rs
        | r => r
      | r => r := by
  have hlt : f.lacksInst (.inst i) = false := decide_eq_false (Nat.not_le.mpr h.lt)
  rw [searchWithin, if_neg h.ne, if_neg (by simp [hlt]), if_neg (by simp [h.varies])]
  simp only [h.op_eq]
  rw [if_pos (BinaryOp.isAffine_iff.mp h.affine)]
  rcases l.searchWithin f dom iv n a with _ | _ | ls
  · rfl
  · rfl
  rcases l.searchWithin f dom iv n b with _ | _ | rs
  · rfl
  · rfl
  rcases BinaryOp.isAffine_iff.mp h.affine with rfl | rfl | rfl <;>
    simp [operationSearch, operationStride]

theorem searchWithin_iv (n : Nat) : l.searchWithin f dom iv (n + 1) iv = some (some 1) := by
  unfold searchWithin
  exact if_pos rfl

/-- What is invariant exists. -/
theorem lt_of_isInvariant (h : l.isInvariant f dom (.inst i) = true) : i < f.insts.size := by
  by_contra hi
  have hown : f.owner i = none := by
    simp [Func.owner, Func.inst, Array.getElem?_eq_none (Nat.le_of_not_lt hi)]
  simp [isInvariant, hown] at h

theorem searchWithin_invariant (hv : v ≠ iv) (hinv : l.isInvariant f dom v = true) (n : Nat) :
    l.searchWithin f dom iv (n + 1) v = some (some 0) := by
  have hlacks : f.lacksInst v = false := by
    cases v with
    | inst i => exact decide_eq_false (Nat.not_le.mpr (lt_of_isInvariant hinv))
    | _ => rfl
  unfold searchWithin
  rw [if_neg hv, if_neg (by simp [hlacks]), if_pos hinv]

/-- What is invariant needs no search. -/
theorem searchWithin_same (hinv : l.isInvariant f dom v = true) (n m : Nat) :
    l.searchWithin f dom iv (n + 1) v = l.searchWithin f dom iv (m + 1) v := by
  by_cases hv : v = iv
  · rw [hv, searchWithin_iv, searchWithin_iv]
  · rw [searchWithin_invariant hv hinv, searchWithin_invariant hv hinv]

theorem searchWithin_other (hv : .inst i ≠ iv) (hinv : l.isInvariant f dom (.inst i) = false)
    (h : ∀ o a b, ¬ l.Follows f dom iv i o a b) (n : Nat) :
    l.searchWithin f dom iv (n + 1) (.inst i) =
      if f.insts.size ≤ i then none else some none := by
  rw [searchWithin, if_neg hv]
  by_cases hi : f.insts.size ≤ i
  · rw [if_pos (by simpa [Func.lacksInst] using hi), if_pos hi]
  · rw [if_neg (by simpa [Func.lacksInst] using hi), if_neg (by simp [hinv]), if_neg hi]
    cases heq : f.op i with
    | binary o a b =>
      exact if_neg fun ho => h o a b ⟨hv, hinv, heq, BinaryOp.isAffine_iff.mpr ho⟩
    | _ => rfl

/-! ## Fuel -/

/-- A stride that was found is found with more fuel. -/
theorem strideWithin_succ (h : l.strideWithin f dom iv n v = some c) :
    l.strideWithin f dom iv (n + 1) v = some c := by
  induction n generalizing v c with
  | zero => cases h
  | succ n ih =>
    rcases search_cases l f dom iv v with rfl | ⟨hv, hinv⟩ | ⟨i, rfl, hv, hinv, ⟨o, a, b, hf⟩ | hno⟩
    · rwa [strideWithin_iv] at h ⊢
    · rwa [strideWithin_invariant hv hinv] at h ⊢
    · rw [hf.strideWithin_eq] at h ⊢
      simp only [Option.bind_eq_some_iff] at h ⊢
      obtain ⟨ls, hls, rs, hrs, hc⟩ := h
      exact ⟨ls, ih hls, rs, ih hrs, hc⟩
    · rw [strideWithin_other hv hinv hno] at h
      cases h

/-- The result of following an operation, in terms of what its operands come to. -/
theorem Follows.searchWithin_eq_some (h : l.Follows f dom iv i o a b) :
    l.searchWithin f dom iv (n + 1) (.inst i) = some r ↔
      (l.searchWithin f dom iv n a = some none ∧ r = none) ∨
      (∃ ls, l.searchWithin f dom iv n a = some (some ls) ∧
        l.searchWithin f dom iv n b = some none ∧ r = none) ∨
      ∃ ls rs, l.searchWithin f dom iv n a = some (some ls) ∧
        l.searchWithin f dom iv n b = some (some rs) ∧ operationSearch f o a b ls rs = some r := by
  rw [h.searchWithin_eq]
  rcases l.searchWithin f dom iv n a with _ | _ | ls
  · simp
  · simp [eq_comm]
  · rcases l.searchWithin f dom iv n b with _ | _ | rs <;> simp [eq_comm]

/-- What a search comes to it also comes to with more fuel. -/
theorem searchWithin_succ (h : l.searchWithin f dom iv n v = some r) :
    l.searchWithin f dom iv (n + 1) v = some r := by
  induction n generalizing v r with
  | zero => cases h
  | succ n ih =>
    rcases search_cases l f dom iv v with rfl | ⟨hv, hinv⟩ | ⟨i, rfl, hv, hinv, ⟨o, a, b, hf⟩ | hno⟩
    · rwa [searchWithin_iv] at h ⊢
    · rwa [searchWithin_invariant hv hinv] at h ⊢
    · rw [hf.searchWithin_eq_some] at h ⊢
      rcases h with ⟨ha, hr⟩ | ⟨ls, ha, hb, hr⟩ | ⟨ls, rs, ha, hb, hr⟩
      · exact .inl ⟨ih ha, hr⟩
      · exact .inr (.inl ⟨ls, ih ha, ih hb, hr⟩)
      · exact .inr (.inr ⟨ls, rs, ih ha, ih hb, hr⟩)
    · rwa [searchWithin_other hv hinv hno] at h ⊢

theorem searchWithin_mono {m : Nat} (hnm : n ≤ m) (h : l.searchWithin f dom iv n v = some r) :
    l.searchWithin f dom iv m v = some r := by
  induction hnm with
  | refl => exact h
  | step _ ih => exact searchWithin_succ ih

/-- A search is no longer than the list of instructions. -/
theorem searchWithin_eq (hle : f.insts.size ≤ n) (v : Operand) :
    l.searchWithin f dom iv (n + 1) v = l.searchWithin f dom iv (f.insts.size + 1) v := by
  cases v with
  | param k => exact searchWithin_same rfl _ _
  | const c => exact searchWithin_same rfl _ _
  | inst i =>
    refine congrFun (fuel_enough (s := fun n i => l.searchWithin f dom iv (n + 1) (.inst i))
      none (fun n i hne => ?_) (fun n i hi => ?_) (fun n heq => ?_) hle) i
    · obtain ⟨r, hr⟩ := Option.ne_none_iff_exists'.mp hne
      exact (searchWithin_succ hr).trans hr.symm
    · -- There is no such instruction.
      have hlacks : f.lacksInst (.inst i) = true := decide_eq_true hi
      simp only [searchWithin, hlacks, if_true]
    · have hall (v : Operand) :
          l.searchWithin f dom iv (n + 1 + 1) v = l.searchWithin f dom iv (n + 1) v := by
        cases v with
        | inst i => exact congrFun heq i
        | _ => exact searchWithin_same rfl _ _
      funext i
      change l.searchWithin f dom iv (n + 1 + 1 + 1) _ = l.searchWithin f dom iv (n + 1 + 1) _
      rw [searchWithin, searchWithin]
      simp only [hall]

/-- A search that comes to something has found the stride, or that there is none. -/
theorem strideWithin_of_searchWithin (h : l.searchWithin f dom iv n v = some r) :
    l.strideWithin f dom iv n v = r := by
  induction n generalizing v r with
  | zero => cases h
  | succ n ih =>
    rcases search_cases l f dom iv v with rfl | ⟨hv, hinv⟩ | ⟨i, rfl, hv, hinv, ⟨o, a, b, hf⟩ | hno⟩
    · rw [searchWithin_iv] at h
      exact (strideWithin_iv n).trans (Option.some.inj h)
    · rw [searchWithin_invariant hv hinv] at h
      exact (strideWithin_invariant hv hinv n).trans (Option.some.inj h)
    · rw [hf.strideWithin_eq]
      rcases hf.searchWithin_eq_some.mp h with ⟨ha, rfl⟩ | ⟨ls, ha, hb, rfl⟩ | ⟨ls, rs, ha, hb, hr⟩
      · rw [ih ha]
        rfl
      · rw [ih ha, ih hb]
        rfl
      · rw [ih ha, ih hb]
        rw [operationSearch] at hr
        split at hr
        · cases hr
        · exact Option.some.inj hr
    · rw [searchWithin_other hv hinv hno] at h
      rw [strideWithin_other hv hinv hno]
      split at h
      · cases h
      · exact Option.some.inj h

/-- As much fuel as there are instructions finds the stride. -/
theorem strideWithin_eq_stride? (hle : f.insts.size ≤ n) (v : Operand) :
    l.strideWithin f dom iv (n + 1) v = l.stride? f dom v iv := by
  cases v with
  | param k => rfl
  | const c => rfl
  | inst i =>
    refine congrFun (fuel_enough (s := fun n i => l.strideWithin f dom iv (n + 1) (.inst i))
      none (fun n i hne => ?_) (fun n i hi => ?_) (fun n heq => ?_) hle) i
    · obtain ⟨s, hs⟩ := Option.ne_none_iff_exists'.mp hne
      exact (strideWithin_succ hs).trans hs.symm
    · -- There is no such instruction.
      have hop : f.op i = .alloca 0 0 := by
        simp [Func.op, Func.inst, Array.getElem?_eq_none hi]
      simp only [strideWithin, hop]
    · have hall (v : Operand) :
          l.strideWithin f dom iv (n + 1 + 1) v = l.strideWithin f dom iv (n + 1) v := by
        cases v with
        | inst i => exact congrFun heq i
        | param k => rfl
        | const c => rfl
      funext i
      change l.strideWithin f dom iv (n + 1 + 1 + 1) _ = l.strideWithin f dom iv (n + 1 + 1) _
      rw [strideWithin, strideWithin]
      simp only [hall]

/-! ## What a search ends with -/

/-- With enough fuel, a search comes to what it ends with. -/
theorem Searched.within (h : l.Searched f dom iv v r) : ∃ n, l.searchWithin f dom iv n v = some r := by
  induction h with
  | self => exact ⟨1, searchWithin_iv 0⟩
  | invariant hv hinv => exact ⟨1, searchWithin_invariant hv hinv 0⟩
  | other hv hinv hi hno =>
    exact ⟨1, (searchWithin_other hv hinv hno 0).trans (if_neg (Nat.not_le.mpr hi))⟩
  | left hf _ iha =>
    obtain ⟨n, ha⟩ := iha
    exact ⟨n + 1, hf.searchWithin_eq_some.mpr (.inl ⟨ha, rfl⟩)⟩
  | right hf _ _ iha ihb =>
    obtain ⟨n, ha⟩ := iha
    obtain ⟨n', hb⟩ := ihb
    exact ⟨max n n' + 1, hf.searchWithin_eq_some.mpr (.inr (.inl ⟨_,
      searchWithin_mono (Nat.le_max_left _ _) ha, searchWithin_mono (Nat.le_max_right _ _) hb, rfl⟩))⟩
  | both hf _ _ hlost iha ihb =>
    obtain ⟨n, ha⟩ := iha
    obtain ⟨n', hb⟩ := ihb
    refine ⟨max n n' + 1, hf.searchWithin_eq_some.mpr (.inr (.inr ⟨_, _,
      searchWithin_mono (Nat.le_max_left _ _) ha, searchWithin_mono (Nat.le_max_right _ _) hb, ?_⟩))⟩
    exact if_neg fun ⟨ho, hl⟩ => by cases (hlost ho).symm.trans hl

/-- A search that comes to something ends with it. -/
theorem searched_of_searchWithin (h : l.searchWithin f dom iv n v = some r) :
    l.Searched f dom iv v r := by
  induction n generalizing v r with
  | zero => cases h
  | succ n ih =>
    rcases search_cases l f dom iv v with rfl | ⟨hv, hinv⟩ | ⟨i, rfl, hv, hinv, ⟨o, a, b, hf⟩ | hno⟩
    · rw [searchWithin_iv] at h
      exact Option.some.inj h ▸ .self
    · rw [searchWithin_invariant hv hinv] at h
      exact Option.some.inj h ▸ .invariant hv hinv
    · rcases hf.searchWithin_eq_some.mp h with ⟨ha, rfl⟩ | ⟨ls, ha, hb, rfl⟩ | ⟨ls, rs, ha, hb, hr⟩
      · exact .left hf (ih ha)
      · exact .right hf (ih ha) (ih hb)
      · rw [operationSearch] at hr
        split at hr
        · cases hr
        · rename_i hlost
          cases Option.some.inj hr
          exact .both hf (ih ha) (ih hb) fun ho => Bool.eq_false_iff.mpr fun hl => hlost ⟨ho, hl⟩
    · rw [searchWithin_other hv hinv hno] at h
      split at h
      · cases h
      · rename_i hi
        cases Option.some.inj h
        exact .other hv hinv (Nat.lt_of_not_le hi) hno

/-- The search ends with the stride. -/
theorem Searched.stride?_eq (h : l.Searched f dom iv v r) : l.stride? f dom v iv = r := by
  obtain ⟨n, hn⟩ := h.within
  rw [← strideWithin_eq_stride? (Nat.le_max_left _ n)]
  exact strideWithin_of_searchWithin
    (searchWithin_mono (Nat.le_succ_of_le (Nat.le_max_right _ _)) hn)

/-- A search does not get stuck exactly if it ends. -/
theorem isStuck_eq_false_iff : l.isStuck f dom v iv = false ↔ ∃ r, l.Searched f dom iv v r := by
  rw [isStuck, Option.isNone_eq_false_iff, Option.isSome_iff_exists]
  refine exists_congr fun r => ⟨searched_of_searchWithin, fun h => ?_⟩
  obtain ⟨n, hn⟩ := h.within
  rw [← searchWithin_eq (Nat.le_max_left _ n)]
  exact searchWithin_mono (Nat.le_succ_of_le (Nat.le_max_right _ _)) hn

theorem lacksConst_eq_false_of_isSome (h : (f.intLiteral? v).isSome) : f.lacksConst v = false := by
  cases v with
  | const c =>
    by_contra hc
    have hle : f.constants.size ≤ c := by simpa [Func.lacksConst] using hc
    simp [Func.intLiteral?, Func.literal?, Array.getElem?_eq_none hle] at h
  | _ => rfl

/-- The stride of a product that is found asks for no constant that does not exist. -/
theorem productLost_eq_false {ls rs : Int64} (h : (productStride f a b ls rs).isSome) :
    productLost f a b ls rs = false := by
  unfold productStride at h
  unfold productLost
  split at h
  · rename_i hrs
    rw [if_pos hrs]
    split at h
    · simp [*]
    · cases hb : f.intLiteral? b with
      | none => simp [hb] at h
      | some k =>
        rw [lacksConst_eq_false_of_isSome (Option.isSome_of_eq_some hb), Bool.and_false]
  · rename_i hrs
    rw [if_neg hrs]
    split at h
    · cases ha : f.intLiteral? a with
      | none => simp [ha] at h
      | some k =>
        rw [lacksConst_eq_false_of_isSome (Option.isSome_of_eq_some ha), Bool.and_false]
    · simp [*]

/-- A stride that is found is what a search ends with. -/
theorem searched_of_strideWithin (h : l.strideWithin f dom iv n v = some c) :
    l.Searched f dom iv v (some c) := by
  induction n generalizing v c with
  | zero => cases h
  | succ n ih =>
    rcases search_cases l f dom iv v with rfl | ⟨hv, hinv⟩ | ⟨i, rfl, hv, hinv, ⟨o, a, b, hf⟩ | hno⟩
    · rw [strideWithin_iv] at h
      exact h ▸ .self
    · rw [strideWithin_invariant hv hinv] at h
      exact h ▸ .invariant hv hinv
    · rw [hf.strideWithin_eq] at h
      obtain ⟨ls, hls, h⟩ := Option.bind_eq_some_iff.mp h
      obtain ⟨rs, hrs, h⟩ := Option.bind_eq_some_iff.mp h
      have hlost : o = .mul → productLost f a b ls rs = false := by
        rintro rfl
        exact productLost_eq_false (Option.isSome_of_eq_some h)
      exact h ▸ .both hf (ih hls) (ih hrs) hlost
    · rw [strideWithin_other hv hinv hno] at h
      cases h

theorem searched_of_stride? (h : l.stride? f dom v iv = some c) : l.Searched f dom iv v (some c) :=
  searched_of_strideWithin h

/-! ## Searches that end -/

/-- A search can only fail to end at an instruction. -/
theorem exists_searched_of_operand (h : ∀ j, v = .inst j → ∃ r, l.Searched f dom iv (.inst j) r) :
    ∃ r, l.Searched f dom iv v r := by
  rcases search_cases l f dom iv v with rfl | ⟨hv, hinv⟩ | ⟨j, rfl, _⟩
  · exact ⟨some 1, .self⟩
  · exact ⟨some 0, .invariant hv hinv⟩
  · exact h j rfl

/-- A search ends from an instruction if the operands exist and searches end from the instructions
among them. -/
theorem exists_searched (hi : i < f.insts.size)
    (h : (f.op i).isPhi = false → (f.op i).isTerminator = false → ∀ v ∈ (f.op i).operands,
      f.lacksConst v = false ∧ ∀ j, v = .inst j → ∃ r, l.Searched f dom iv (.inst j) r) :
    ∃ r, l.Searched f dom iv (.inst i) r := by
  rcases search_cases l f dom iv (.inst i) with
    hv | ⟨hv, hinv⟩ | ⟨_, ⟨⟩, hv, hinv, ⟨o, a, b, hf⟩ | hno⟩
  · exact ⟨some 1, hv ▸ .self⟩
  · exact ⟨_, .invariant hv hinv⟩
  · have operand := h (by rw [hf.op_eq]; rfl) (by rw [hf.op_eq]; rfl)
    rw [hf.op_eq] at operand
    obtain ⟨hca, ha⟩ := operand a List.mem_cons_self
    obtain ⟨hcb, hb⟩ := operand b (List.mem_cons_of_mem _ List.mem_cons_self)
    obtain ⟨r, ha⟩ := exists_searched_of_operand ha
    obtain ⟨r', hb⟩ := exists_searched_of_operand hb
    cases r with
    | none => exact ⟨_, .left hf ha⟩
    | some c₁ =>
      cases r' with
      | none => exact ⟨_, .right hf ha hb⟩
      | some c₂ => exact ⟨_, .both hf ha hb fun _ => by simp [productLost, hca, hcb]⟩
  · exact ⟨_, .other hv hinv hi hno⟩

end NaturalLoop

/-- The verifier looks for the constants that listed instructions use. -/
theorem Func.lacksConst_eq_false_of_operandExists {f : Func} {v : Operand}
    (h : Verify.operandExists f v = true) : f.lacksConst v = false := by
  cases v with
  | const c => simpa [lacksConst, Verify.operandExists] using h
  | _ => rfl

/-- In a function that lists what it uses, the search for a stride ends. -/
theorem Func.WellFormed.searched {f : Func} (hf : f.WellFormed) (hl : f.UsesListed)
    (l : NaturalLoop) (dom : DomTree) (iv : Operand) {v : Operand}
    (hv : ∀ i, v = .inst i → ∃ b, (FlowGraph.ofFunc f).Reachable b ∧ i ∈ f.body b) :
    l.Searched f dom iv v (l.stride? f dom v iv) := by
  obtain ⟨r, hr⟩ : ∃ r, l.Searched f dom iv v r := by
    refine NaturalLoop.exists_searched_of_operand fun i hi => ?_
    obtain ⟨b, hr, hi⟩ := hv i hi
    refine hf.use_induction (motive := fun i => ∃ r, l.Searched f dom iv (.inst i) r) hl
      (fun c hc i hi ih => ?_) hr hi
    refine NaturalLoop.exists_searched (hf.inst_lt hc hi) fun hphi _ v hv => ⟨?_, ?_⟩
    · exact lacksConst_eq_false_of_operandExists (hf.operand_exists c hc i hi v hv)
    · rintro j rfl
      exact ih hphi j hv
  rw [hr.stride?_eq]
  exact hr

end LoopNest
