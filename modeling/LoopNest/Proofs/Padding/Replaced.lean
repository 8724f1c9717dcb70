import LoopNest.Proofs.Func.Grow
import LoopNest.Proofs.Padding.Planned
import LoopNest.Proofs.Verified

/-!
# Functions with padded stack slots

Each replaced slot gets two new instructions, a wider slot and a cast of its address, numbered
in order after the old ones (`Padding.replacement?`).  `Padding.Padded` describes the function
with some slots replaced: a block lists the two new instructions in place of the slot, and all
other instructions use the cast.

`Padding.Padded.replace` says what replacing one more slot does, and `Padding.padded_foldl`
follows by induction on the slots.  It asks that no instruction is listed twice.
-/

namespace LoopNest

namespace Padding

/-! ## Numbers of the new instructions -/

/-- The new slot and the cast that replace a slot, numbered from `n` on. -/
def replacement? (n : Nat) (slots : List Slot) (i : InstId) : Option (InstId × InstId) :=
  (slots.findIdx? (·.alloca = i)).map fun k => (n + 2 * k, n + 2 * k + 1)

/-- The instruction to use in place of another one. -/
def rename (n : Nat) (slots : List Slot) (i : Nat) : Nat :=
  match replacement? n slots i with
  | some (_, cast) => cast
  | none => i

/-- The operand to use in place of another one. -/
def renameOperand (n : Nat) (slots : List Slot) : Operand → Operand
  | .inst i => .inst (rename n slots i)
  | v => v

/-- The instructions to list in place of another one. -/
def expand (n : Nat) (slots : List Slot) (i : InstId) : List InstId :=
  match replacement? n slots i with
  | some (slot, cast) => [slot, cast]
  | none => [i]

variable {n : Nat} {slots : List Slot} {s : Slot} {i j a c : Nat}

theorem replacement?_eq_some (h : replacement? n slots i = some (a, c)) :
    ∃ k s, slots[k]? = some s ∧ s.alloca = i ∧ a = n + 2 * k ∧ c = n + 2 * k + 1 := by
  unfold replacement? at h
  obtain ⟨k, hk, heq⟩ := Option.map_eq_some_iff.mp h
  obtain ⟨hlt, hi, _⟩ := List.findIdx?_eq_some_iff_getElem.mp hk
  cases heq
  exact ⟨k, slots[k], List.getElem?_eq_getElem hlt, by simpa using hi, rfl, rfl⟩

theorem replacement?_eq_none : replacement? n slots i = none ↔ ∀ s ∈ slots, s.alloca ≠ i := by
  simp [replacement?]

/-- The numbers of one more slot come after the others. -/
theorem replacement?_concat : replacement? n (slots ++ [s]) i =
    (replacement? n slots i).or
      (if s.alloca = i then some (n + 2 * slots.length, n + 2 * slots.length + 1) else none) := by
  unfold replacement?
  rw [List.findIdx?_append]
  cases slots.findIdx? (·.alloca = i) with
  | some k => rfl
  | none => by_cases hi : s.alloca = i <;> simp [hi, List.findIdx?_cons]

/-- An instruction is renamed to itself or to a new cast. -/
theorem rename_cases (n : Nat) (slots : List Slot) (i : Nat) :
    (replacement? n slots i = none ∧ rename n slots i = i) ∨
      ∃ k s, slots[k]? = some s ∧ s.alloca = i ∧
        replacement? n slots i = some (n + 2 * k, n + 2 * k + 1) ∧
        rename n slots i = n + 2 * k + 1 := by
  unfold rename
  cases h : replacement? n slots i with
  | none => exact .inl ⟨rfl, rfl⟩
  | some x =>
    obtain ⟨a, c⟩ := x
    obtain ⟨k, s, hk, hs, rfl, rfl⟩ := replacement?_eq_some h
    exact .inr ⟨k, s, hk, hs, rfl, rfl⟩

/-- Two instructions are not renamed to the same one. -/
theorem rename_injective (hi : i < n) (hj : j < n) (h : rename n slots i = rename n slots j) :
    i = j := by
  rcases rename_cases n slots i with ⟨_, hi'⟩ | ⟨k, s, hk, hs, _, hi'⟩ <;>
    rcases rename_cases n slots j with ⟨_, hj'⟩ | ⟨l, u, hl, hu, _, hj'⟩
  · omega
  · omega
  · omega
  · obtain rfl : k = l := by omega
    rw [hk] at hl
    rw [← hs, ← hu, Option.some.inj hl]

/-- What is listed in place of an instruction is that instruction or new. -/
theorem mem_expand (h : j ∈ expand n slots i) : (j = i ∧ replacement? n slots i = none) ∨
    ∃ k s, slots[k]? = some s ∧ s.alloca = i ∧
      replacement? n slots i = some (n + 2 * k, n + 2 * k + 1) ∧
      (j = n + 2 * k ∨ j = n + 2 * k + 1) := by
  unfold expand at h
  cases hr : replacement? n slots i with
  | none => exact .inl ⟨by simpa [hr] using h, rfl⟩
  | some x =>
    obtain ⟨a, c⟩ := x
    obtain ⟨k, s, hk, hs, rfl, rfl⟩ := replacement?_eq_some hr
    exact .inr ⟨k, s, hk, hs, rfl, by simpa [hr] using h⟩

theorem expand_of_none (h : replacement? n slots i = none) : expand n slots i = [i] := by
  simp [expand, h]

theorem rename_mem_expand : rename n slots i ∈ expand n slots i := by
  unfold rename expand
  cases replacement? n slots i with
  | none => simp
  | some x => simp

/-- Old instructions stand for themselves. -/
theorem eq_of_mem_expand (h : j ∈ expand n slots i) (hj : j < n) :
    j = i ∧ replacement? n slots i = none := by
  rcases mem_expand h with h | ⟨k, s, _, _, _, h | h⟩
  · exact h
  · omega
  · omega

/-- A new cast stands behind its slot. -/
theorem slot_mem_expand {k : Nat} (h : n + 2 * k + 1 ∈ expand n slots i) (hi : i < n) :
    n + 2 * k ∈ expand n slots i := by
  unfold expand at h ⊢
  cases hr : replacement? n slots i with
  | none =>
    simp only [hr, List.mem_singleton] at h
    omega
  | some x =>
    obtain ⟨a, c⟩ := x
    obtain ⟨l, s, -, -, rfl, rfl⟩ := replacement?_eq_some hr
    simp only [hr, List.mem_cons, List.not_mem_nil, or_false] at h ⊢
    omega

theorem expand_concat_of_ne (h : s.alloca ≠ i) :
    expand n (slots ++ [s]) i = expand n slots i := by
  simp [expand, replacement?_concat, h]

theorem flatMap_expand_concat {is : List InstId} (h : s.alloca ∉ is) :
    is.flatMap (expand n (slots ++ [s])) = is.flatMap (expand n slots) :=
  List.flatMap_congr fun _ hi => expand_concat_of_ne fun heq => h (heq ▸ hi)

theorem replacement?_concat_eq_none : replacement? n (slots ++ [s]) i = none ↔
    replacement? n slots i = none ∧ s.alloca ≠ i := by
  simp [replacement?_eq_none, or_imp, forall_and]

theorem expand_concat_self (h : replacement? n slots s.alloca = none) :
    expand n (slots ++ [s]) s.alloca = [n + 2 * slots.length, n + 2 * slots.length + 1] := by
  simp [expand, replacement?_concat, h]

theorem renameOperand_concat (hs : replacement? n slots s.alloca = none) (hlt : s.alloca < n)
    (v : Operand) : renameOperand n (slots ++ [s]) v =
      if renameOperand n slots v = .inst s.alloca then .inst (n + 2 * slots.length + 1)
      else renameOperand n slots v := by
  cases v with
  | inst i =>
    simp only [renameOperand, Operand.inst.injEq]
    by_cases hi : s.alloca = i
    · subst hi
      simp [rename, replacement?_concat, hs]
    · rcases rename_cases n slots i with ⟨hnone, hi'⟩ | ⟨k, u, _, _, hr, hi'⟩
      · simp [rename, replacement?_concat, hnone, hi, Ne.symm hi]
      · have hne : n + 2 * k + 1 ≠ s.alloca := (Nat.lt_of_lt_of_le hlt (by omega)).ne'
        simp [rename, replacement?_concat, hr, hne]
  | _ => simp [renameOperand]

/-! ## Replacing one slot -/

section

variable {g : Func} {pre post : List InstId}

theorem findIdx?_self (h : a ∉ pre) :
    (pre ++ a :: post).findIdx? (· = a) = some pre.length := by
  rw [List.findIdx?_append, List.findIdx?_eq_none_iff.mpr fun x hx => ?_]
  · simp [List.findIdx?_cons]
  · simpa using fun hxa : x = a => h (hxa ▸ hx)

theorem filter_ne_self (h : a ∉ pre) : pre.filter (· ≠ a) = pre :=
  List.filter_eq_self.mpr fun x hx => by simpa using fun hxa : x = a => h (hxa ▸ hx)

/-- The new slot. -/
def Slot.wide (s : Slot) : Inst :=
  ⟨.alloca s.padded granule, s.paddedPtr, some (s.name ++ ".padded"), some s.block⟩

/-- The cast of a new slot. -/
def Slot.cast (s : Slot) (wide : InstId) : Inst :=
  ⟨.bitcast (.inst wide), s.ptr, some s.name, some s.block⟩

/-- The function with the two new instructions of a slot before it. -/
def insertSlot (g : Func) (s : Slot) (pos : Nat) : Func :=
  ((g.insertInst s.block pos ⟨s.wide.op, s.wide.ty, s.wide.name⟩).2.insertInst s.block (pos + 1)
    ⟨(s.cast g.insts.size).op, s.ptr, some s.name⟩).2

theorem replaceSlot_eq (g : Func) (s : Slot) : replaceSlot g s =
    ((insertSlot g s (((g.body s.block).findIdx? (· = s.alloca)).getD 0)).replaceUses
      (.inst s.alloca) (.inst (g.insts.size + 1))).eraseInst s.alloca := by
  simp [replaceSlot, insertSlot, Slot.wide, Slot.cast]

theorem sameOutline_insertSlot (g : Func) (s : Slot) (pos : Nat) :
    g.SameOutline (insertSlot g s pos) ∧ (insertSlot g s pos).insts.size = g.insts.size + 2 :=
  ⟨(g.sameOutline_insertInst _ _ _).trans (Func.sameOutline_insertInst _ _ _ _), by
    simp [insertSlot]⟩

theorem inst_insertSlot (g : Func) (s : Slot) (pos : Nat) (j : InstId) :
    (insertSlot g s pos).inst j =
      if j = g.insts.size + 1 then s.cast g.insts.size
      else if j = g.insts.size then s.wide else g.inst j := by
  simp only [insertSlot, Func.inst_insertInst, Func.insts_size_insertInst]
  rfl

theorem body_insertSlot (hb : s.block < g.blocks.size)
    (hbody : g.body s.block = pre ++ s.alloca :: post) (c : BlockId) :
    (insertSlot g s pre.length).body c = if c = s.block then
      pre ++ g.insts.size :: (g.insts.size + 1) :: s.alloca :: post else g.body c := by
  simp only [insertSlot]
  rw [Func.body_insertInst _ _ _ (by simpa using hb), Func.body_insertInst _ _ _ hb,
    Func.body_insertInst _ _ _ hb]
  by_cases hc : c = s.block
  · simp [hc, hbody, List.take_append, List.take_of_length_le]
  · simp [hc]

/-- What replacing a slot does to a function. -/
structure Replaces (g h : Func) (s : Slot) (pre post : List InstId) : Prop where
  outline : g.SameOutline h
  size_eq : h.insts.size = g.insts.size + 2
  body_eq : ∀ c, h.body c =
    if c = s.block then pre ++ g.insts.size :: (g.insts.size + 1) :: post else g.body c
  ty_eq : ∀ j < g.insts.size, (h.inst j).ty = (g.inst j).ty
  owner_eq : ∀ j < g.insts.size, j ≠ s.alloca → h.owner j = g.owner j
  op_eq : ∀ j ∈ g.liveInsts, j < g.insts.size → h.op j = (g.op j).mapOperands fun v =>
    if v = .inst s.alloca then .inst (g.insts.size + 1) else v
  kept : ∀ j < g.insts.size, (∀ v ∈ (g.op j).operands, v ≠ .inst s.alloca) → j ≠ s.alloca →
    h.inst j = g.inst j
  wide_eq : h.inst g.insts.size = s.wide
  cast_eq : h.inst (g.insts.size + 1) = s.cast g.insts.size

theorem replaces_replaceSlot (hown : g.owner s.alloca = some s.block)
    (hbody : g.body s.block = pre ++ s.alloca :: post) (hpre : s.alloca ∉ pre)
    (hpost : s.alloca ∉ post) : Replaces g (replaceSlot g s) s pre post := by
  have hb : s.block < g.blocks.size := by
    by_contra hlt
    simp [Func.body, Func.block, Array.getElem?_eq_none (Nat.le_of_not_lt hlt), Block.fresh] at hbody
  have halt : s.alloca < g.insts.size := Func.owner_lt hown
  rw [replaceSlot_eq, hbody, findIdx?_self hpre, Option.getD_some]
  obtain ⟨hout₂, hsize₂⟩ := sameOutline_insertSlot g s pre.length
  have hinst₂ := inst_insertSlot g s pre.length
  have hbody₂ := body_insertSlot hb hbody
  generalize insertSlot g s pre.length = g₂ at *
  -- Replacing the uses keeps everything but operations.
  have hne : Operand.inst (g.insts.size + 1) ≠ .inst s.alloca := by
    simpa using (Nat.lt_succ_of_lt halt).ne'
  obtain ⟨hout₃, hblocks₃, hsize₃⟩ := Func.modifyOps_shape
    (Op.mapOperands fun v => if v = .inst s.alloca then .inst (g.insts.size + 1) else v)
    g₂.liveInsts g₂
  have hinst₃ := fun j hj => g₂.inst_replaceUses hne (j := j) hj
  change g₂.SameOutline (g₂.replaceUses _ _) at hout₃
  change (g₂.replaceUses _ _).blocks = _ at hblocks₃
  change (g₂.replaceUses _ _).insts.size = _ at hsize₃
  generalize g₂.replaceUses (.inst s.alloca) (.inst (g.insts.size + 1)) = g₃ at *
  have hlt₂ : ∀ j, j < g.insts.size → j < g₂.insts.size := fun j hj => by omega
  have hold : ∀ j, j < g.insts.size → g₂.inst j = g.inst j := by
    intro j hj
    rw [hinst₂, if_neg (Nat.lt_succ_of_lt hj).ne, if_neg hj.ne]
  have hrest₃ : ∀ j, j < g.insts.size → (g₃.inst j).ty = (g.inst j).ty ∧
      g₃.owner j = g.owner j := by
    intro j hj
    rw [Func.owner, hinst₃ j (hlt₂ j hj), ← hold j hj]
    split <;> exact ⟨rfl, by rw [Func.owner, hold j hj]⟩
  have hlive : ∀ j ∈ g.liveInsts, j ∈ g₂.liveInsts := by
    intro j hj
    obtain ⟨c, hc, hj⟩ := List.mem_flatMap.mp hj
    refine List.mem_flatMap.mpr ⟨c, hout₂.layout_eq ▸ hc, ?_⟩
    rw [hbody₂]
    split
    · rename_i heq
      rw [heq, hbody] at hj
      simp only [List.mem_append, List.mem_cons] at hj ⊢
      tauto
    · exact hj
  -- Operations without the slot as an operand do not change.
  have hkept : ∀ j, j < g₂.insts.size → (∀ v ∈ (g₂.op j).operands, v ≠ .inst s.alloca) →
      g₃.inst j = g₂.inst j := by
    intro j hj hops
    rw [hinst₃ j hj]
    split
    · have hop : (g₂.op j).mapOperands
          (fun v => if v = .inst s.alloca then .inst (g.insts.size + 1) else v) = g₂.op j :=
        Func.mapOperands_eq_self fun v hv => if_neg (hops v hv)
      rw [hop]
      rfl
    · rfl
  have hown₃ : g₃.owner s.alloca = some s.block := (hrest₃ _ halt).2.trans hown
  have hinst := g₃.inst_eraseInst hown₃
  have hnew : ∀ j, g.insts.size ≤ j → (g₃.eraseInst s.alloca).inst j = g₃.inst j := fun j hj => by
    rw [hinst, if_neg (Nat.lt_of_lt_of_le halt hj).ne']
  refine ⟨(hout₂.trans hout₃).trans (g₃.sameOutline_eraseInst _), ?_, fun c => ?_, fun j hj => ?_,
    fun j hj hja => ?_, fun j hj hlt => ?_, fun j hj hops hja => ?_, ?_, ?_⟩
  · rw [Func.insts_size_eraseInst, hsize₃, hsize₂]
  · rw [Func.body_eraseInst _ hown₃, Func.body, Func.block, hblocks₃]
    change (if c = s.block then (g₂.body c).filter _ else g₂.body c) = _
    rw [hbody₂]
    split
    · rw [List.filter_append, filter_ne_self hpre]
      have hne : ∀ x ∈ post, ¬ x = s.alloca := fun x hx heq => hpost (heq ▸ hx)
      simpa [(Nat.lt_succ_of_lt halt).ne', halt.ne'] using hne
    · rfl
  · rw [hinst]
    split <;> exact (hrest₃ j hj).1
  · rw [Func.owner, hinst, if_neg hja]
    exact (hrest₃ j hj).2
  · rw [Func.op, hinst]
    have hop : (g₃.inst j).op = _ := congrArg Inst.op (hinst₃ j (hlt₂ j hlt))
    rw [if_pos (hlive j hj)] at hop
    rw [Func.op, ← hold j hlt]
    split <;> exact hop
  · rw [hinst, if_neg hja, hkept j (hlt₂ j hj) (by rwa [Func.op, hold j hj]), hold j hj]
  · rw [hnew _ (Nat.le_refl _), hkept _ (by omega), hinst₂, if_neg (Nat.lt_succ_self _).ne, if_pos rfl]
    simp [Func.op, hinst₂, Slot.wide, Op.operands]
  · rw [hnew _ (Nat.le_succ _), hkept _ (by omega), hinst₂, if_pos rfl]
    simp [Func.op, hinst₂, Slot.cast, Op.operands, halt.ne']

end

/-! ## Replacing all slots -/

/-- The function `g` is `f` with some slots replaced. -/
structure Padded (f g : Func) (slots : List Slot) : Prop where
  outline : f.SameOutline g
  size_eq : g.insts.size = f.insts.size + 2 * slots.length
  /-- A block lists the replacements in place of the slots. -/
  body_eq : ∀ b ∈ f.layout, g.body b = (f.body b).flatMap (expand f.insts.size slots)
  ty_eq : ∀ i < f.insts.size, (g.inst i).ty = (f.inst i).ty
  owner_eq : ∀ i < f.insts.size, replacement? f.insts.size slots i = none → g.owner i = f.owner i
  /-- Other instructions use the casts. -/
  op_eq : ∀ b ∈ f.layout, ∀ i ∈ f.body b, replacement? f.insts.size slots i = none →
    g.op i = (f.op i).mapOperands (renameOperand f.insts.size slots)
  wide_eq : ∀ k s, slots[k]? = some s → g.inst (f.insts.size + 2 * k) = s.wide
  cast_eq : ∀ k s, slots[k]? = some s →
    g.inst (f.insts.size + 2 * k + 1) = s.cast (f.insts.size + 2 * k)

variable {f g : Func}

theorem renameOperand_nil (n : Nat) : renameOperand n [] = id := by
  funext v
  cases v <;> rfl

theorem Padded.refl (f : Func) : Padded f f [] where
  outline := .refl f
  size_eq := rfl
  body_eq b _ := (List.flatMap_singleton' (f.body b)).symm
  ty_eq _ _ := rfl
  owner_eq _ _ _ := rfl
  op_eq b _ i _ _ := by
    rw [renameOperand_nil]
    exact (Func.mapOperands_eq_self fun v _ => rfl).symm
  wide_eq k s hk := by simp at hk
  cast_eq k s hk := by simp at hk

theorem getElem?_concat {α : Type} {as : List α} {a b : α} {k : Nat}
    (h : (as ++ [a])[k]? = some b) : as[k]? = some b ∨ k = as.length ∧ b = a := by
  rcases Nat.lt_or_ge k as.length with hk | hk
  · rw [List.getElem?_append_left hk] at h
    exact .inl h
  · obtain ⟨hlt, heq⟩ := List.getElem?_eq_some_iff.mp h
    have hk : k = as.length := by
      simp at hlt
      omega
    subst hk
    simpa [eq_comm] using heq

/-- Replacing one more slot. -/
theorem Padded.replace (hP : Padded f g slots) (hf : f.WellFormed) (hnd : f.liveInsts.Nodup)
    (hb : s.block ∈ f.layout) (ha : s.alloca ∈ f.body s.block)
    (hnew : replacement? f.insts.size slots s.alloca = none) :
    Padded f (replaceSlot g s) (slots ++ [s]) := by
  have halt : s.alloca < f.insts.size := hf.inst_lt hb ha
  obtain ⟨pre, post, hbody⟩ := List.append_of_mem ha
  have hnodup : (f.body s.block).Nodup := (List.nodup_flatMap.mp hnd).1 _ hb
  rw [hbody, List.nodup_append, List.nodup_cons] at hnodup
  have hpre : s.alloca ∉ pre := fun h => hnodup.2.2 _ h _ List.mem_cons_self rfl
  have hpost : s.alloca ∉ post := hnodup.2.1.1
  -- The slot is not among what other instructions were replaced by.
  have hout : ∀ is : List InstId, s.alloca ∉ is →
      s.alloca ∉ is.flatMap (expand f.insts.size slots) := by
    intro is his hmem
    obtain ⟨i, hi, hmem⟩ := List.mem_flatMap.mp hmem
    obtain ⟨rfl, _⟩ := eq_of_mem_expand hmem halt
    exact his hi
  have hgbody : g.body s.block = pre.flatMap (expand f.insts.size slots) ++ s.alloca ::
      post.flatMap (expand f.insts.size slots) := by
    rw [hP.body_eq _ hb, hbody, List.flatMap_append, List.flatMap_cons, expand_of_none hnew]
    rfl
  have hgown : g.owner s.alloca = some s.block := by
    rw [hP.owner_eq _ halt hnew]
    exact hf.owner_eq _ hb _ ha
  have hr := replaces_replaceSlot hgown hgbody (hout pre hpre) (hout post hpost)
  have hsize := hP.size_eq
  refine ⟨hP.outline.trans hr.outline, ?_, fun b hb' => ?_, fun i hi => ?_, fun i hi hnone => ?_,
    fun b hb' i hi hnone => ?_, fun k u hk => ?_, fun k u hk => ?_⟩
  · simp only [hr.size_eq, hsize, List.length_append, List.length_singleton]
    omega
  · rw [hr.body_eq]
    split
    · rename_i heq
      rw [heq, hbody, List.flatMap_append, List.flatMap_cons, flatMap_expand_concat hpre,
        flatMap_expand_concat hpost, expand_concat_self hnew, hsize]
      rfl
    · rename_i hne
      have hmem : s.alloca ∉ f.body b := fun hmem => by
        have := hf.owner_eq _ hb' _ hmem
        rw [hf.owner_eq _ hb _ ha] at this
        exact hne (Option.some.inj this).symm
      rw [hP.body_eq b hb', flatMap_expand_concat hmem]
  · rw [hr.ty_eq i (by omega), hP.ty_eq i hi]
  · obtain ⟨hnone, hne⟩ := replacement?_concat_eq_none.mp hnone
    rw [hr.owner_eq i (by omega) (Ne.symm hne), hP.owner_eq i hi hnone]
  · obtain ⟨hnone, hne⟩ := replacement?_concat_eq_none.mp hnone
    have hlive : i ∈ g.liveInsts := by
      refine List.mem_flatMap.mpr ⟨b, hP.outline.layout_eq ▸ hb', ?_⟩
      rw [hP.body_eq b hb']
      exact List.mem_flatMap.mpr ⟨i, hi, by simp [expand_of_none hnone]⟩
    have hilt : i < g.insts.size := Nat.lt_of_lt_of_le (hf.inst_lt hb' hi) (by omega)
    rw [hr.op_eq i hlive hilt, hP.op_eq b hb' i hi hnone, Func.mapOperands_mapOperands]
    congr 1
    funext v
    rw [renameOperand_concat hnew halt, hsize]
    rfl
  · rcases getElem?_concat hk with hk | ⟨rfl, rfl⟩
    · have hklt := (List.getElem?_eq_some_iff.mp hk).1
      have hwide := hP.wide_eq k u hk
      rw [hr.kept _ (by omega) ?_ ?_, hwide]
      · simp [Func.op, hwide, Slot.wide, Op.operands]
      · exact (Nat.lt_of_lt_of_le halt (Nat.le_add_right _ _)).ne'
    · rw [← hsize, hr.wide_eq]
  · rcases getElem?_concat hk with hk | ⟨rfl, rfl⟩
    · have hklt := (List.getElem?_eq_some_iff.mp hk).1
      have hcast := hP.cast_eq k u hk
      rw [hr.kept _ (by omega) ?_ ?_, hcast]
      · simpa [Func.op, hcast, Slot.cast, Op.operands] using
          (Nat.lt_of_lt_of_le halt (Nat.le_add_right _ _)).ne'
      · exact (Nat.lt_of_lt_of_le halt (Nat.le_trans (Nat.le_add_right _ _) (Nat.le_succ _))).ne'
    · rw [← hsize, hr.cast_eq]

/-- Replacing slots that are listed once, each in its own block. -/
theorem padded_foldl (hf : f.WellFormed) (hnd : f.liveInsts.Nodup) : ∀ (todo : List Slot)
    {g : Func} {slots : List Slot}, Padded f g slots →
    (∀ s ∈ todo, s.block ∈ f.layout ∧ s.alloca ∈ f.body s.block) →
    ((slots ++ todo).map Slot.alloca).Nodup → Padded f (todo.foldl replaceSlot g) (slots ++ todo)
  | [], g, slots, hP, _, _ => by simpa using hP
  | s :: todo, g, slots, hP, hmem, hdistinct => by
    obtain ⟨hb, ha⟩ := hmem s List.mem_cons_self
    have hnew : replacement? f.insts.size slots s.alloca = none := by
      rw [replacement?_eq_none]
      intro u hu heq
      rw [List.map_append, List.nodup_append] at hdistinct
      exact hdistinct.2.2 _ (List.mem_map_of_mem hu) _ List.mem_cons_self heq
    have := padded_foldl hf hnd todo (hP.replace hf hnd hb ha hnew)
      (fun u hu => hmem u (List.mem_cons_of_mem _ hu)) (by simpa using hdistinct)
    simpa using this

end Padding

end LoopNest
