import LoopNest.Listing
import Mathlib.Data.List.Nodup

/-!
# Names

A fresh name is the first of `base`, `base.1`, `base.2`, ... that is not taken
(`exists_freshName`).  More names are tried than are taken, so there is one.

In the listing of a function, every block and every instruction gets a fresh name, and it keeps it:
no two of them are shown alike (`Listing.Names.Apart`).  Parameters are shown under their own names,
and these are not among the taken ones.  So a parameter can be shown like a block or an instruction,
but only under a name that was tried for it (`Listing.names_apart`).
-/

namespace LoopNest

/-! ## Fresh names -/

/-- The names that are tried, in their order. -/
def tried (base : String) : Nat → String
  | 0 => base
  | n + 1 => base ++ "." ++ toString (n + 1)

/-- Names that are tried for different numbers are different. -/
theorem numbered_inj {base : String} {j k : Nat}
    (h : base ++ "." ++ toString j = base ++ "." ++ toString k) : j = k := by
  have hrepr : j.repr = k.repr := (String.append_right_inj _).mp h
  have := congrArg (fun s => Nat.ofDigitChars 10 s.toList 0) hrepr
  simpa [Nat.ofDigitChars_toDigits] using this

section

variable {taken : String → Bool} {base : String}

/-- When the result is taken, so are all names that were tried. -/
theorem taken_of_freshNameFrom : ∀ {fuel n : Nat}, taken (freshNameFrom taken base fuel n) = true →
    ∀ k ≤ fuel, taken (base ++ "." ++ toString (n + k)) = true
  | 0, n, h, k, hk => Nat.le_zero.mp hk ▸ h
  | fuel + 1, n, h, k, hk => by
    by_cases hn : taken (base ++ "." ++ toString n) = true
    · cases k with
      | zero => exact hn
      | succ k =>
        rw [freshNameFrom, if_pos hn] at h
        rw [Nat.add_comm k 1, ← Nat.add_assoc]
        exact taken_of_freshNameFrom h k (Nat.le_of_succ_le_succ hk)
    · rw [freshNameFrom, if_neg hn] at h
      exact absurd h hn

/-- A fresh name is free, because more names are tried than are taken. -/
theorem taken_freshName {names : List String} (hnames : ∀ n, taken n = true → n ∈ names) :
    taken (freshName taken names.length base) = false := by
  unfold freshName
  split
  · refine Bool.eq_false_iff.mpr fun h => ?_
    let numbered := (List.range (names.length + 1)).map fun k => base ++ "." ++ toString (1 + k)
    have hnodup : numbered.Nodup :=
      List.nodup_range.map fun j k hjk => Nat.add_left_cancel (numbered_inj hjk)
    have hsubset : numbered ⊆ names := by
      intro n hn
      obtain ⟨k, hk, rfl⟩ := List.mem_map.mp hn
      exact hnames _ (taken_of_freshNameFrom h k (Nat.le_of_lt_succ (List.mem_range.mp hk)))
    have hlen := hnodup.length_le_of_subset hsubset
    rw [List.length_map, List.length_range] at hlen
    exact Nat.not_succ_le_self _ hlen
  · rename_i h
    exact Bool.eq_false_iff.mpr h

/-- A name is passed over only when it is taken. -/
theorem exists_freshNameFrom : ∀ fuel n : Nat, ∃ k,
    freshNameFrom taken base fuel (n + 1) = tried base (n + 1 + k) ∧
    ∀ j < k, taken (tried base (n + 1 + j)) = true
  | 0, _ => ⟨0, rfl, nofun⟩
  | fuel + 1, n => by
    by_cases hn : taken (base ++ "." ++ toString (n + 1)) = true
    · obtain ⟨k, heq, hbefore⟩ := exists_freshNameFrom fuel (n + 1)
      refine ⟨k + 1, ?_, fun j hj => ?_⟩
      · rw [freshNameFrom, if_pos hn, heq, Nat.add_right_comm (n + 1) 1 k]
        rfl
      · cases j with
        | zero => exact hn
        | succ j =>
          have htaken := hbefore j (Nat.lt_of_succ_lt_succ hj)
          rwa [Nat.add_right_comm (n + 1) 1 j] at htaken
    · exact ⟨0, by rw [freshNameFrom, if_neg hn]; rfl, nofun⟩

/-- A fresh name is the first one that is free. -/
theorem exists_freshName {names : List String} (hnames : ∀ n, taken n = true → n ∈ names) :
    ∃ k, freshName taken names.length base = tried base k ∧
      taken (tried base k) = false ∧ ∀ j < k, taken (tried base j) = true := by
  have hfree : taken (freshName taken names.length base) = false := taken_freshName hnames
  by_cases hbase : taken base = true
  · obtain ⟨k, heq, hbefore⟩ := @exists_freshNameFrom taken base names.length 0
    have hfresh : freshName taken names.length base = tried base (0 + 1 + k) := by
      rw [freshName, if_pos hbase, heq]
    refine ⟨0 + 1 + k, hfresh, hfresh ▸ hfree, fun j hj => ?_⟩
    cases j with
    | zero => exact hbase
    | succ j =>
      have htaken := hbefore j (by omega)
      rwa [Nat.zero_add, Nat.add_comm 1 j] at htaken
  · exact ⟨0, if_neg hbase, Bool.eq_false_iff.mpr hbase, nofun⟩

end

/-! ## Names in a listing -/

namespace Listing

/-- What is shown under a name. -/
inductive Item where
  /-- A parameter. -/
  | param (k : Nat)
  /-- A block. -/
  | block (b : BlockId)
  /-- An instruction. -/
  | inst (i : InstId)
deriving DecidableEq

namespace Item

/-- The parameters, live blocks and live instructions of a function. -/
def In (f : Func) : Item → Prop
  | .param k => k < f.params.size
  | .block b => b ∈ f.layout
  | .inst i => i ∈ f.liveInsts

instance (f : Func) : DecidablePred (In f) := fun x => by cases x <;> unfold In <;> infer_instance

/-- The name that a block or an instruction asks for, a number if it has none. -/
inductive Wants (f : Func) : Item → String → Prop where
  /-- A block asks for its own name. -/
  | block (b : BlockId) : Wants f (.block b) (f.block b).name
  /-- So does an instruction that has one. -/
  | named {i : InstId} {name : String} : (f.inst i).name = some name → Wants f (.inst i) name
  /-- Other instructions are numbered. -/
  | numbered {i : InstId} (n : Nat) : (f.inst i).name = none → Wants f (.inst i) (toString n)

/-- A parameter has a name that is tried for a block or an instruction. -/
def Clash (f : Func) (x y : Item) : Prop :=
  ∃ k p base n, x = .param k ∧ f.params[k]? = some p ∧ y.Wants f base ∧ p.name = tried base n

end Item

/-- The text that an item is shown as. -/
def Context.shown (c : Context) : Item → String
  | .param k => c.operand (.param k)
  | .block b => c.names.block b
  | .inst i => c.operand (.inst i)

namespace Names

/-- All names are taken, and each was tried for one item only. -/
structure Apart (f : Func) (n : Names) : Prop where
  /-- The names of the blocks and instructions are taken. -/
  mem_taken : ∀ s, s ∈ n.blocks.map Prod.snd ++ n.insts.map Prod.snd ↔ s ∈ n.taken
  /-- No name is given twice. -/
  nodup : (n.blocks.map Prod.snd ++ n.insts.map Prod.snd).Nodup
  /-- Blocks have names that were tried for them. -/
  block_tried : ∀ x ∈ n.blocks, ∃ k, x.2 = tried (f.block x.1).name k
  /-- So have instructions. -/
  inst_tried : ∀ x ∈ n.insts, ∃ base k, (Item.inst x.1).Wants f base ∧ x.2 = tried base k

/-- The loop that looks for a name comes to the first one that is not taken. -/
theorem exists_fresh (n : Names) (base : String) : ∃ k,
    n.fresh base = tried base k ∧ tried base k ∉ n.taken ∧ ∀ j < k, tried base j ∈ n.taken := by
  obtain ⟨k, heq, hfree, hbefore⟩ := @exists_freshName n.taken.contains base n.taken
    fun s hs => List.contains_iff_mem.mp hs
  refine ⟨k, heq, fun hmem => ?_, fun j hj => List.contains_iff_mem.mp (hbefore j hj)⟩
  rw [List.contains_iff_mem.mpr hmem] at hfree
  cases hfree

variable {f : Func} {n : Names}

theorem Apart.addBlock (h : n.Apart f) (b : BlockId) : (n.addBlock f b).Apart f := by
  obtain ⟨k, heq, hfree, _⟩ := n.exists_fresh (f.block b).name
  rw [← heq, ← h.mem_taken] at hfree
  refine ⟨fun s => ?_, List.nodup_cons.mpr ⟨hfree, h.nodup⟩, fun x hx => ?_, h.inst_tried⟩
  · simpa [Names.addBlock] using or_congr Iff.rfl ((List.mem_append.symm).trans (h.mem_taken s))
  · rcases List.mem_cons.mp hx with rfl | hx
    · exact ⟨k, heq⟩
    · exact h.block_tried x hx

/-- An instruction gets a fresh name for what it asks for. -/
theorem exists_addInst (f : Func) (n : Names) (i : InstId) : ∃ base, (Item.inst i).Wants f base ∧
    (n.addInst f i).taken = n.fresh base :: n.taken ∧ (n.addInst f i).blocks = n.blocks ∧
    (n.addInst f i).insts = (i, n.fresh base) :: n.insts := by
  unfold addInst
  split
  · rename_i base hname
    exact ⟨base, .named hname, rfl, rfl, rfl⟩
  · rename_i hname
    exact ⟨_, .numbered n.counter hname, rfl, rfl, rfl⟩

theorem Apart.addInst (h : n.Apart f) (i : InstId) : (n.addInst f i).Apart f := by
  obtain ⟨base, hwants, htaken, hblocks, hinsts⟩ := exists_addInst f n i
  obtain ⟨k, heq, hfree, _⟩ := n.exists_fresh base
  rw [← heq, ← h.mem_taken] at hfree
  refine ⟨fun s => ?_, ?_, hblocks ▸ h.block_tried, fun x hx => ?_⟩
  · rw [htaken, hblocks, hinsts, List.mem_cons, ← h.mem_taken]
    simp [or_left_comm]
  · rw [hblocks, hinsts, List.map_cons, List.nodup_middle]
    exact List.nodup_cons.mpr ⟨hfree, h.nodup⟩
  · rw [hinsts] at hx
    rcases List.mem_cons.mp hx with rfl | hx
    · exact ⟨base, k, hwants, heq⟩
    · exact h.inst_tried x hx

theorem blocks_foldl (f : Func) : ∀ (bs : List BlockId) (n : Names),
    (bs.foldl (addBlock f) n).blocks.map Prod.fst = bs.reverse ++ n.blocks.map Prod.fst
  | [], _ => rfl
  | b :: bs, n => by simp [blocks_foldl f bs, addBlock]

theorem insts_foldl (f : Func) : ∀ (is : List InstId) (n : Names),
    (is.foldl (addInst f) n).blocks = n.blocks ∧
    (is.foldl (addInst f) n).insts.map Prod.fst = is.reverse ++ n.insts.map Prod.fst
  | [], _ => ⟨rfl, rfl⟩
  | i :: is, n => by
    obtain ⟨_, _, _, hblocks, hinsts⟩ := exists_addInst f n i
    simp [insts_foldl f is, hblocks, hinsts]

theorem apart_ofFunc (f : Func) : (ofFunc f).Apart f :=
  List.foldlRecOn _ _
    (List.foldlRecOn _ _ ⟨by simp, by simp, by simp, by simp⟩ fun _ h b _ => h.addBlock b)
    fun _ h i _ => h.addInst i

theorem exists_of_lookup {α : Type} {l : List (Nat × α)} {a : Nat} (h : a ∈ l.map Prod.fst) :
    ∃ x, l.lookup a = some x ∧ (a, x) ∈ l := by
  have hsome : (l.lookup a).isSome = true := by
    rw [List.lookup_isSome_iff]
    obtain ⟨e, he, rfl⟩ := List.mem_map.mp h
    exact ⟨e, he, beq_self_eq_true _⟩
  obtain ⟨x, hx⟩ := Option.isSome_iff_exists.mp hsome
  obtain ⟨l₁, l₂, rfl, _⟩ := List.lookup_eq_some_iff.mp hx
  exact ⟨x, hx, by simp⟩

/-- Every live block has a name. -/
theorem exists_block {b : BlockId} (h : b ∈ f.layout) :
    ∃ s, (ofFunc f).blocks.lookup b = some s ∧ (b, s) ∈ (ofFunc f).blocks := by
  refine exists_of_lookup ?_
  rw [ofFunc, (insts_foldl f _ _).1, blocks_foldl]
  simpa using h

/-- Every live instruction has a name. -/
theorem exists_inst {i : InstId} (h : i ∈ f.liveInsts) :
    ∃ s, (ofFunc f).insts.lookup i = some s ∧ (i, s) ∈ (ofFunc f).insts := by
  refine exists_of_lookup ?_
  rw [ofFunc, (insts_foldl f _ _).2]
  simp [h]

end Names

section

variable {f : Func}

/-- The name of an item, for blocks and instructions as they were named. -/
inductive Shows (f : Func) : Item → String → Prop where
  /-- A parameter under its own name. -/
  | param {k : Nat} {p : Param} : f.params[k]? = some p → Shows f (.param k) p.name
  /-- A block. -/
  | block {b : BlockId} {s : String} : (b, s) ∈ (Names.ofFunc f).blocks → Shows f (.block b) s
  /-- An instruction. -/
  | inst {i : InstId} {s : String} : (i, s) ∈ (Names.ofFunc f).insts → Shows f (.inst i) s

theorem Item.In.shows {x : Item} (h : x.In f) (tt : TypeTable) :
    ∃ s, Shows f x s ∧ (Context.ofFunc tt f).shown x = "%" ++ s := by
  cases x with
  | param k =>
    have hk : f.params[k]? = some f.params[k] := Array.getElem?_eq_getElem h
    exact ⟨_, .param hk, by simp [Context.shown, Context.operand, Context.ofFunc, hk]⟩
  | block b =>
    obtain ⟨s, hs, hmem⟩ := Names.exists_block h
    exact ⟨s, .block hmem, by simp [Context.shown, Context.ofFunc, Names.block, Names.label, hs]⟩
  | inst i =>
    obtain ⟨s, hs, hmem⟩ := Names.exists_inst h
    exact ⟨s, .inst hmem, by simp [Context.shown, Context.operand, Context.ofFunc, hs]⟩

theorem Shows.exists_param {k : Nat} {s : String} (h : Shows f (.param k) s) :
    ∃ p, f.params[k]? = some p ∧ p.name = s := by
  cases h with
  | param hk => exact ⟨_, hk, rfl⟩

/-- Parameters have different names. -/
theorem Shows.param_unique {j k : Nat} {s : String} (h : Shows f (.param j) s)
    (hparams : (f.params.toList.map Param.name).Nodup) (h' : Shows f (.param k) s) : j = k := by
  obtain ⟨p, hj, rfl⟩ := h.exists_param
  obtain ⟨q, hk, hq⟩ := h'.exists_param
  have hlt : j < (f.params.toList.map Param.name).length := by
    simpa using (Array.getElem?_eq_some_iff.mp hj).1
  exact (List.getElem?_inj hlt hparams).mp (by simp [hj, hk, hq])

/-- A parameter with the name of a block or an instruction has a name that was tried for it. -/
theorem Shows.clash {k : Nat} {y : Item} {s : String} (h : Shows f (.param k) s)
    (hy : Shows f y s) (hne : ∀ j, y ≠ .param j) : Item.Clash f (.param k) y := by
  have happ := Names.apart_ofFunc f
  obtain ⟨p, hk, hp⟩ := h.exists_param
  cases hy with
  | param _ => exact absurd rfl (hne _)
  | block hmem =>
    obtain ⟨n, hn⟩ := happ.block_tried _ hmem
    exact ⟨k, p, _, n, rfl, hk, .block _, hp.trans hn⟩
  | inst hmem =>
    obtain ⟨base, n, hwants, hn⟩ := happ.inst_tried _ hmem
    exact ⟨k, p, base, n, rfl, hk, hwants, hp.trans hn⟩

/-- Blocks and instructions never have the same name. -/
theorem Shows.unique {x y : Item} {s : String} (hx : Shows f x s) (hy : Shows f y s)
    (hx' : ∀ j, x ≠ .param j) (hy' : ∀ j, y ≠ .param j) : x = y := by
  obtain ⟨hblocks, hinsts, hdisj⟩ := List.nodup_append.mp (Names.apart_ofFunc f).nodup
  cases hx with
  | param _ => exact absurd rfl (hx' _)
  | block hx =>
    cases hy with
    | param _ => exact absurd rfl (hy' _)
    | block hy =>
      exact congrArg Item.block (congrArg Prod.fst (List.inj_on_of_nodup_map hblocks hx hy rfl))
    | inst hy =>
      exact absurd rfl (hdisj s (List.mem_map.mpr ⟨_, hx, rfl⟩) s (List.mem_map.mpr ⟨_, hy, rfl⟩))
  | inst hx =>
    cases hy with
    | param _ => exact absurd rfl (hy' _)
    | block hy =>
      exact absurd rfl (hdisj s (List.mem_map.mpr ⟨_, hy, rfl⟩) s (List.mem_map.mpr ⟨_, hx, rfl⟩))
    | inst hy =>
      exact congrArg Item.inst (congrArg Prod.fst (List.inj_on_of_nodup_map hinsts hx hy rfl))

/-- The loop that looks for a name always finds one, the first that is not taken.  Distinct items of
a function are shown under distinct names, unless one is a parameter that has a name tried for the
other. -/
theorem names_apart (tt : TypeTable) {f : Func} (hparams : (f.params.toList.map Param.name).Nodup) :
    (∀ (n : Names) (base : String), ∃ k, n.fresh base = tried base k ∧
      tried base k ∉ n.taken ∧ ∀ j < k, tried base j ∈ n.taken) ∧
    ∀ x y : Item, x.In f → y.In f → x ≠ y →
      (Context.ofFunc tt f).shown x = (Context.ofFunc tt f).shown y →
      Item.Clash f x y ∨ Item.Clash f y x := by
  refine ⟨Names.exists_fresh, fun x y hx hy hne heq => ?_⟩
  obtain ⟨s, hxs, hshown⟩ := hx.shows tt
  obtain ⟨t, hyt, hshown'⟩ := hy.shows tt
  obtain rfl : s = t := (String.append_right_inj _).mp (hshown.symm.trans (heq.trans hshown'))
  by_cases hx' : ∀ j, x ≠ .param j
  · by_cases hy' : ∀ j, y ≠ .param j
    · exact absurd (hxs.unique hyt hx' hy') hne
    · obtain ⟨j, rfl⟩ := not_forall_not.mp hy'
      exact .inr (hyt.clash hxs hx')
  · obtain ⟨k, rfl⟩ := not_forall_not.mp hx'
    by_cases hy' : ∀ j, y ≠ .param j
    · exact .inl (hxs.clash hyt hy')
    · obtain ⟨j, rfl⟩ := not_forall_not.mp hy'
      exact absurd (congrArg Item.param (hxs.param_unique hparams hyt)) hne

end

/-! ## Names that clash -/

/-- Doubles its parameter.  Result, parameter and block have names. -/
def doubleFunc (param block : String) : Func where
  name := "double"
  params := #[⟨param, 1, false⟩]
  ret := 1
  blocks := #[⟨block, [0, 1], false⟩]
  insts := #[⟨.binary .add (.param 0) (.param 0), 1, some "x", some 0⟩,
    ⟨.ret (some (.inst 0)), 0, none, some 0⟩]
  constants := #[]
  layout := [0]

/-- A block and an instruction ask for the same name. -/
theorem names_apart_doubleFunc :
    (Context.ofFunc .empty (doubleFunc "y" "x")).shown (.block 0) ≠
      (Context.ofFunc .empty (doubleFunc "y" "x")).shown (.inst 0) := by
  intro heq
  obtain ⟨_, _, _, _, h, _⟩ | ⟨_, _, _, _, h, _⟩ :=
    (names_apart .empty (by decide)).2 (.block 0) (.inst 0) (by decide) (by decide) nofun heq
  · cases h
  · cases h

/-- The parameter has the name of an instruction. -/
theorem doubleFunc_clashes :
    ((doubleFunc "x" "entry").params.toList.map Param.name).Nodup ∧
    (doubleFunc "x" "entry").layout.Nodup ∧
    Item.In (doubleFunc "x" "entry") (.param 0) ∧ Item.In (doubleFunc "x" "entry") (.inst 0) ∧
    (Context.ofFunc .empty (doubleFunc "x" "entry")).shown (.param 0) =
      (Context.ofFunc .empty (doubleFunc "x" "entry")).shown (.inst 0) := by
  decide

end Listing

end LoopNest
