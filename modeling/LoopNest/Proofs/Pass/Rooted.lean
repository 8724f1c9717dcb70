import LoopNest.Pass.Pipeline
import LoopNest.Proofs.Func.Rooted
import LoopNest.Proofs.Fusion.Unnested
import LoopNest.Proofs.Padding.Blocks
import LoopNest.Proofs.Padding.Replaced
import LoopNest.Proofs.Vectorize.Rooted

/-!
# What no pass does

Whatever function a pass is given, it keeps the types of the table, leaves some blocks, and reports
a change if it makes one.  If the function is rooted, the outcome is rooted too, with the same entry
and interface, even where the verifier would refuse it (`PassResult.Sober`, `Pass.sober_apply`).
-/

namespace LoopNest

open Func

/-- What holds of the outcome of every pass. -/
structure PassResult.Sober (r : PassResult) (tt : TypeTable) (f : Func) : Prop where
  accrues : tt.Accrues r.types
  func_eq : r.changed = false → r.func = f
  keepsRoot : f.KeepsRoot r.func

theorem PassResult.Sober.of_same (tt : TypeTable) (f : Func) (changed : Bool) (log : List LogLine) :
    PassResult.Sober ⟨tt, f, changed, log⟩ tt f :=
  ⟨.refl tt, fun _ => rfl, .refl f⟩

/-! ## Padding -/

namespace Padding

/-- The table keeps its types, and a replaced slot is a candidate with a block. -/
theorem planSlots_spec (f : Func) : ∀ (cands : List (InstId × TyId)) (tt : TypeTable),
    tt.Accrues (planSlots f cands tt).2.1 ∧
    ∀ s ∈ (planSlots f cands tt).1, s.alloca ∈ cands.map Prod.fst ∧ f.owner s.alloca = some s.block
  | [], tt => ⟨.refl tt, nofun⟩
  | (i, t) :: cands, tt => by
    have hskip : ∀ tt₁, tt.Accrues tt₁ → tt.Accrues (planSlots f cands tt₁).2.1 ∧
        ∀ s ∈ (planSlots f cands tt₁).1, s.alloca ∈ ((i, t) :: cands).map Prod.fst ∧
          f.owner s.alloca = some s.block := fun tt₁ he => by
      obtain ⟨hext, hslots⟩ := planSlots_spec f cands tt₁
      exact ⟨he.trans hext, fun s hs =>
        ⟨List.mem_cons_of_mem _ (hslots s hs).1, (hslots s hs).2⟩⟩
    unfold planSlots
    dsimp only
    split
    · exact hskip tt (.refl tt)
    · rename_i b hb
      split
      · exact hskip tt (.refl tt)
      · -- Each of the three types is made of the one before.
        have he₁ : tt.Accrues (tt.intern (.scalar .i8)).2 := tt.accrues_intern nofun
        have hbyte := tt.intern_lt (.scalar .i8)
        have he₂ := (tt.intern (.scalar .i8)).2.accrues_intern
          (s := .array (tt.intern (.scalar .i8)).1 (alignTo (tt.paddedSize t) granule))
          (by simpa [Shape.components] using hbyte)
        have harray := (tt.intern (.scalar .i8)).2.intern_lt
          (.array (tt.intern (.scalar .i8)).1 (alignTo (tt.paddedSize t) granule))
        obtain ⟨hext, hslots⟩ := hskip _ ((he₁.trans he₂).trans (TypeTable.accrues_intern _
          (s := .pointer _) (by simpa [Shape.components] using harray)))
        refine ⟨hext, fun s hs => ?_⟩
        rcases List.mem_cons.mp hs with rfl | hs
        · exact ⟨List.mem_cons_self, hb⟩
        · exact hslots s hs

variable {base g : Func} {e : BlockId} {s : Slot}

/-- Terminators stay terminators, and slots stay slots. -/
theorem isTerminator_replaceSlot (g : Func) (s : Slot) {j : InstId} (hj : j < g.insts.size) :
    ((replaceSlot g s).op j).isTerminator = (g.op j).isTerminator ∧
      j < (replaceSlot g s).insts.size := by
  obtain ⟨h, hh⟩ : ∃ h, insertSlot g s (((g.body s.block).findIdx? (· = s.alloca)).getD 0) = h :=
    ⟨_, rfl⟩
  have hsize := (sameOutline_insertSlot g s (((g.body s.block).findIdx? (· = s.alloca)).getD 0)).2
  have hinst := inst_insertSlot g s (((g.body s.block).findIdx? (· = s.alloca)).getD 0) j
  rw [hh] at hsize hinst
  rw [replaceSlot_eq, hh, op_eraseInst, insts_size_eraseInst, replaceUses,
    modifyOps_keeps (isTerminator_mapOperands _), (modifyOps_shape _ _ _).2.2, hsize, op, hinst,
    if_neg (Nat.ne_of_lt (Nat.lt_succ_of_lt hj)), if_neg (Nat.ne_of_lt hj)]
  exact ⟨rfl, Nat.lt_add_right 2 hj⟩

theorem rooted_replaceSlot (hg : Rooted base e (fun _ => False) g)
    (hs : (g.op s.alloca).isTerminator = false) (hlt : s.alloca < g.insts.size) :
    Rooted base e (fun _ => False) (replaceSlot g s) := by
  obtain ⟨pos, hpos⟩ : ∃ n, ((g.body s.block).findIdx? (· = s.alloca)).getD 0 = n := ⟨_, rfl⟩
  -- The new code stands before the terminator: at the slot, or else at the start of the block.
  have hbefore : s.block ∈ g.layout → pos < (g.body s.block).length := fun hlive => by
    obtain ⟨t, ht, _⟩ := hg.ends s.block hlive not_false
    have hne : 0 < (g.body s.block).length :=
      List.length_pos_of_mem (mem_body_of_terminator ht).1
    rw [← hpos]
    cases hidx : (g.body s.block).findIdx? (· = s.alloca) with
    | none => exact hne
    | some n => exact (List.findIdx?_eq_some_iff_getElem.mp hidx).1
  have hins : Rooted base e (fun _ => False) (insertSlot g s pos) := by
    refine (hg.insertInst _ fun hlive _ _ _ => hbefore hlive).insertInst _ fun hlive _ t ht => ?_
    rw [layout_insertInst] at hlive
    obtain ⟨u, hu, _⟩ := hg.ends s.block hlive not_false
    rw [body_insertInst g pos _ (lt_blocks_size (mem_body_of_terminator hu).1), if_pos rfl]
    have := hbefore hlive
    simp only [List.length_append, List.length_take, List.length_cons, List.length_drop]
    omega
  have hterm : ((insertSlot g s pos).op s.alloca).isTerminator = false := by
    rw [ op, inst_insertSlot, if_neg (Nat.ne_of_lt (Nat.lt_succ_of_lt hlt)),
      if_neg (Nat.ne_of_lt hlt)]
    exact hs
  rw [replaceSlot_eq, hpos]
  refine (hins.replaceUses _ _).eraseInst ?_
  rw [replaceUses, modifyOps_keeps (isTerminator_mapOperands _), hterm]

theorem layout_replaceSlot (g : Func) (s : Slot) : (replaceSlot g s).layout = g.layout := by
  rw [replaceSlot_eq, (sameOutline_eraseInst _ _).layout_eq, replaceUses,
    (modifyOps_shape _ _ _).1.layout_eq, (sameOutline_insertSlot _ _ _).1.layout_eq]

theorem layout_foldl : ∀ (slots : List Slot) (g : Func),
    (slots.foldl replaceSlot g).layout = g.layout
  | [], _ => rfl
  | s :: slots, g => (layout_foldl slots _).trans (layout_replaceSlot g s)

theorem rooted_foldl : ∀ (slots : List Slot) {g : Func}, Rooted base e (fun _ => False) g →
    (∀ s ∈ slots, (g.op s.alloca).isTerminator = false ∧ s.alloca < g.insts.size) →
    Rooted base e (fun _ => False) (slots.foldl replaceSlot g)
  | [], _, hg, _ => hg
  | s :: slots, g, hg, hs => by
    obtain ⟨hterm, hlt⟩ := hs s List.mem_cons_self
    refine rooted_foldl slots (rooted_replaceSlot hg hterm hlt) fun s' hs' => ?_
    obtain ⟨hterm', hlt'⟩ := hs s' (List.mem_cons_of_mem s hs')
    obtain ⟨heq, hsize⟩ := isTerminator_replaceSlot g s hlt'
    exact ⟨heq.trans hterm', hsize⟩

end Padding

theorem Func.sober_padSlots (tt : TypeTable) (f : Func) :
    (f.padSlots tt).Sober tt f := by
  obtain ⟨hext, hslots⟩ := Padding.planSlots_spec f (Padding.candidates tt f) tt
  refine ⟨hext, fun hno => ?_, fun hne => ?_, fun base e hf => ?_⟩
  · have hnil : (Padding.planSlots f (Padding.candidates tt f) tt).1 = [] := by
      simpa [Func.padSlots] using hno
    simp only [Func.padSlots, hnil, List.foldl_nil]
  · rwa [Func.padSlots, Padding.layout_foldl]
  · refine Padding.rooted_foldl _ hf fun s hs => ?_
    obtain ⟨hcand, hown⟩ := hslots s hs
    obtain ⟨⟨i, t⟩, hmem, hi⟩ := List.mem_map.mp hcand
    obtain ⟨_, a, hop, _⟩ := Padding.mem_candidates.mp hmem
    rw [← hi] at hown ⊢
    exact ⟨by rw [hop]; rfl, owner_lt hown⟩

/-! ## Moving loops -/

namespace Fusion

variable {tt : TypeTable} {base f : Func} {e : BlockId} {p : Plan}

/-- Both loops of a nest that is moved are counted, whether the function is accepted or not. -/
theorem counted_of_plan {tried : List BlockId} {o i : LoopId}
    (hc : candidate? (.ofFunc f) tried = some (o, i))
    (hp : plan tt f (.ofFunc f) (.ofGraph (.ofFunc f)) ((LoopForest.ofFunc f).loop o)
      ((LoopForest.ofFunc f).loop i) = .ok p) :
    (∃ l, IsLoop (.ofFunc f) l ∧ p.outer.IsCounted f l) ∧
      ∃ l, IsLoop (.ofFunc f) l ∧ p.inner.IsCounted f l ∧ p.innerBlocks = l.blocks := by
  have hg := FlowGraph.coherent_ofFunc f
  obtain ⟨hi, hpar⟩ := candidate?_eq_some hc
  obtain ⟨ho, _⟩ := LoopForest.parent_surrounds hg hi hpar
  obtain ⟨houter, hinner, _, _, _, _, _, heq⟩ := plan_eq_ok.mp hp
  exact ⟨⟨_, LoopForest.isLoop_loop hg ho, CountedLoop.isCounted_of_recognize houter⟩,
    _, LoopForest.isLoop_loop hg hi, CountedLoop.isCounted_of_recognize hinner, heq⟩

/-- Live blocks stay live, also when the block that they are moved before is not live. -/
theorem live_moveAll (before : BlockId) {c : BlockId} : ∀ (bs : List BlockId) {g : Func},
    (∀ b ∈ bs, b ∈ g.layout) → c ∈ g.layout →
    c ∈ (bs.foldl (fun f b => f.moveBlockBefore b before) g).layout
  | [], _, _, hc => hc
  | b :: bs, _, hbs, hc =>
    have hb := hbs b List.mem_cons_self
    live_moveAll before bs (fun b' hb' =>
      mem_layout_moveBlockBefore_of_mem hb (hbs b' (List.mem_cons_of_mem b hb')))
      (mem_layout_moveBlockBefore_of_mem hb hc)

theorem rooted_moveAll {before : BlockId} (hbefore : before ≠ e) : ∀ (bs : List BlockId) {g : Func},
    (∀ b ∈ bs, b ∈ g.layout ∧ b ≠ e) → Rooted base e (fun _ => False) g →
    Rooted base e (fun _ => False) (bs.foldl (fun f b => f.moveBlockBefore b before) g)
  | [], _, _, hg => hg
  | b :: bs, _, hbs, hg =>
    have hb := hbs b List.mem_cons_self
    rooted_moveAll hbefore bs (fun b' hb' =>
      have hb' := hbs b' (List.mem_cons_of_mem b hb')
      ⟨mem_layout_moveBlockBefore_of_mem hb.1 hb'.1, hb'.2⟩)
      (hg.moveBlockBefore hb.1 hb.2 hbefore)

theorem keepsRoot_apply {tried : List BlockId} {o i : LoopId}
    (hc : candidate? (.ofFunc f) tried = some (o, i))
    (hp : plan tt f (.ofFunc f) (.ofGraph (.ofFunc f)) ((LoopForest.ofFunc f).loop o)
      ((LoopForest.ofFunc f).loop i) = .ok p) : f.KeepsRoot (apply f p) := by
  obtain ⟨⟨outer, hol, hoc⟩, inner, hil, hic, heq⟩ := counted_of_plan hc hp
  have hlive : ∀ b ∈ p.innerBlocks, b ∈ (relink f p).layout := fun b hb => by
    rw [layout_relink]
    exact CountedLoop.live_of_mem hil (heq ▸ hb)
  refine ⟨fun hne => ?_, fun base e hf => ?_⟩
  · obtain ⟨c, hmem⟩ := List.exists_mem_of_ne_nil _ hne
    rw [← layout_relink f p] at hmem
    exact List.ne_nil_of_mem (live_moveAll p.outer.exit p.innerBlocks hlive hmem)
  · have hpreds : ∀ e', f.entry? = some e' → f.predecessors e' = [] := fun e' he' => by
      cases hf.entry_eq.symm.trans he'
      exact hf.predecessors_entry
    have hexit : ∀ {c : CountedLoop} {l : NaturalLoop}, IsLoop (.ofFunc f) l → c.IsCounted f l →
        c.exit ≠ e := fun hl hc =>
      hf.ne_entry (CountedLoop.live_of_mem hl hl.header_mem)
        ((CountedLoop.header_successors hc).mpr (.inr rfl))
    have hheader : p.inner.header ≠ e := by
      obtain ⟨hph, hs⟩ := (f.mem_predecessors _ _).mp hic.preheader_mem
      rw [hic.header_eq]
      exact hf.ne_entry hph hs
    have hrelinked : Rooted base e (fun _ => False) (relink f p) :=
      (((hf.retarget p.inner.preheader p.inner.header (hexit hil hic)).retarget p.outer.header
        p.outer.exit hheader).retarget p.inner.header p.inner.exit (hexit hol hoc)).renamePredecessor
        p.inner.header p.inner.preheader p.outer.header
    refine rooted_moveAll (hexit hol hoc) p.innerBlocks (fun b hb => ⟨hlive b hb, ?_⟩) hrelinked
    rintro rfl
    exact CountedLoop.entry_not_mem hpreds hil hic hf.entry_eq (heq ▸ hb)

theorem sober_sweep (tt : TypeTable) : ∀ (fuel : Nat) (tried : List BlockId) (f : Func),
    ((sweep tt fuel tried f).2.1 = false → (sweep tt fuel tried f).1 = f) ∧
      f.KeepsRoot (sweep tt fuel tried f).1
  | 0, _, f => ⟨fun _ => rfl, .refl f⟩
  | fuel + 1, tried, f => by
    unfold sweep
    dsimp only
    split
    · exact ⟨fun _ => rfl, .refl f⟩
    · rename_i o i hc
      split
      · rename_i p hp
        exact ⟨by rintro ⟨⟩, (keepsRoot_apply hc hp).trans (sober_sweep tt fuel _ _).2⟩
      · exact sober_sweep tt fuel _ f

end Fusion

theorem Func.sober_fuseLoops (tt : TypeTable) (f : Func) : (f.fuseLoops tt).Sober tt f :=
  have h := Fusion.sober_sweep tt (f.blocks.size + 1) [] f
  ⟨.refl tt, h.1, h.2⟩

/-! ## Vectorizing -/

theorem Vectorize.sober_sweep (config : VectorConfig) : ∀ (fuel : Nat) (rejected : List BlockId)
    (tt : TypeTable) (f : Func), (sweep config fuel rejected tt f).Sober tt f
  | 0, _, tt, f => .of_same tt f _ _
  | fuel + 1, rejected, tt, f => by
    obtain ⟨hext, hplan⟩ := firstPlan_spec config f (.ofFunc f) (.ofGraph (.ofFunc f))
      (innermostLoops (.ofFunc f)) rejected tt
    rw [sweep_succ]
    generalize firstPlan config f (.ofFunc f) (.ofGraph (.ofFunc f)) (innermostLoops (.ofFunc f))
      rejected tt = x at hext hplan ⊢
    obtain ⟨_ | p, rejected', tt', log⟩ := x
    · exact ⟨hext, fun _ => rfl, .refl f⟩
    · obtain ⟨l, hl, _, _, hp⟩ := hplan p rfl
      have hrest := sober_sweep config fuel (p.loop.header :: rejected') tt' (apply config f p)
      exact ⟨hext.trans hrest.accrues, by rintro ⟨⟩, (keepsRoot_apply config (isLoop_of_innermost hl)
        (CountedLoop.isCounted_of_recognize (recognize_of_plan hp))).trans hrest.keepsRoot⟩

theorem Func.sober_vectorize (config : VectorConfig) (tt : TypeTable) (f : Func) :
    (f.vectorize config tt).Sober tt f := by
  unfold Func.vectorize
  split
  · exact .of_same tt f _ _
  · exact Vectorize.sober_sweep config _ _ tt f

/-! ## All passes -/

theorem Pass.sober_apply (pass : Pass) (tt : TypeTable) (f : Func) :
    (pass.apply tt f).Sober tt f := by
  cases pass with
  | vectorize config => exact f.sober_vectorize config tt
  | padSlots => exact f.sober_padSlots tt
  | fuseLoops => exact f.sober_fuseLoops tt
  | validate => exact .of_same tt f _ _

end LoopNest
