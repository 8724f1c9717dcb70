import LoopNest.Proofs.Func.Available
import LoopNest.Proofs.Func.Grow
import LoopNest.Proofs.Typing.Extends

/-!
# Adding code to a block

`Func.Sound` collects what passes rely on: the function is well formed and well typed, what it
uses is listed, and its types are in the table.

A pass may add instructions before the terminator of a block.  `Func.Inserts` says that nothing
else changed, so the flow graph is the same.  Adding one instruction keeps a function sound, if
its operands are usable at the end of the block (`Sound.insertBeforeTerminator`).
-/

namespace LoopNest

namespace Func

/-- A function as the verifier wants it, with its handles in order. -/
structure Sound (tt : TypeTable) (f : Func) : Prop where
  wellFormed : f.WellFormed
  wellTyped : f.WellTyped tt
  usesListed : f.UsesListed
  tys_lt : ∀ t ∈ f.tys, t < tt.size

/-- Code was added before the terminator of a block. -/
structure Inserts (b : BlockId) (f g : Func) : Prop extends Below f g where
  name_eq : g.name = f.name
  layout_eq : g.layout = f.layout
  blocks_size_eq : g.blocks.size = f.blocks.size
  vectorized_eq : ∀ c, (g.block c).vectorized = (f.block c).vectorized
  body_eq : ∀ c, c ≠ b → g.body c = f.body c
  inserted : ∃ front new t, f.body b = front ++ [t] ∧ g.body b = front ++ new ++ [t] ∧
    (f.op t).isTerminator = true ∧ t < f.insts.size ∧ ∀ i ∈ new, f.insts.size ≤ i ∧
      i < g.insts.size ∧ (g.op i).isPhi = false ∧ (g.op i).isTerminator = false
  /-- What is new stands there. -/
  mem_new : ∀ i, f.insts.size ≤ i → i < g.insts.size → i ∈ g.body b ∧ g.owner i = some b

namespace Inserts

variable {f g h : Func} {b c : BlockId} {i : InstId}

theorem trans (hfg : Inserts b f g) (hgh : Inserts b g h) : Inserts b f h := by
  refine ⟨hfg.toBelow.trans hgh.toBelow, hgh.name_eq.trans hfg.name_eq,
    hgh.layout_eq.trans hfg.layout_eq, hgh.blocks_size_eq.trans hfg.blocks_size_eq,
    fun c => (hgh.vectorized_eq c).trans (hfg.vectorized_eq c),
    fun c hc => (hgh.body_eq c hc).trans (hfg.body_eq c hc), ?_, fun i hle hlt => ?_⟩
  · obtain ⟨front, new, t, hf, hg, hterm, hlt, hnew⟩ := hfg.inserted
    obtain ⟨front', new', t', hg', hh, _, _, hnew'⟩ := hgh.inserted
    obtain ⟨rfl, ht⟩ := List.append_inj' (hg'.symm.trans hg) rfl
    obtain rfl := List.singleton_inj.mp ht
    refine ⟨front, new ++ new', t', hf, by simp [hh], hterm, hlt, fun i hi => ?_⟩
    rcases List.mem_append.mp hi with hi | hi
    · obtain ⟨hle, hlt, hphi, hterm⟩ := hnew i hi
      refine ⟨hle, Nat.lt_of_lt_of_le hlt hgh.size_le, ?_⟩
      rw [op, hgh.inst_eq i hlt]
      exact ⟨hphi, hterm⟩
    · obtain ⟨hle, hlt, hphi, hterm⟩ := hnew' i hi
      exact ⟨Nat.le_trans hfg.size_le hle, hlt, hphi, hterm⟩
  · by_cases hi : i < g.insts.size
    · obtain ⟨hmem, hown⟩ := hfg.mem_new i hle hi
      rw [owner, hgh.inst_eq i hi]
      refine ⟨?_, hown⟩
      obtain ⟨front, new, t, hg, hh, _⟩ := hgh.inserted
      rw [hg] at hmem
      rw [hh]
      simp only [List.mem_append] at hmem ⊢
      exact hmem.imp_left .inl
    · exact hgh.mem_new i (Nat.le_of_not_lt hi) hlt

/-- The old instructions of a block are the ones with old numbers. -/
theorem filter_body (hi : Inserts b f g) (hlt : ∀ i ∈ f.body c, i < f.insts.size) :
    (g.body c).filter (· < f.insts.size) = f.body c := by
  by_cases hc : c = b
  · subst hc
    obtain ⟨front, new, t, hf, hg, _, _, hnew⟩ := hi.inserted
    have hold : (front ++ [t]).filter (· < f.insts.size) = front ++ [t] :=
      List.filter_eq_self.mpr fun i hmem => by simpa using hlt i (hf ▸ hmem)
    have hnil : new.filter (· < f.insts.size) = [] :=
      List.filter_eq_nil_iff.mpr fun i hmem => by simpa using (hnew i hmem).1
    rw [hg, hf, List.filter_append, List.filter_append, hnil, List.append_nil, ← List.filter_append]
    exact hold
  · rw [hi.body_eq c hc]
    exact List.filter_eq_self.mpr fun i hmem => by simpa using hlt i hmem

theorem op_eq (hi : Inserts b f g) {j : InstId} (hj : j < f.insts.size) : g.op j = f.op j := by
  rw [op, hi.inst_eq j hj, op]

theorem owner_eq (hi : Inserts b f g) {j : InstId} (hj : j < f.insts.size) :
    g.owner j = f.owner j := by
  rw [owner, hi.inst_eq j hj, owner]

section

variable (hi : Inserts b f g) (hf : f.Framed) (hc : c ∈ f.layout)

include hi hf hc

theorem phis_eq : g.phis c = f.phis c := by
  have hold : ∀ i ∈ f.body c, (g.op i).isPhi = (f.op i).isPhi := fun i hmem => by
    rw [hi.op_eq (hf.inst_lt hc hmem)]
  have hcongr : ∀ {is : List InstId}, (∀ i ∈ is, (g.op i).isPhi = (f.op i).isPhi) →
      is.takeWhile (fun i => (g.op i).isPhi) = is.takeWhile fun i => (f.op i).isPhi := by
    intro is his
    induction is with
    | nil => rfl
    | cons i is ih =>
      rw [List.takeWhile_cons, List.takeWhile_cons, his i List.mem_cons_self,
        ih fun j hj => his j (List.mem_cons_of_mem _ hj)]
  unfold phis
  by_cases hcb : c = b
  · subst hcb
    obtain ⟨front, new, t, hfb, hgb, hterm, hlt, hnew⟩ := hi.inserted
    have hcut : ∀ (k : Func) (front rest : List InstId), (∀ i ∈ rest, (k.op i).isPhi = false) →
        (front ++ rest).takeWhile (fun i => (k.op i).isPhi) =
          front.takeWhile fun i => (k.op i).isPhi := by
      intro k front rest hrest
      induction front with
      | nil =>
        cases rest with
        | nil => rfl
        | cons i is => simp [hrest i List.mem_cons_self]
      | cons i is ih => simp only [List.cons_append, List.takeWhile_cons, ih]
    have ht := Op.not_isPhi_of_isTerminator hterm
    rw [hgb, hfb, List.append_assoc, hcut g front _ fun i hmem => ?_, hcut f front [t] fun i hmem => ?_]
    · exact hcongr fun i hmem => hold i (hfb ▸ List.mem_append_left _ hmem)
    · rw [List.mem_singleton.mp hmem]
      exact ht
    · rcases List.mem_append.mp hmem with hmem | hmem
      · exact (hnew i hmem).2.2.1
      · rw [List.mem_singleton.mp hmem, hi.op_eq hlt]
        exact ht
  · rw [hi.body_eq c hcb]
    exact hcongr hold

theorem mem_body_of_lt (hmem : i ∈ g.body c) (hlt : i < f.insts.size) : i ∈ f.body c := by
  rw [← hi.filter_body fun j => hf.inst_lt hc]
  exact List.mem_filter.mpr ⟨hmem, by simpa using hlt⟩

theorem mem_body (hmem : i ∈ f.body c) : i ∈ g.body c := by
  rw [← hi.filter_body fun j => hf.inst_lt hc] at hmem
  exact (List.mem_filter.mp hmem).1

/-- What is new stands in the block that was changed. -/
theorem eq_of_not_lt (hmem : i ∈ g.body c) (hlt : ¬ i < f.insts.size) :
    c = b ∧ i < g.insts.size ∧ (g.op i).isPhi = false ∧ (g.op i).isTerminator = false := by
  by_cases hcb : c = b
  · subst hcb
    obtain ⟨front, new, t, hfb, hgb, _, htlt, hnew⟩ := hi.inserted
    rw [hgb] at hmem
    simp only [List.append_assoc, List.mem_append, List.mem_singleton] at hmem
    rcases hmem with hmem | hmem | rfl
    · exact absurd (hf.inst_lt hc (hfb ▸ List.mem_append_left _ hmem)) hlt
    · exact ⟨rfl, (hnew i hmem).2⟩
    · exact absurd htlt hlt
  · rw [hi.body_eq c hcb] at hmem
    exact absurd (hf.inst_lt hc hmem) hlt

theorem mem_afterPhis_of_lt (hmem : i ∈ g.afterPhis c) (hlt : i < f.insts.size) :
    i ∈ f.afterPhis c := by
  have hbody := hi.filter_body fun j => hf.inst_lt hc
  have hphis : (f.phis c).filter (· < f.insts.size) = f.phis c :=
    List.filter_eq_self.mpr fun j hj => by
      simpa using hf.inst_lt hc ((List.takeWhile_sublist _).subset hj)
  rw [← g.phis_append_afterPhis, List.filter_append, hi.phis_eq hf hc, hphis,
    ← f.phis_append_afterPhis] at hbody
  rw [← List.append_cancel_left hbody]
  exact List.mem_filter.mpr ⟨hmem, by simpa using hlt⟩

theorem terminator?_eq : g.terminator? c = f.terminator? c := by
  obtain ⟨t, ht⟩ := hf.ends c hc
  have hlt := hf.inst_lt hc (mem_body_of_terminator ht).1
  obtain ⟨⟨front, hbody⟩, hterm⟩ := terminator?_eq_some.mp ht
  rw [ht]
  refine terminator?_eq_some.mpr ⟨?_, by rw [hi.op_eq hlt]; exact hterm⟩
  by_cases hcb : c = b
  · subst hcb
    obtain ⟨front', new, t', hfb, hgb, _⟩ := hi.inserted
    obtain ⟨_, heq⟩ := List.append_inj' (hfb.symm.trans hbody) rfl
    rw [heq] at hgb
    exact ⟨_, hgb⟩
  · exact ⟨front, (hi.body_eq c hcb).trans hbody⟩

theorem successors_eq : g.successors c = f.successors c := by
  obtain ⟨t, ht⟩ := hf.ends c hc
  have hlt := hf.inst_lt hc (mem_body_of_terminator ht).1
  unfold successors
  rw [hi.terminator?_eq hf hc, ht]
  simp only [hi.op_eq hlt]

end

theorem ofFunc_eq (hi : Inserts b f g) (hf : f.Framed) :
    FlowGraph.ofFunc g = FlowGraph.ofFunc f := by
  unfold FlowGraph.ofFunc
  rw [hi.layout_eq]
  congr 1
  exact List.map_congr_left fun c hc => by rw [hi.successors_eq hf hc]

theorem predecessors_eq (hi : Inserts b f g) (hf : f.Framed) (c : BlockId) :
    g.predecessors c = f.predecessors c := by
  rw [← FlowGraph.predecessors_ofFunc, hi.ofFunc_eq hf, FlowGraph.predecessors_ofFunc]

theorem entry?_eq (hi : Inserts b f g) : Func.entry? g = Func.entry? f := by
  rw [ Func.entry?, Func.entry?, hi.layout_eq]

/-- The blocks stay in order. -/
theorem framed (hi : Inserts b f g) (hf : f.Framed) : g.Framed := by
  -- An instruction is an old one in its old block, or a new one between phis and terminator.
  have hcases {c : BlockId} (hc : c ∈ g.layout) {i : InstId} (hmem : i ∈ g.body c) :
      c ∈ f.layout ∧ (i < f.insts.size ∧ i ∈ f.body c ∨ ¬ i < f.insts.size ∧
        g.owner i = some c ∧ (g.op i).isPhi = false ∧ (g.op i).isTerminator = false) := by
    rw [hi.layout_eq] at hc
    by_cases hlt : i < f.insts.size
    · exact ⟨hc, .inl ⟨hlt, hi.mem_body_of_lt hf hc hmem hlt⟩⟩
    · obtain ⟨rfl, hlt', hphi, hterm⟩ := hi.eq_of_not_lt hf hc hmem hlt
      exact ⟨hc, .inr ⟨hlt, (hi.mem_new i (Nat.le_of_not_lt hlt) hlt').2, hphi, hterm⟩⟩
  constructor
  case owner_eq =>
    intro c hc i hmem
    obtain ⟨hc, ⟨hlt, hold⟩ | ⟨_, hown, _⟩⟩ := hcases hc hmem
    · rw [hi.owner_eq hlt]
      exact hf.owner_eq c hc i hold
    · exact hown
  case ends =>
    intro c hc
    rw [hi.layout_eq] at hc
    rw [hi.terminator?_eq hf hc]
    exact hf.ends c hc
  case terminator_eq =>
    intro c hc i hmem ht
    obtain ⟨hc, ⟨hlt, hold⟩ | ⟨_, _, _, hterm⟩⟩ := hcases hc hmem
    · rw [hi.op_eq hlt] at ht
      rw [hi.terminator?_eq hf hc]
      exact hf.terminator_eq c hc i hold ht
    · rw [hterm] at ht
      cases ht
  case phi_first =>
    intro c hc i hmem
    obtain ⟨hc, ⟨hlt, _⟩ | ⟨_, _, hphi, _⟩⟩ := hcases hc (mem_body_of_afterPhis hmem)
    · rw [hi.op_eq hlt]
      exact hf.phi_first c hc i (hi.mem_afterPhis_of_lt hf hc hmem hlt)
    · exact hphi
  case successor_live =>
    intro c hc x hx
    rw [hi.layout_eq] at hc ⊢
    rw [hi.successors_eq hf hc] at hx
    exact hf.successor_live c hc x hx
  case entry_predecessors =>
    intro e he
    rw [hi.predecessors_eq hf]
    exact hf.entry_predecessors e (hi.entry?_eq ▸ he)
  case phi_sources =>
    intro c hc i hmem incoming hop
    obtain ⟨hc, ⟨hlt, hold⟩ | ⟨_, _, hphi, _⟩⟩ := hcases hc hmem
    · rw [hi.op_eq hlt] at hop
      rw [hi.predecessors_eq hf]
      exact hf.phi_sources c hc i hold incoming hop
    · rw [hop] at hphi
      cases hphi

theorem operandExists (hi : Inserts b f g) {v : Operand} (h : Verify.operandExists f v = true) :
    Verify.operandExists g v = true := by
  cases v with
  | inst j =>
    simp only [Verify.operandExists, Bool.and_eq_true, decide_eq_true_eq] at h ⊢
    refine ⟨Nat.lt_of_lt_of_le h.1 hi.size_le, ?_⟩
    simp only [isLiveInst, isLiveBlock, hi.owner_eq h.1, hi.layout_eq]
    exact h.2
  | param k =>
    simp only [Verify.operandExists, hi.params_eq]
    exact h
  | const c =>
    simp only [Verify.operandExists, decide_eq_true_eq] at h ⊢
    exact (Array.getElem?_eq_some_iff.mp (hi.constant_eq c _ (Array.getElem?_eq_getElem h))).1

end Inserts

theorem lt_of_operandExists {f : Func} {j : InstId}
    (h : Verify.operandExists f (.inst j) = true) : j < f.insts.size := by
  simp only [Verify.operandExists, Bool.and_eq_true, decide_eq_true_eq] at h
  exact h.1

theorem live_of_operandExists {f : Func} {j : InstId} {d : BlockId}
    (h : Verify.operandExists f (.inst j) = true) (hd : f.owner j = some d) : d ∈ f.layout := by
  simp only [Verify.operandExists, Bool.and_eq_true, isLiveInst, hd, isLiveBlock,
    List.contains_iff_mem] at h
  exact h.2

/-! ## Usable operands -/

/-- An operand of a given type that can be used at the end of a block. -/
structure Usable (f : Func) (b : BlockId) (v : Operand) (t : TyId) : Prop where
  operandTy_eq : f.operandTy v = .ok t
  inst_usable : ∀ j, v = .inst j → ∃ d, f.owner j = some d ∧ d ∈ f.layout ∧ j ∈ f.body d ∧
    (d ≠ b → (FlowGraph.ofFunc f).Dominates d b) ∧ (d = b → j ∈ (f.body b).dropLast)

theorem operandExists_of_operandTy {f : Func} {v : Operand} {t : TyId} (h : f.operandTy v = .ok t)
    (hlive : ∀ j, v = .inst j → ∃ d ∈ f.layout, f.owner j = some d) :
    Verify.operandExists f v = true := by
  cases v with
  | inst j =>
    obtain ⟨d, hd, hown⟩ := hlive j rfl
    simp [Verify.operandExists, (lt_of_operandTy h).1, isLiveInst, hown, isLiveBlock, hd]
  | param k =>
    simp only [operandTy] at h
    split at h
    · rename_i x hx
      simpa [Verify.operandExists] using (Array.getElem?_eq_some_iff.mp hx).1
    · cases h
  | const c =>
    simp only [operandTy] at h
    split at h
    · rename_i x hx
      simpa [Verify.operandExists] using (Array.getElem?_eq_some_iff.mp hx).1
    · cases h

theorem Usable.operandExists {f : Func} {b : BlockId} {v : Operand} {t : TyId}
    (h : Usable f b v t) : Verify.operandExists f v = true :=
  operandExists_of_operandTy h.operandTy_eq fun j hj => by
    obtain ⟨d, hd, hlive, _⟩ := h.inst_usable j hj
    exact ⟨d, hlive, hd⟩

/-- What is usable stays usable. -/
theorem Usable.inserts {f g : Func} {b : BlockId} {v : Operand} {t : TyId} (h : Usable f b v t)
    (hi : Inserts b f g) (hf : f.WellFormed) : Usable g b v t where
  operandTy_eq := hi.keepsTypes.operandTy_eq v t h.operandTy_eq
  inst_usable j hj := by
    obtain ⟨d, hd, hlive, hlist, hdom, hsame⟩ := h.inst_usable j hj
    subst hj
    refine ⟨d, ?_, hi.layout_eq ▸ hlive, ?_, ?_, fun heq => ?_⟩
    · rw [hi.owner_eq (lt_of_operandTy h.operandTy_eq).1]
      exact hd
    · have := hi.filter_body fun i => hf.inst_lt hlive
      rw [← this] at hlist
      exact (List.mem_filter.mp hlist).1
    · rw [hi.ofFunc_eq hf.framed]
      exact hdom
    · obtain ⟨front, new, t', hfb, hgb, _⟩ := hi.inserted
      have := hsame heq
      rw [hfb, List.dropLast_concat] at this
      rw [hgb, List.dropLast_concat]
      exact List.mem_append_left _ this

/-! ## One instruction -/

theorem lt_blocks_size {f : Func} {b : BlockId} {i : InstId} (hi : i ∈ f.body b) :
    b < f.blocks.size := by
  by_contra hb
  simp [body, block, Array.getElem?_eq_none (Nat.le_of_not_lt hb), Block.fresh] at hi

/-- What holds of all instructions is what holds of them by number. -/
theorem forall_mem_insts {f : Func} {P : Inst → Prop} :
    (∀ x ∈ f.insts, P x) ↔ ∀ i < f.insts.size, P (f.inst i) := by
  simp only [Array.mem_iff_getElem, forall_exists_index, inst]
  constructor
  · intro h i hi
    rw [Array.getElem?_eq_getElem hi]
    exact h _ i hi rfl
  · rintro h _ i hi rfl
    have := h i hi
    rwa [Array.getElem?_eq_getElem hi] at this

theorem forall_mem_tys {f : Func} {P : TyId → Prop} : (∀ t ∈ f.tys, P t) ↔
    P f.ret ∧ (∀ x ∈ f.params, P x.ty) ∧ (∀ x ∈ f.constants, P x.ty) ∧
      ∀ i < f.insts.size, P (f.inst i).ty ∧ ∀ t a, f.op i = .alloca t a → P t := by
  simp only [tys, List.forall_mem_cons, List.forall_mem_append, List.forall_mem_flatMap,
    forall_mem_insts, List.forall_mem_map, Array.mem_toList_iff, and_assoc]
  refine and_congr_right fun _ => and_congr_right fun _ => and_congr_right fun _ =>
    forall_congr' fun i => forall_congr' fun _ => and_congr_right fun _ => ?_
  rw [op]
  cases (f.inst i).op <;> simp

/-- The types of appended code come to the types of a function. -/
theorem Appends.forall_mem_tys {f g : Func} {b : BlockId} {code : List InstId} {P : TyId → Prop}
    (h : Appends b code f g) (hf : ∀ t ∈ f.tys, P t)
    (hcode : ∀ i ∈ code, P (g.inst i).ty ∧ ∀ t a, g.op i = .alloca t a → P t) :
    ∀ t ∈ g.tys, P t := by
  obtain ⟨hret, hparams, hconsts, hinsts⟩ := Func.forall_mem_tys.mp hf
  refine Func.forall_mem_tys.mpr ⟨h.ret_eq ▸ hret, h.params_eq ▸ hparams, h.constants_eq ▸ hconsts,
    fun i hi => ?_⟩
  by_cases hold : i < f.insts.size
  · rw [op, h.inst_eq i hold]
    exact hinsts i hold
  · exact hcode i ((h.mem_code i).mpr ⟨Nat.le_of_not_lt hold, hi⟩)

theorem forall_mem_tys_addConstant {f : Func} {P : TyId → Prop} {t : TyId} (hf : ∀ t ∈ f.tys, P t)
    (ht : P t) (lit : Literal) : ∀ u ∈ (f.addConstant t lit).2.tys, P u := by
  obtain ⟨hret, hparams, hconsts, hinsts⟩ := forall_mem_tys.mp hf
  refine forall_mem_tys.mpr ⟨hret, hparams, fun x hx => ?_, hinsts⟩
  rw [constants_addConstant, Array.mem_push] at hx
  rcases hx with hx | rfl
  · exact hconsts x hx
  · exact ht

section

variable {tt : TypeTable} {f : Func} {b : BlockId} {d : Draft}

theorem inserts_insertBeforeTerminator (hf : f.Framed) (hb : b ∈ f.layout)
    (hphi : d.op.isPhi = false) (hterm : d.op.isTerminator = false) :
    Inserts b f (f.insertBeforeTerminator b d).2 := by
  obtain ⟨t, ht⟩ := hf.ends b hb
  obtain ⟨hmem, _⟩ := mem_body_of_terminator ht
  obtain ⟨⟨front, hbody⟩, htt⟩ := terminator?_eq_some.mp ht
  have hbodies := f.body_insertBeforeTerminator hbody htt (lt_blocks_size hmem) d
  refine ⟨f.below_insertInst _ _ _, rfl, rfl, by simp, fun c => by simp, fun c hc => ?_,
    ⟨front, [f.insts.size], t, hbody, ?_, htt, hf.inst_lt hb hmem, fun i hi => ?_⟩,
    fun i hle hlt => ?_⟩
  · rw [hbodies, if_neg hc]
  · rw [hbodies, if_pos rfl]
  · rw [List.mem_singleton.mp hi, op]
    simp [hphi, hterm]
  · obtain rfl : i = f.insts.size := by simp at hlt; omega
    simp [hbodies, owner]

theorem inserts_addConstant (hf : f.Framed) (hb : b ∈ f.layout) (t : TyId) (l : Literal) :
    Inserts b f (f.addConstant t l).2 := by
  obtain ⟨term, hterm⟩ := hf.ends b hb
  have hlt := hf.inst_lt hb (mem_body_of_terminator hterm).1
  obtain ⟨⟨front, hbody⟩, hisTerm⟩ := terminator?_eq_some.mp hterm
  exact ⟨f.below_addConstant t l, rfl, rfl, rfl, fun _ => rfl, fun _ _ => rfl, ⟨front, [], term, hbody,
    by simpa using hbody, hisTerm, hlt, fun _ h => absurd h List.not_mem_nil⟩,
    fun _ hle hlt => absurd hlt (Nat.not_lt.mpr hle)⟩

/-- An instruction is an old one, or the new one. -/
theorem mem_body_insertBeforeTerminator (hf : f.Framed) (hb : b ∈ f.layout)
    (hphi : d.op.isPhi = false) (hterm : d.op.isTerminator = false) {c : BlockId}
    (hc : c ∈ f.layout) {i : InstId} (hic : i ∈ (f.insertBeforeTerminator b d).2.body c) :
    i ∈ f.body c ∧ i < f.insts.size ∨ i = f.insts.size ∧ c = b := by
  have hi := inserts_insertBeforeTerminator hf hb hphi hterm
  have hsize := f.insts_size_insertBeforeTerminator b d
  by_cases hlt : i < f.insts.size
  · exact .inl ⟨hi.mem_body_of_lt hf hc hic hlt, hlt⟩
  · obtain ⟨hcb, hlt', _⟩ := hi.eq_of_not_lt hf hc hic hlt
    exact .inr ⟨Nat.le_antisymm (Nat.le_of_lt_succ (Nat.lt_of_lt_of_eq hlt' hsize))
      (Nat.le_of_not_lt hlt), hcb⟩

/-- An instruction whose operands are usable can be added. -/
theorem WellFormed.insertBeforeTerminator (hf : f.WellFormed) (hb : b ∈ f.layout)
    (hphi : d.op.isPhi = false) (hterm : d.op.isTerminator = false)
    (hops : ∀ v ∈ d.op.operands, ∃ t, Usable f b v t) :
    (f.insertBeforeTerminator b d).2.WellFormed := by
  have hi := inserts_insertBeforeTerminator hf.framed hb hphi hterm
  have hnew : (f.insertBeforeTerminator b d).2.inst f.insts.size = ⟨d.op, d.ty, d.name, some b⟩ := by
    simp
  have hmem := fun c hc i => mem_body_insertBeforeTerminator hf.framed hb hphi hterm (c := c) (i := i) hc
  generalize (f.insertBeforeTerminator b d).2 = g at hi hnew hmem
  have hlayout : ∀ {c}, c ∈ g.layout → c ∈ f.layout := fun hc => hi.layout_eq ▸ hc
  have hopn : g.op f.insts.size = d.op := congrArg Inst.op hnew
  have hg := hi.framed hf.framed
  refine ⟨hg.owner_eq, hg.ends, hg.terminator_eq, hg.phi_first, hg.successor_live,
    hg.entry_predecessors, fun c hc i hic v hv => ?_, hg.phi_sources,
    fun c hc i hic inc hop j p hjp d' hd' => ?_, fun c hc hr i hic hp j hj => ?_⟩
  · rcases hmem c (hlayout hc) i hic with ⟨hold, hlt⟩ | ⟨rfl, rfl⟩
    · rw [hi.op_eq hlt] at hv
      exact hi.operandExists (hf.operand_exists c (hlayout hc) i hold v hv)
    · rw [hopn] at hv
      obtain ⟨_, hu⟩ := hops v hv
      exact hi.operandExists hu.operandExists
  · rcases hmem c (hlayout hc) i hic with ⟨hold, hlt⟩ | ⟨rfl, rfl⟩
    · rw [hi.op_eq hlt] at hop
      have hjlt := lt_of_operandExists (hf.operand_exists c (hlayout hc) i hold (.inst j)
        (by rw [hop]; exact List.mem_map_of_mem hjp))
      rw [hi.owner_eq hjlt] at hd'
      rw [hi.ofFunc_eq hf.framed]
      exact hf.phi_dominated c (hlayout hc) i hold inc hop j p hjp d' hd'
    · rw [hopn] at hop
      rw [hop] at hphi
      cases hphi
  · rw [hi.ofFunc_eq hf.framed] at hr ⊢
    rcases hmem c (hlayout hc) i hic with ⟨hold, hlt⟩ | ⟨rfl, rfl⟩
    · rw [hi.op_eq hlt] at hp hj
      have hjlt := lt_of_operandExists (hf.operand_exists c (hlayout hc) i hold _ hj)
      obtain ⟨d', hd', hdom, hsame⟩ := hf.use_dominated c (hlayout hc) hr i hold hp j hj
      refine ⟨d', (hi.owner_eq hjlt).trans hd', hdom, fun heq pre post hbody => ?_⟩
      have hfilter := hi.filter_body fun j => hf.inst_lt (hlayout hc)
      rw [hbody, List.filter_append, List.filter_cons_of_pos (by simpa using hlt)] at hfilter
      exact (List.mem_filter.mp (hsame heq _ _ hfilter.symm)).1
    · rw [hopn] at hj
      obtain ⟨_, hu⟩ := hops _ hj
      obtain ⟨d', hd', _, _, hdom, hsame⟩ := hu.inst_usable j rfl
      refine ⟨d', (hi.owner_eq (lt_of_operandTy hu.operandTy_eq).1).trans hd', hdom,
        fun heq pre post hbody => ?_⟩
      obtain ⟨front, new, t, hfb, hgb, _⟩ := hi.inserted
      have hj' := hsame heq
      rw [hfb, List.dropLast_concat] at hj'
      have hfront : f.insts.size ∉ front := fun hmem =>
        Nat.lt_irrefl _ (hf.inst_lt hb (hfb ▸ List.mem_append_left _ hmem))
      -- All that was there before the terminator comes before the new instruction.
      rw [hgb, List.append_assoc] at hbody
      rcases List.append_eq_append_iff.mp hbody with ⟨rest, hpre, _⟩ | ⟨rest, hpre, hrest⟩
      · exact hpre ▸ List.mem_append_left _ hj'
      · cases rest with
        | nil =>
          rw [List.append_nil] at hpre
          exact hpre ▸ hj'
        | cons x xs =>
          obtain ⟨rfl, _⟩ := List.cons_eq_cons.mp hrest
          exact absurd (hpre ▸ by simp) hfront

/-- An operation keeps its type where the types of operands are kept. -/
theorem KeepsTypes.resultTy_eq {g : Func} (hk : f.KeepsTypes g) (htys : ∀ t ∈ f.tys, t < tt.size)
    {op : Op} {t : TyId} (ht : t < tt.size) {ty : Ty}
    (h : Typing.resultTy tt f op (some t) = .ok ty) : Typing.resultTy tt g op (some t) = .ok ty := by
  have hret : f.ret < tt.size := htys _ List.mem_cons_self
  have := Typing.resultTy_extends (.refl tt) hk.ret_eq hret ht (σ := id)
    (fun v _ u hu => ⟨hk.operandTy_eq v u hu, htys u (mem_tys_of_operandTy hu)⟩) h
  have hid : op.mapOperands id = op := mapOperands_eq_self fun _ _ => rfl
  rwa [hid] at this

/-- A function is well typed in every larger table. -/
theorem WellTyped.extends {tt' : TypeTable} (hf : f.WellTyped tt) (htys : ∀ t ∈ f.tys, t < tt.size)
    (ht : tt.Extends tt') : f.WellTyped tt' := by
  intro b hb i hi
  obtain ⟨ty, hty, hlook⟩ := hf b hb i hi
  have := Typing.resultTy_extends ht rfl (htys _ List.mem_cons_self) (TypeTable.lookup_lt hlook)
    (σ := id) (fun v _ u hu => ⟨hu, htys u (mem_tys_of_operandTy hu)⟩) hty
  have hid : (f.op i).mapOperands id = f.op i := mapOperands_eq_self fun _ _ => rfl
  rw [hid] at this
  exact ⟨ty, this, ht.lookup_eq hlook⟩

/-- A function is sound in every larger table. -/
theorem Sound.extends {tt' : TypeTable} (hs : Sound tt f) (ht : tt.Extends tt') : Sound tt' f :=
  ⟨hs.wellFormed, hs.wellTyped.extends hs.tys_lt ht, hs.usesListed, fun t hmem =>
    Nat.lt_of_lt_of_le (hs.tys_lt t hmem) ht.size_le⟩

/-- Adding an instruction whose operands are usable. -/
theorem Sound.insertBeforeTerminator (hs : Sound tt f) (hb : b ∈ f.layout)
    (hphi : d.op.isPhi = false) (hterm : d.op.isTerminator = false)
    (hslot : ∀ t a, d.op ≠ .alloca t a) (hops : ∀ v ∈ d.op.operands, ∃ t, Usable f b v t) {ty : Ty}
    (hty : Typing.resultTy tt f d.op (some d.ty) = .ok ty) (hlook : tt.lookup ty = some d.ty) :
    Sound tt (f.insertBeforeTerminator b d).2 ∧ Inserts b f (f.insertBeforeTerminator b d).2 ∧
      Usable (f.insertBeforeTerminator b d).2 b (.inst f.insts.size) d.ty := by
  have hf := hs.wellFormed
  have hi := inserts_insertBeforeTerminator hf.framed hb hphi hterm
  have hf' := hf.insertBeforeTerminator hb hphi hterm hops
  have hnew : (f.insertBeforeTerminator b d).2.inst f.insts.size = ⟨d.op, d.ty, d.name, some b⟩ := by
    simp
  have hsize := f.insts_size_insertBeforeTerminator b d
  have hconst := f.constants_insertBeforeTerminator b d
  have hmem := fun c hc i => mem_body_insertBeforeTerminator hf.framed hb hphi hterm (c := c) (i := i) hc
  obtain ⟨front, t, hbody⟩ : ∃ front t,
      (f.insertBeforeTerminator b d).2.body b = front ++ [f.insts.size] ++ [t] := by
    obtain ⟨t, ht⟩ := hf.ends b hb
    obtain ⟨⟨front, hfb⟩, hterm⟩ := terminator?_eq_some.mp ht
    refine ⟨front, t, ?_⟩
    rw [f.body_insertBeforeTerminator hfb hterm (lt_blocks_size (mem_body_of_terminator ht).1),
      if_pos rfl]
  generalize (f.insertBeforeTerminator b d).2 = g at hi hnew hsize hf' hconst hmem hbody
  have hdlt : d.ty < tt.size := TypeTable.lookup_lt hlook
  have hopn : g.op f.insts.size = d.op := congrArg Inst.op hnew
  refine ⟨⟨hf', fun c hc i hic => ?_, ?_, ?_⟩, hi, ?_⟩
  · rw [hi.layout_eq] at hc
    rcases hmem c hc i hic with ⟨hold, hlt⟩ | ⟨rfl, rfl⟩
    · rw [hi.op_eq hlt, hi.inst_eq i hlt]
      obtain ⟨ty, hty, hlook⟩ := hs.wellTyped c hc i hold
      exact ⟨ty, hi.keepsTypes.resultTy_eq hs.tys_lt (TypeTable.lookup_lt hlook) hty, hlook⟩
    · rw [hopn, hnew]
      exact ⟨ty, hi.keepsTypes.resultTy_eq hs.tys_lt hdlt hty, hlook⟩
  · refine usesListed_iff.mpr fun c hc i hic j hj d' hd' => ?_
    rw [hi.layout_eq] at hc
    rcases hmem c hc i hic with ⟨hold, hlt⟩ | ⟨rfl, rfl⟩
    · rw [hi.op_eq hlt] at hj
      have hex := hf.operand_exists c hc i hold _ hj
      rw [hi.owner_eq (lt_of_operandExists hex)] at hd'
      exact hi.mem_body hf.framed (live_of_operandExists hex hd')
        (usesListed_iff.mp hs.usesListed c hc i hold j hj d' hd')
    · rw [hopn] at hj
      obtain ⟨_, hu⟩ := hops _ hj
      obtain ⟨d'', hd'', hlive, hlist, _⟩ := hu.inst_usable j rfl
      rw [hi.owner_eq (lt_of_operandTy hu.operandTy_eq).1, hd''] at hd'
      cases hd'
      exact hi.mem_body hf.framed hlive hlist
  · obtain ⟨hret, hparams, hconsts, hinsts⟩ := forall_mem_tys.mp hs.tys_lt
    refine forall_mem_tys.mpr ⟨hi.ret_eq ▸ hret, hi.params_eq ▸ hparams, hconst ▸ hconsts,
      fun i hlt => ?_⟩
    by_cases hold : i < f.insts.size
    · rw [op, hi.inst_eq i hold]
      exact hinsts i hold
    · obtain rfl : i = f.insts.size := by omega
      rw [hopn, hnew]
      exact ⟨hdlt, fun t a hop => absurd hop (hslot t a)⟩
  · have hlt : f.insts.size < g.insts.size := by omega
    refine ⟨by rw [operandTy_inst hlt, hnew], fun j hj => ?_⟩
    cases hj
    refine ⟨b, congrArg Inst.owner hnew, hi.layout_eq ▸ hb, ?_, fun hne => absurd rfl hne, fun _ => ?_⟩
    · rw [hbody]
      simp
    · rw [hbody, List.dropLast_concat]
      simp

/-- Adding a constant. -/
theorem Sound.addConstant (hs : Sound tt f) (hb : b ∈ f.layout) {t : TyId} (ht : t < tt.size)
    (l : Literal) : Sound tt (f.addConstant t l).2 ∧ Inserts b f (f.addConstant t l).2 ∧
      Usable (f.addConstant t l).2 b (f.addConstant t l).1 t := by
  have hf := hs.wellFormed
  have hi := inserts_addConstant hf.framed hb t l
  refine ⟨⟨⟨hf.owner_eq, hf.ends, hf.terminator_eq, hf.phi_first, hf.successor_live,
    hf.entry_predecessors, fun c hc i hic v hv => hi.operandExists (hf.operand_exists c hc i hic v hv),
    hf.phi_sources, hf.phi_dominated, hf.use_dominated⟩, fun c hc i hic => ?_, hs.usesListed,
    forall_mem_tys_addConstant hs.tys_lt ht l⟩, hi, f.operandTy_addConstant t l, fun j hj => by cases hj⟩
  obtain ⟨ty, hty, hlook⟩ := hs.wellTyped c hc i hic
  exact ⟨ty, hi.keepsTypes.resultTy_eq hs.tys_lt (TypeTable.lookup_lt hlook) hty, hlook⟩

end

end Func

end LoopNest
