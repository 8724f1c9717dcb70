import LoopNest.Pass.Vectorize.Apply
import LoopNest.Proofs.Vectorize.Planned

/-!
# The end of a vector loop

The end of a vector loop is a constant, or it is computed in the preheader.  Either way the
function stays sound, only the preheader gets code, and that code has no vectors (`Prepares`).
What was planned for the loop still holds (`Prepares.planned`), and the end can be used in the
preheader (`computes_emitEnd`).
-/

namespace LoopNest

open Func

variable {tt : TypeTable} {f g k : Func} {l : NaturalLoop} {p : VectorPlan} {ph : BlockId}

namespace Func

/-- Terminators have no value. -/
theorem WellTyped.shape_of_isTerminator (hty : f.WellTyped tt) {b : BlockId} (hb : b ∈ f.layout)
    {i : InstId} (hi : i ∈ f.body b) (ht : (f.op i).isTerminator = true) :
    tt.shape (f.inst i).ty = .void := by
  obtain ⟨ty, hres, hlook⟩ := hty b hb i hi
  have hvoid : ty = Typing.void := by
    cases hop : f.op i with
    | br t =>
      rw [hop] at hres
      exact (Except.ok.inj hres).symm
    | condBr c t e =>
      rw [hop] at hres
      obtain ⟨_, _, _, rfl⟩ := Typing.resultTy_condBr.mp hres
      rfl
    | ret v =>
      rw [hop] at hres
      cases v with
      | none =>
        simp only [Typing.resultTy] at hres
        split at hres
        · exact (Except.ok.inj hres).symm
        · cases hres
      | some v =>
        simp only [Typing.resultTy, bind_eq_ok_iff] at hres
        obtain ⟨_, _, _, _, h⟩ := hres
        exact (Except.ok.inj h).symm
    | _ =>
      rw [hop] at ht
      cases ht
  rw [TypeTable.shape_of_lookup hlook, hvoid]
  rfl

end Func

namespace Vectorize

/-- The type of an induction value. -/
structure IsIndex (tt : TypeTable) (t : TyId) : Prop where
  shape_eq : ∃ s, tt.shape t = .scalar s ∧ s.isInteger = true
  lookup_eq : tt.lookup (tt.ty t) = some t

theorem IsIndex.lt (h : IsIndex tt p.ivTy) : p.ivTy < tt.size := TypeTable.lookup_lt h.lookup_eq

theorem IsIndex.lanes_eq {t : TyId} (h : IsIndex tt t) : tt.lanes? t = none := by
  obtain ⟨s, hs, _⟩ := h.shape_eq
  simp [TypeTable.lanes?, hs]

theorem lanes_bool {t : TyId} (h : tt.lookup (Shape.scalar .bool).unnamed = some t) :
    tt.lanes? t = none := by
  simp [TypeTable.lanes?, TypeTable.shape_of_lookup h, Shape.unnamed]

/-! ## The loop control -/

namespace Shape

variable (hp : Shape f l p)

include hp

theorem header_live : l.header ∈ f.layout := CountedLoop.live_of_mem hp.isLoop hp.isLoop.header_mem

theorem mem_header : p.loop.induction ∈ f.body l.header ∧ p.loop.cond ∈ f.body l.header := by
  obtain ⟨t, ht⟩ := hp.header_body
  simp [ht]

theorem incoming_eq : ∃ incoming, f.op p.loop.induction = .phi incoming ∧
    (p.loop.start, p.loop.preheader) ∈ incoming ∧
    (Operand.inst p.loop.next, p.loop.latch) ∈ incoming := by
  obtain ⟨inc, hop, hstart⟩ := mem_of_incoming? hp.counted.start_eq
  obtain ⟨inc', hop', hnext⟩ := mem_of_incoming? hp.counted.next_eq
  rw [hop] at hop'
  cases hop'
  exact ⟨inc, hop, hstart, hnext⟩

theorem edge_preheader : p.loop.preheader ∈ f.layout ∧
    (FlowGraph.ofFunc f).Edge p.loop.preheader l.header := by
  obtain ⟨hlive, hsucc⟩ := (f.mem_predecessors _ _).mp hp.counted.preheader_mem
  exact ⟨hlive, (FlowGraph.edge_ofFunc f _ _).mpr ⟨hlive, hp.header_live, hsucc⟩⟩

end Shape

/-! ## Types of the loop control -/

namespace Planned

variable (hs : f.Sound tt) (hp : Planned tt f l p)

include hs hp

/-- Start, bound and next value have the type of the induction value, and that is an integer. -/
theorem operandTy_eq : IsIndex tt p.ivTy ∧ f.operandTy p.loop.iv = .ok p.ivTy ∧
    f.operandTy p.loop.bound = .ok p.ivTy ∧
    (∀ incoming, f.op p.loop.induction = .phi incoming →
      ∀ v ∈ incoming.map Prod.fst, f.operandTy v = .ok p.ivTy) ∧
    tt.lookup (Shape.scalar .bool).unnamed = some (f.inst p.loop.cond).ty := by
  have hlive := hp.header_live
  obtain ⟨hind, hcond⟩ := hp.mem_header
  have hindlt := hs.wellFormed.inst_lt hlive hind
  -- The branch demands a truth value, so scalars are compared.
  obtain ⟨t, ht, hbr⟩ := hp.counted.exitBranch
  obtain ⟨_, hres, _⟩ := hs.wellTyped _ hlive t (mem_body_of_terminator ht).1
  rw [hbr] at hres
  obtain ⟨ct, hct, hbool, _⟩ := Typing.resultTy_condBr.mp hres
  obtain ⟨_, rfl⟩ := lt_of_operandTy hct
  obtain ⟨ty, hres, hlook⟩ := hs.wellTyped _ hlive _ hcond
  rw [hp.counted.cond_op] at hres
  obtain ⟨t, s, lanes, hpair, hint, rfl⟩ := Typing.resultTy_icmp.mp hres
  obtain ⟨hiv, hbound, hsv⟩ := Typing.operandPair_iff.mp hpair
  have hlanes : lanes = none := by
    rw [TypeTable.shape_of_lookup hlook] at hbool
    cases lanes with
    | none => rfl
    | some n => cases hbool
  subst hlanes
  have hscalar : tt.shape t = .scalar s := by
    rcases Typing.scalarOrVector_eq_ok.mp hsv with ⟨h, _⟩ | ⟨n, _, h⟩
    · exact h
    · cases h
  have htiv : p.ivTy = t := by
    rw [hp.ivTy_eq]
    exact Typing.tyOf_of_operandTy hiv
  have hty : (f.inst p.loop.induction).ty = t :=
    Except.ok.inj ((operandTy_inst hindlt).symm.trans hiv)
  obtain ⟨inc, hop, _⟩ := hp.incoming_eq
  obtain ⟨ty, hres, hlook'⟩ := hs.wellTyped _ hlive _ hind
  rw [hop] at hres
  obtain ⟨hall, rfl⟩ := Typing.resultTy_phi.mp hres
  rw [hty] at hall hlook'
  rw [htiv]
  refine ⟨⟨⟨s, hscalar, hint⟩, hlook'⟩, hiv, hbound, fun inc' hop' => ?_, hlook⟩
  rw [hop] at hop'
  cases hop'
  exact hall

/-- What is invariant in the loop can be used in the preheader. -/
theorem usable_of_invariant {v : Operand} (hty : f.operandTy v = .ok p.ivTy)
    (hinv : l.Invariant f v) {i : InstId} (hi : i ∈ f.body l.header)
    (hv : v ∈ (f.op i).operands) : Usable f p.loop.preheader v p.ivTy := by
  refine ⟨hty, fun j hj => ?_⟩
  subst hj
  obtain ⟨d, hd, hout, hdom⟩ := hinv
  have hlive := hp.header_live
  have hdlive := live_of_operandExists (hs.wellFormed.operand_exists _ hlive i hi _ hv) hd
  have hlist := usesListed_iff.mp hs.usesListed _ hlive i hi j hv d hd
  obtain ⟨_, he⟩ := hp.edge_preheader
  have hne : d ≠ l.header := fun heq => hout (heq ▸ hp.isLoop.header_mem)
  refine ⟨d, hd, hdlive, hlist, fun _ => hdom.of_edge he hne, fun heq => ?_⟩
  subst heq
  -- It is an integer, so it is not the terminator.
  obtain ⟨t, ht⟩ := hs.wellFormed.ends _ hdlive
  obtain ⟨⟨front, hbody⟩, hterm⟩ := terminator?_eq_some.mp ht
  rw [hbody] at hlist ⊢
  rw [List.dropLast_concat]
  rcases List.mem_append.mp hlist with hmem | hmem
  · exact hmem
  · rw [List.mem_singleton.mp hmem] at hty
    obtain ⟨_, hty⟩ := lt_of_operandTy hty
    have hvoid := hs.wellTyped.shape_of_isTerminator hdlive (mem_body_of_terminator ht).1 hterm
    obtain ⟨s, hscalar, _⟩ := (hp.operandTy_eq hs).1.shape_eq
    rw [hty, hscalar] at hvoid
    cases hvoid

theorem usable_start : Usable f p.loop.preheader p.loop.start p.ivTy := by
  obtain ⟨inc, hop, hstart, _⟩ := hp.incoming_eq
  have hmem : p.loop.start ∈ inc.map Prod.fst := List.mem_map_of_mem hstart
  exact hp.usable_of_invariant hs ((hp.operandTy_eq hs).2.2.2.1 inc hop _ hmem) hp.counted.start_inv
    hp.mem_header.1 (by rw [hop]; exact hmem)

theorem usable_bound : Usable f p.loop.preheader p.loop.bound p.ivTy :=
  hp.usable_of_invariant hs (hp.operandTy_eq hs).2.2.1 hp.counted.bound_inv hp.mem_header.2
    (by rw [hp.counted.cond_op]; simp [Op.operands])

end Planned

/-! ## Code without vectors -/

/-- Code without vectors was added before the terminator of a block. -/
structure Prepares (tt : TypeTable) (ph : BlockId) (f g : Func) : Prop where
  sound : g.Sound tt
  inserts : Inserts ph f g
  scalar : ∀ i, f.insts.size ≤ i → i < g.insts.size → tt.lanes? (g.inst i).ty = none ∧
    ∀ v ∈ (g.op i).operands, ∃ t, g.operandTy v = .ok t ∧ tt.lanes? t = none

theorem Prepares.trans (hfg : Prepares tt ph f g) (hgk : Prepares tt ph g k) :
    Prepares tt ph f k := by
  refine ⟨hgk.sound, hfg.inserts.trans hgk.inserts, fun i hle hlt => ?_⟩
  by_cases hi : i < g.insts.size
  · rw [hgk.inserts.op_eq hi, hgk.inserts.inst_eq i hi]
    obtain ⟨hty, hops⟩ := hfg.scalar i hle hi
    refine ⟨hty, fun v hv => ?_⟩
    obtain ⟨t, ht, hno⟩ := hops v hv
    exact ⟨t, hgk.inserts.keepsTypes.operandTy_eq v t ht, hno⟩
  · exact hgk.scalar i (Nat.le_of_not_lt hi) hlt

/-- Code without vectors was added before the terminator of a block, and computes an operand. -/
structure Computes (tt : TypeTable) (ph : BlockId) (f : Func) (x : Operand × Func) (t : TyId) :
    Prop where
  prepares : Prepares tt ph f x.2
  usable : Usable x.2 ph x.1 t

section

variable (hs : f.Sound tt) (hb : ph ∈ f.layout)

include hs hb

theorem computes_addConstant {t : TyId} (ht : t < tt.size) (lit : Literal) :
    Computes tt ph f (f.addConstant t lit) t := by
  obtain ⟨hsound, hins, husable⟩ := hs.addConstant hb ht lit
  exact ⟨⟨hsound, hins, fun i hle hlt => absurd hlt (Nat.not_lt.mpr hle)⟩, husable⟩

theorem computes_addBefore {op : Op} {t : TyId} (name : String) (hphi : op.isPhi = false)
    (hterm : op.isTerminator = false) (hslot : ∀ t a, op ≠ .alloca t a)
    (hops : ∀ v ∈ op.operands, ∃ u, Usable f ph v u ∧ tt.lanes? u = none) {ty : Ty}
    (hty : Typing.resultTy tt f op (some t) = .ok ty) (hlook : tt.lookup ty = some t)
    (hlanes : tt.lanes? t = none) : Computes tt ph f (addBefore f ph op t name) t := by
  obtain ⟨hsound, hins, husable⟩ := hs.insertBeforeTerminator (d := ⟨op, t, some name⟩) hb hphi hterm
    hslot (fun v hv => (hops v hv).imp fun _ h => h.1) hty hlook
  refine ⟨⟨hsound, hins, fun i hle hlt => ?_⟩, husable⟩
  have hsize := f.insts_size_insertBeforeTerminator ph ⟨op, t, some name⟩
  have hi : i = f.insts.size :=
    Nat.le_antisymm (Nat.le_of_lt_succ (Nat.lt_of_lt_of_eq hlt hsize)) hle
  subst hi
  have hnew : (addBefore f ph op t name).2.inst f.insts.size = ⟨op, t, some name, some ph⟩ := by
    simp [addBefore]
  rw [ Func.op, hnew]
  refine ⟨hlanes, fun v hv => ?_⟩
  obtain ⟨u, hu, hno⟩ := hops v hv
  exact ⟨u, hins.keepsTypes.operandTy_eq v u hu.operandTy_eq, hno⟩

variable {t b : TyId} {x y : Operand} (ht : IsIndex tt t) (name : String)

include ht

theorem computes_binary {o : BinaryOp} (ho : o.isFloat = false) (hx : Usable f ph x t)
    (hy : Usable f ph y t) : Computes tt ph f (addBefore f ph (.binary o x y) t name) t := by
  obtain ⟨s, hshape, hint⟩ := ht.shape_eq
  refine computes_addBefore hs hb name rfl rfl nofun (fun v hv => ?_)
    (Typing.resultTy_binary.mpr ⟨t, s, none, Typing.operandPair_iff.mpr ⟨hx.operandTy_eq,
      hy.operandTy_eq, Typing.scalarOrVector_eq_ok.mpr (.inl ⟨hshape, rfl⟩)⟩, ?_, rfl⟩)
    ht.lookup_eq ht.lanes_eq
  · simp only [Op.operands, List.mem_cons, List.not_mem_nil, or_false] at hv
    rcases hv with rfl | rfl
    · exact ⟨t, hx, ht.lanes_eq⟩
    · exact ⟨t, hy, ht.lanes_eq⟩
  · simp [BinaryOp.admits, ho, hint]

theorem computes_icmp {o : IntPredicate} (hbool : tt.lookup (Shape.scalar .bool).unnamed = some b)
    (hx : Usable f ph x t) (hy : Usable f ph y t) :
    Computes tt ph f (addBefore f ph (.icmp o x y) b name) b := by
  obtain ⟨s, hshape, hint⟩ := ht.shape_eq
  refine computes_addBefore hs hb name rfl rfl nofun (fun v hv => ?_)
    (Typing.resultTy_icmp.mpr ⟨t, s, none, Typing.operandPair_iff.mpr ⟨hx.operandTy_eq,
      hy.operandTy_eq, Typing.scalarOrVector_eq_ok.mpr (.inl ⟨hshape, rfl⟩)⟩, hint, rfl⟩)
    hbool (lanes_bool hbool)
  simp only [Op.operands, List.mem_cons, List.not_mem_nil, or_false] at hv
  rcases hv with rfl | rfl
  · exact ⟨t, hx, ht.lanes_eq⟩
  · exact ⟨t, hy, ht.lanes_eq⟩

theorem computes_select {c : Operand} (hbool : tt.lookup (Shape.scalar .bool).unnamed = some b)
    (hc : Usable f ph c b) (hx : Usable f ph x t) (hy : Usable f ph y t) :
    Computes tt ph f (addBefore f ph (.select c x y) t name) t := by
  have hshape : tt.shape b = .scalar .bool := TypeTable.shape_of_lookup hbool
  refine computes_addBefore hs hb name rfl rfl nofun (fun v hv => ?_)
    (Typing.resultTy_select.mpr ⟨t, b, none, hx.operandTy_eq, hy.operandTy_eq, hc.operandTy_eq,
      Typing.scalarOrVector_eq_ok.mpr (.inl ⟨hshape, rfl⟩), .inl rfl, rfl⟩)
    ht.lookup_eq ht.lanes_eq
  simp only [Op.operands, List.mem_cons, List.not_mem_nil, or_false] at hv
  rcases hv with rfl | rfl | rfl
  · exact ⟨b, hc, lanes_bool hbool⟩
  · exact ⟨t, hx, ht.lanes_eq⟩
  · exact ⟨t, hy, ht.lanes_eq⟩

end

theorem Prepares.usable (h : Prepares tt ph f g) (hs : f.Sound tt) {v : Operand} {t : TyId}
    (hv : Usable f ph v t) : Usable g ph v t := hv.inserts h.inserts hs.wellFormed

theorem Prepares.live (h : Prepares tt ph f g) {b : BlockId} (hb : b ∈ f.layout) : b ∈ g.layout :=
  h.inserts.layout_eq ▸ hb

/-- The end of the vector loop is computed in the preheader. -/
theorem computes_computeEnd (hs : f.Sound tt) (hp : Planned tt f l p) (width : Int64) :
    Computes tt p.loop.preheader f (computeEnd f p width) p.ivTy := by
  have ht := (hp.operandTy_eq hs).1
  have hb := hp.edge_preheader.1
  have hstart := hp.usable_start hs
  have hbound := hp.usable_bound hs
  unfold computeEnd
  dsimp only
  obtain ⟨h₁, hzero⟩ := computes_addConstant hs hb ht.lt (.int 0)
  generalize f.addConstant p.ivTy (.int 0) = x at h₁ hzero ⊢
  obtain ⟨zero, f₁⟩ := x
  have hs₁ := h₁.sound
  obtain ⟨h₂, hw⟩ := computes_addConstant hs₁ (h₁.live hb) ht.lt (.int width)
  dsimp only at h₁ hzero hs₁ h₂ hw ⊢
  generalize f₁.addConstant p.ivTy (.int width) = x at h₂ hw ⊢
  obtain ⟨w, f₂⟩ := x
  dsimp only at h₂ hw ⊢
  have hs₂ := h₂.sound
  have h₀₂ := h₁.trans h₂
  obtain ⟨h₃, hentered⟩ := computes_icmp hs₂ (h₀₂.live hb) ht (p.base ++ ".vec.entered")
    (o := .ult) hp.boolTy_eq (h₀₂.usable hs hstart) (h₀₂.usable hs hbound)
  generalize addBefore f₂ _ _ _ _ = x at h₃ hentered ⊢
  obtain ⟨entered, f₃⟩ := x
  dsimp only at h₃ hentered ⊢
  have hs₃ := h₃.sound
  have h₀₃ := h₀₂.trans h₃
  obtain ⟨h₄, hspan⟩ := computes_binary hs₃ (h₀₃.live hb) ht (p.base ++ ".vec.span")
    (o := .sub) rfl (h₀₃.usable hs hbound) (h₀₃.usable hs hstart)
  generalize addBefore f₃ _ _ _ _ = x at h₄ hspan ⊢
  obtain ⟨span, f₄⟩ := x
  dsimp only at h₄ hspan ⊢
  have hs₄ := h₄.sound
  have h₀₄ := h₀₃.trans h₄
  obtain ⟨h₅, htrip⟩ := computes_select hs₄ (h₀₄.live hb) ht (p.base ++ ".vec.trip")
    hp.boolTy_eq (h₄.usable hs₃ hentered) hspan (((h₂.trans h₃).trans h₄).usable hs₁ hzero)
  generalize addBefore f₄ _ _ _ _ = x at h₅ htrip ⊢
  obtain ⟨trip, f₅⟩ := x
  dsimp only at h₅ htrip ⊢
  have hs₅ := h₅.sound
  have h₀₅ := h₀₄.trans h₅
  obtain ⟨h₆, hrem⟩ := computes_binary hs₅ (h₀₅.live hb) ht (p.base ++ ".vec.rem")
    (o := .urem) rfl htrip (((h₃.trans h₄).trans h₅).usable hs₂ hw)
  generalize addBefore f₅ _ _ _ _ = x at h₆ hrem ⊢
  obtain ⟨rem, f₆⟩ := x
  dsimp only at h₆ hrem ⊢
  have hs₆ := h₆.sound
  have h₀₆ := h₀₅.trans h₆
  obtain ⟨h₇, hmain⟩ := computes_binary hs₆ (h₀₆.live hb) ht (p.base ++ ".vec.main")
    (o := .sub) rfl (h₆.usable hs₅ htrip) hrem
  generalize addBefore f₆ _ _ _ _ = x at h₇ hmain ⊢
  obtain ⟨main, f₇⟩ := x
  dsimp only at h₇ hmain ⊢
  have h₀₇ := h₀₆.trans h₇
  obtain ⟨h₈, hend⟩ := computes_binary h₇.sound (h₀₇.live hb) ht (p.base ++ ".vec.end")
    (o := .add) rfl (h₀₇.usable hs hstart) hmain
  exact ⟨h₀₇.trans h₈, hend⟩

theorem computes_emitEnd (hs : f.Sound tt) (hp : Planned tt f l p) (width : Int64) :
    Computes tt p.loop.preheader f (emitEnd f p width) p.ivTy := by
  unfold emitEnd
  split
  · exact computes_addConstant hs hp.edge_preheader.1 (hp.operandTy_eq hs).1.lt _
  · exact computes_computeEnd hs hp width

/-! ## The loop after that -/

end Vectorize

section

variable (hi : Inserts ph f g) (hf : f.Framed)

include hi

theorem Func.Inserts.intLiteral?_eq {v : Operand} {n : Int64} (h : f.intLiteral? v = some n) :
    g.intLiteral? v = some n := by
  cases v with
  | const c =>
    simp only [intLiteral?, literal?] at h ⊢
    cases hc : f.constants[c]? with
    | none => simp [hc] at h
    | some x =>
      rw [hc] at h
      rw [hi.constant_eq c x hc]
      exact h
  | _ => cases h

theorem Func.Inserts.addedConstant?_eq {iv : Operand} {i : InstId} {s : Int64}
    (hlt : i < f.insts.size) (h : CountedLoop.addedConstant? f iv i = some s) :
    CountedLoop.addedConstant? g iv i = some s := by
  unfold CountedLoop.addedConstant? at h ⊢
  rw [hi.op_eq hlt]
  split at h
  · split at h
    · rename_i heq
      rw [if_pos heq]
      exact hi.intLiteral?_eq h
    · split at h
      · rename_i hne heq
        rw [if_neg hne, if_pos heq]
        exact hi.intLiteral?_eq h
      · cases h
  · cases h

theorem Func.Inserts.incoming?_eq {i : InstId} (hlt : i < f.insts.size) (b : BlockId) :
    g.incoming? i b = f.incoming? i b := by
  unfold incoming?
  rw [hi.op_eq hlt]

include hf

theorem Func.Inserts.invariant {v : Operand} (h : l.Invariant f v) : l.Invariant g v := by
  cases v with
  | inst j =>
    obtain ⟨d, hd, hout, hdom⟩ := h
    refine ⟨d, (hi.owner_eq (owner_lt hd)).trans hd, hout, ?_⟩
    rw [hi.ofFunc_eq hf]
    exact hdom
  | _ => trivial

theorem Func.Inserts.singleEntry (h : f.SingleEntry) : g.SingleEntry := by
  intro l hl b hb hne a ha
  rw [hi.ofFunc_eq hf] at hl
  rw [hi.predecessors_eq hf] at ha
  exact h l hl b hb hne a ha

/-- A counted loop stays one when code is added. -/
theorem CountedLoop.IsCounted.inserts {c : CountedLoop} (hl : IsLoop (.ofFunc f) l)
    (hc : c.IsCounted f l) : c.IsCounted g l := by
  have hheader : l.header ∈ f.layout := live_of_mem hl hl.header_mem
  have hph : c.preheader ∈ f.layout := ((f.mem_predecessors _ _).mp hc.preheader_mem).1
  have hind : c.induction < f.insts.size := by
    have hmem : c.induction ∈ f.phis l.header := hc.phis_eq ▸ List.mem_singleton.mpr rfl
    exact hf.inst_lt hheader (mem_body_of_phis hmem)
  have hcond := owner_lt hc.cond_owner
  have hnext := owner_lt hc.next_owner
  refine ⟨hc.header_eq, hc.preheader_out, ?_, ?_, ?_, hc.latches_eq, ?_, ?_, ?_, hc.bodyEntry_mem,
    hc.exit_out, ?_, ?_, ?_, hi.invariant hf hc.start_inv, ?_, ?_, hi.invariant hf hc.bound_inv, ?_,
    ?_, hc.step_pos, hc.body_eq⟩
  · rw [hi.predecessors_eq hf]
    exact hc.preheader_mem
  · rw [hi.predecessors_eq hf]
    exact hc.eq_preheader
  · rw [hi.successors_eq hf hph]
    exact hc.preheader_succ
  · rw [← hc.exiting_eq]
    unfold NaturalLoop.exitingBlocks
    exact List.filter_congr fun b hb => by rw [hi.successors_eq hf (live_of_mem hl hb)]
  · rw [hi.predecessors_eq hf]
    exact hc.exit_pred
  · obtain ⟨t, ht, hop⟩ := hc.exitBranch
    refine ⟨t, (hi.terminator?_eq hf hheader).trans ht, ?_⟩
    rw [hi.op_eq (hf.inst_lt hheader (mem_body_of_terminator ht).1)]
    exact hop
  · rw [hi.phis_eq hf hheader]
    exact hc.phis_eq
  · rw [hi.incoming?_eq hind]
    exact hc.start_eq
  · rw [hi.incoming?_eq hind]
    exact hc.next_eq
  · rw [hi.op_eq hcond]
    exact hc.cond_op
  · rw [hi.owner_eq hcond]
    exact hc.cond_owner
  · exact hi.addedConstant?_eq hnext hc.next_op
  · rw [hi.owner_eq hnext]
    exact hc.next_owner

end

namespace Vectorize

/-- Code in the preheader does not change the shape of the loop. -/
theorem Shape.inserts (hi : Inserts p.loop.preheader f g) (hf : f.Framed) (hp : Shape f l p) :
    Shape g l p := by
  have hbody {b : BlockId} (hb : b ∈ l.blocks) : g.body b = f.body b :=
    hi.body_eq b fun heq => hp.counted.preheader_out (heq ▸ hb)
  have hexit : p.loop.exit ∈ f.layout :=
    hf.successor_live _ hp.header_live _ ((CountedLoop.header_successors hp.counted).mpr (.inr rfl))
  constructor
  case isLoop => exact hi.ofFunc_eq hf ▸ hp.isLoop
  case counted => exact hp.counted.inserts hi hf hp.isLoop
  case header_body =>
    rw [hbody hp.isLoop.header_mem]
    exact hp.header_body
  case latch_body =>
    rw [hbody (CountedLoop.latch_mem hp.isLoop hp.counted)]
    exact hp.latch_body
  case single => exact hp.single
  case exit_phis =>
    rw [hi.phis_eq hf hexit]
    exact hp.exit_phis
  case unmarked =>
    rw [hi.vectorized_eq]
    exact hp.unmarked

namespace Prepares

variable (h : Prepares tt p.loop.preheader f g) (hs : f.Sound tt)

include h hs

/-- The new code uses nothing of the loop, since the loop does not dominate its preheader. -/
theorem not_mem_operands (hp : Planned tt f l p) {b : BlockId} (hb : b ∈ l.blocks) {i u : InstId}
    (hi : i ∈ g.body b) (hu : u ∈ g.body p.loop.preheader) (hnew : ¬ u < f.insts.size) :
    Operand.inst i ∉ (g.op u).operands := by
  intro hmem
  have hf := hs.wellFormed
  obtain ⟨hph, he⟩ := hp.edge_preheader
  obtain ⟨_, _, hphi, _⟩ := h.inserts.eq_of_not_lt hf.framed hph hu hnew
  have hr := CountedLoop.preheader_reachable hf.entry_predecessors hp.isLoop hp.counted
  have hblive : b ∈ g.layout := h.live (CountedLoop.live_of_mem hp.isLoop hb)
  have hg := h.inserts.ofFunc_eq hf.framed
  obtain ⟨d, hd, hdom, _⟩ := h.sound.wellFormed.use_dominated _ (h.live hph) (hg ▸ hr) u hu hphi i hmem
  rw [h.sound.wellFormed.owner_eq b hblive i hi] at hd
  cases hd
  have hne : b ≠ p.loop.preheader := fun heq => hp.counted.preheader_out (heq ▸ hb)
  have hdom' := (hp.isLoop.dominates hb).trans (hg ▸ hdom hne)
  exact hp.counted.preheader_out (hp.isLoop.latch_mem ((hp.isLoop.mem_latches _).mpr ⟨he, hr, hdom'⟩))

theorem planned (hp : Planned tt f l p) : Planned tt g l p := by
  have hf := hs.wellFormed
  have hi := h.inserts
  refine ⟨hp.toShape.inserts hi hf.framed, fun b hb i hib c hc hout u hu hmem => ?_, ?_,
    hp.boolTy_eq, hp.voidTy_eq⟩
  · have hblive := CountedLoop.live_of_mem hp.isLoop hb
    have hibf : i ∈ f.body b := by
      rwa [hi.body_eq _ fun heq => hp.counted.preheader_out (heq ▸ hb)] at hib
    rw [hi.layout_eq] at hc
    by_cases hlt : u < f.insts.size
    · rw [hi.op_eq hlt] at hmem
      exact hp.uses b hb i hibf c hc hout u (hi.mem_body_of_lt hf.framed hc hu hlt) hmem
    · obtain ⟨rfl, _⟩ := hi.eq_of_not_lt hf.framed hc hu hlt
      exact h.not_mem_operands hs hp hb hib hu hlt hmem
  · rw [hp.ivTy_eq, Typing.tyOf_of_operandTy (hp.operandTy_eq hs).2.1,
      Typing.tyOf_of_operandTy (hi.keepsTypes.operandTy_eq _ _ (hp.operandTy_eq hs).2.1)]

theorem guarded (hguard : f.Guarded tt) : g.Guarded tt := by
  have hf := hs.wellFormed
  have hi := h.inserts
  intro l hl hmark b hb hsucc i hib
  rw [hi.ofFunc_eq hf.framed] at hl
  rw [hi.vectorized_eq] at hmark
  rw [hi.successors_eq hf.framed (CountedLoop.live_of_mem hl hl.header_mem)] at hsucc
  have hblive := CountedLoop.live_of_mem hl hb
  by_cases hlt : i < f.insts.size
  · have hold := hi.mem_body_of_lt hf.framed hblive hib hlt
    obtain ⟨hty, hops⟩ := hguard l hl hmark b hb hsucc i hold
    rw [hi.op_eq hlt, hi.inst_eq i hlt]
    refine ⟨hty, fun v hv => ?_⟩
    obtain ⟨t, ht⟩ := operandTy_of_exists (hf.operand_exists b hblive i hold v hv)
    rw [Typing.tyOf_of_operandTy (hi.keepsTypes.operandTy_eq v t ht), ← Typing.tyOf_of_operandTy ht]
    exact hops v hv
  · obtain ⟨_, hlt', _⟩ := hi.eq_of_not_lt hf.framed hblive hib hlt
    obtain ⟨hty, hops⟩ := h.scalar i (Nat.le_of_not_lt hlt) hlt'
    refine ⟨hty, fun v hv => ?_⟩
    obtain ⟨t, ht, hno⟩ := hops v hv
    rw [Typing.tyOf_of_operandTy ht]
    exact hno

theorem singleEntry (hsingle : f.SingleEntry) : g.SingleEntry :=
  h.inserts.singleEntry hs.wellFormed.framed hsingle

end Prepares

end Vectorize

end LoopNest
