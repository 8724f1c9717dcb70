import LoopNest.Proofs.Vectorize.Round

/-!
# Visits of blocks in both functions

The old function and the one with the vector loop visit the kept blocks side by side
(`Round.visit_kept`).  At the end of the preheader the new one knows where its loop ends
(`Round.visit_preheader`).
-/

namespace LoopNest

open Func FlowGraph

/-- Another target is taken instead. -/
theorem Leaves.retarget {value : Operand → Option Datum} {op : Op} {x a b : BlockId}
    (h : Leaves value op (.goto x)) :
    Leaves value (op.retarget a b) (.goto (if x = a then b else x)) := by
  generalize hn : Next.goto x = y at h
  cases h with
  | br =>
    cases hn
    exact .br
  | @condBr c t e taken hc =>
    cases hn
    have := Leaves.condBr (t := if t = a then b else t) (e := if e = a then b else e) hc
    cases taken <;> exact this
  | _ => cases hn

namespace Vectorize

namespace Round

variable {tt : TypeTable} {config : VectorConfig} {args : List Datum} {l : NaturalLoop}
  {p : VectorPlan} {n : VectorLoop} {T : LaneShapes} {f g : Func} {b c d : BlockId} {i j : InstId}
  {v : Operand} {u : TyId} {q q' : Option BlockId} {s s' t : Snapshot} {δ : List Chunk} {x : Next}
  (r : Round tt config args l p n T f g)

include r

/-- Kept blocks other than the preheader are visited side by side. -/
theorem visit_kept (hb : Kept l n (ended config f p) b) (hne : b ≠ p.loop.preheader)
    (hr : (ofFunc f).Reachable b) (hv : Visit tt f args q b s δ s' x)
    (hag : s.values.Agree (Current f l b) t.values)
    (hphi : ∀ i ∈ f.phis b, phiValue tt g args q' t.values i = phiValue tt f args q s.values i)
    (hrs : s.regions = t.regions) :
    ∃ t', Visit tt g args q' b t δ t' x ∧
      s'.values.Agree (fun j => Current f l b j ∨ j ∈ f.phis b ∨ j ∈ f.code b) t'.values ∧
      s'.regions = t'.regions := by
  obtain ⟨t', hv', hag', hrs'⟩ := hv.lockstep (R := fun _ => True) (P := fun _ => True)
    (r.sameCode hb hne) (r.readsFrom (r.live_of_kept hb) hr) hag hphi
    (fun _ _ _ _ _ _ _ _ => trivial) trivial (fun _ _ _ _ _ _ _ _ => trivial) (hrs ▸ .refl _ _)
    fun i value hi hl => r.leaves hb hne hi hl
  exact ⟨t', hv', hag', hrs'.eq fun _ => trivial⟩

omit r in
/-- What is computed before the loop has the same value, if what is current has. -/
theorem value_of_before (hv : Before f l p v) {ρ σ : Values} (hag : ρ.Agree (Current f l b) σ) :
    f.value tt args ρ v = f.value tt args σ v := by
  refine hag.value fun j hj => ?_
  obtain ⟨d, _, hlive, hout, hmem, _⟩ := hv j hj
  exact .inl ⟨d, hlive, hout, hmem⟩

/-! ## The preheader -/

/-- The induction value has 64 bits. -/
theorem scalar_ivTy : ∃ s, tt.shape p.ivTy = .scalar s ∧ s.isInteger = true ∧ s.width = 8 := by
  rw [r.planned.ivTy_eq]
  exact r.laned.scalar_iv

section

variable {new : List InstId} {last : InstId} (hlast : f.terminator? p.loop.preheader = some last)
  (hbody : (ended config f p).body p.loop.preheader =
    f.phis p.loop.preheader ++ f.code p.loop.preheader ++ new ++ [last])

include hlast hbody

/-- The code for the end is new, and plain. -/
theorem plain_of_end : ∀ i ∈ new, f.insts.size ≤ i ∧ i < (ended config f p).insts.size ∧
    ((ended config f p).op i).isPhi = false ∧ ((ended config f p).op i).isTerminator = false := by
  obtain ⟨front, new', last', hfront, hbody', _, _, hall⟩ := r.prepares.inserts.inserted
  rw [r.wellFormed.body_eq_parts r.listedOnce r.planned.edge_preheader.1 hlast,
    ← List.append_assoc] at hfront
  obtain ⟨rfl, hsingle⟩ := List.append_inj' hfront rfl
  rw [List.singleton_inj.mp hsingle, hbody'] at hbody
  rwa [← List.append_cancel_left (List.append_cancel_right hbody)]

omit r hlast in
theorem mem_body_of_end (hi : i ∈ new) : i ∈ (ended config f p).body p.loop.preheader := by
  rw [hbody]
  exact List.mem_append_left _ (List.mem_append_right _ hi)

/-- The vector loop leaves the code for the end as it is. -/
theorem op_of_end (hi : i ∈ new) : g.op i = (ended config f p).op i := by
  obtain ⟨hle, _, _, hplain⟩ := r.plain_of_end hlast hbody i hi
  refine r.splicing.op_eq _ r.splicing.kept_preheader i (mem_body_of_end hbody hi) (fun hit => ?_)
    fun heq => ?_
  · rw [(mem_body_of_terminator hit).2] at hplain
    cases hplain
  · exact Nat.not_lt.mpr hle (heq ▸ r.inst_lt r.planned.header_live r.planned.mem_header.1)

theorem parts_preheader : g.phis p.loop.preheader = f.phis p.loop.preheader ∧
    g.code p.loop.preheader = f.code p.loop.preheader ++ new := by
  have hlive : p.loop.preheader ∈ f.layout := r.planned.edge_preheader.1
  have hkept := r.splicing.kept_preheader
  obtain ⟨hmem, hterm⟩ := mem_body_of_terminator hlast
  have hbody_new : g.body p.loop.preheader =
      f.phis p.loop.preheader ++ (f.code p.loop.preheader ++ new ++ [last]) := by
    rw [r.splicing.body_eq _ hkept, hbody, List.append_assoc, List.append_assoc, List.append_assoc]
  obtain ⟨hphis, hcode, _⟩ := parts_of_body hbody_new
    (fun i hi => (r.kinds hkept (mem_body_of_phis hi)).1.trans (isPhi_of_mem_phis hi))
    (fun i hi => by
      rcases List.mem_append.mp hi with hi | hi
      · obtain ⟨hphi, hterm⟩ := r.kinds hkept (mem_body_of_code hi)
        exact ⟨hphi.trans (r.wellFormed.not_isPhi_of_code hlive hi),
          hterm.trans (not_isTerminator_of_code hi)⟩
      · rw [r.op_of_end hlast hbody hi]
        exact (r.plain_of_end hlast hbody i hi).2.2)
    ((r.kinds hkept hmem).2.trans hterm)
  exact ⟨hphis, hcode⟩

end

/-- The code for the end runs after the old code of the preheader. -/
theorem preheader_code : ∃ new, g.phis p.loop.preheader = f.phis p.loop.preheader ∧
    g.code p.loop.preheader = f.code p.loop.preheader ++ new ∧
    ∀ (ρ : Values) (rs : Array Region) (x y : Int64),
      f.value tt args ρ p.loop.start = some (.int x) →
      f.value tt args ρ p.loop.bound = some (.int y) →
      ∃ σ e, Straight tt g args new ⟨ρ, rs⟩ [] ⟨σ, rs⟩ ∧ (∀ j < f.insts.size, σ j = ρ j) ∧
        g.value tt args σ n.stop = some (.int e) ∧ Ends config.width (!p.epilogue) x y e := by
  have hlive : p.loop.preheader ∈ f.layout := r.planned.edge_preheader.1
  obtain ⟨last, hlast⟩ := r.wellFormed.ends _ hlive
  obtain ⟨hmem, hterm⟩ := mem_body_of_terminator hlast
  obtain ⟨_, _, hbound, hincoming, _⟩ := r.planned.operandTy_eq r.sound
  obtain ⟨incoming, hop, hstart, _⟩ := r.planned.incoming_eq
  have hstart := hincoming incoming hop _ (List.mem_map_of_mem hstart)
  obtain ⟨s, hshape, hint, hwidth⟩ := r.scalar_ivTy
  have hends : EndsIn f p.loop.preheader (f.phis p.loop.preheader ++ f.code p.loop.preheader) last :=
    ⟨by rw [r.wellFormed.body_eq_parts r.listedOnce hlive hlast, List.append_assoc], hterm,
      lt_blocks_size hmem, r.inst_lt hlive hmem⟩
  obtain ⟨new, hbody, hrun⟩ := straight_emitEnd (TypeTable.elementScalar_of_scalar hshape) hint hwidth
    r.width_pos (Nat.lt_trans r.width_lt (by decide)) r.tight.step_eq hstart hbound hends r.end_eq
  obtain ⟨hphis, hcode⟩ := r.parts_preheader hlast hbody
  refine ⟨new, hphis, hcode, fun ρ rs x y hx hy => ?_⟩
  obtain ⟨σ, e, hst, hold, he, hends⟩ := hrun args ρ rs x y hx hy
  have htyped : ∀ i ∈ new, ∀ v ∈ ((ended config f p).op i).operands,
      ∃ u, (ended config f p).operandTy v = .ok u := fun i hi v hv =>
    operandTy_of_exists (r.splicing.sound.wellFormed.operand_exists _ (r.prepares.live hlive) i
      (mem_body_of_end hbody hi) v hv)
  refine ⟨σ, e, hst.congr (fun i hi => ⟨r.op_of_end hlast hbody hi,
    r.splicing.ty_eq i (r.plain_of_end hlast hbody i hi).2.1⟩)
    (fun i hi v hv => ?_) (fun i hi v hv ρ => ?_), hold, ?_, hends⟩
  · obtain ⟨u, hu⟩ := htyped i hi v hv
    rw [Typing.tyOf_of_operandTy hu,
      Typing.tyOf_of_operandTy (r.splicing.keepsTypes.operandTy_eq _ _ hu)]
  · obtain ⟨u, hu⟩ := htyped i hi v hv
    exact value_of_operandTy r.splicing.constant_eq hu args ρ
  · rw [value_of_operandTy r.splicing.constant_eq r.splicing.stop_usable.operandTy_eq, r.stop_eq]
    exact he

/-- The branch of the preheader leads to the new header. -/
theorem leaves_preheader {value : Operand → Option Datum} (hi : f.terminator? p.loop.preheader = some i)
    (hl : Leaves value (f.op i) (.goto l.header)) : Leaves value (g.op i) (.goto n.blocks.header) := by
  have hlive : p.loop.preheader ∈ f.layout := r.planned.edge_preheader.1
  have hop : g.op i = (f.op i).retarget l.header n.blocks.header := by
    rw [r.splicing.preheader_op i (by
      rw [r.prepares.inserts.terminator?_eq r.wellFormed.framed hlive]
      exact hi), r.prepares.inserts.op_eq (r.inst_lt hlive (mem_body_of_terminator hi).1)]
  have hnext := hl.retarget (a := l.header) (b := n.blocks.header)
  rwa [if_pos rfl, ← hop] at hnext

/-- In the new function the preheader leads to the vector loop, with the end of it. -/
theorem visit_preheader {c : BlockId} {x y : Int64}
    (hv : Visit tt f args q p.loop.preheader s δ s' (.goto c))
    (hag : s.values.Agree (Current f l p.loop.preheader) t.values)
    (hphi : ∀ i ∈ f.phis p.loop.preheader,
      phiValue tt g args q' t.values i = phiValue tt f args q s.values i)
    (hrs : s.regions = t.regions) (hx : f.value tt args s'.values p.loop.start = some (.int x))
    (hy : f.value tt args s'.values p.loop.bound = some (.int y)) :
    ∃ t' e, Visit tt g args q' p.loop.preheader t δ t' (.goto n.blocks.header) ∧
      s'.values.Agree (Current f l l.header) t'.values ∧ s'.regions = t'.regions ∧
      phiValue tt g args (some p.loop.preheader) t'.values n.iv = some (.int x) ∧
      g.value tt args t'.values n.stop = some (.int e) ∧
      Ends config.width (!p.epilogue) x y e := by
  have hlive : p.loop.preheader ∈ f.layout := r.planned.edge_preheader.1
  have hkept := r.splicing.kept_preheader
  have hr := CountedLoop.preheader_reachable r.wellFormed.entry_predecessors r.isLoop r.counted
  obtain ⟨new, hphis, hcode, hnew⟩ := r.preheader_code
  obtain ⟨t₁, hready, hst, hag₁, hrs₁⟩ := hv.lockstep_code (R := fun _ => True)
    (P := fun _ => True) hphis (fun i hi => r.inst_code hkept hi)
    (fun i hi v hv => r.tyOf_of_mem hlive (mem_body_of_code hi) hv)
    (fun i hi v hv => r.value_of_mem hlive (mem_body_of_code hi) hv args)
    (r.readsFrom hlive hr) hag hphi (fun _ _ _ _ _ _ _ _ => trivial) trivial
    (fun _ _ _ _ _ _ _ _ => trivial) (hrs ▸ .refl _ _)
  have hcur : s'.values.Agree (Current f l p.loop.preheader) t₁.values := fun j hj => hag₁ j (.inl hj)
  have hstart := r.planned.before r.wellFormed (r.planned.usable_start r.sound)
  have hbound := r.planned.before r.wellFormed (r.planned.usable_bound r.sound)
  rw [value_of_before hstart hcur] at hx
  rw [value_of_before hbound hcur] at hy
  obtain ⟨σ, e, hst', hold, he, hends⟩ := hnew t₁.values t₁.regions x y hx hy
  obtain ⟨i, hi, hl⟩ := hv.leaves
  obtain rfl : c = l.header := by
    have hs := hv.mem_successors
    rwa [r.counted.preheader_succ, List.mem_singleton] at hs
  have hlt {j} (hj : ∃ d ∈ f.layout, j ∈ f.body d) : σ j = t₁.values j := by
    obtain ⟨d, hd, hjd⟩ := hj
    exact hold j (r.inst_lt hd hjd)
  refine ⟨⟨σ, t₁.regions⟩, e, ⟨hready, ?_, i, (r.terminator?_eq hkept).trans hi, ?_⟩,
    fun j hj => ?_, hrs₁.eq fun _ => trivial, ?_, he, hends⟩
  · rw [hcode]
    have := hst.append hst'
    rwa [List.append_nil] at this
  · refine r.leaves_preheader hi (hl.congr fun v hv => ?_)
    have hmem := (mem_body_of_terminator hi).1
    rw [r.value_of_mem hlive hmem hv,
      hag₁.value fun j hj => (r.readsFrom hlive hr).terminator i hi j (hj ▸ hv)]
    cases v with
    | inst j => exact hlt (r.exists_listed hlive hmem hv)
    | _ => rfl
  · obtain ⟨d, hd, hout, hjd⟩ := r.current_header hj
    rw [hcur j (.inl ⟨d, hd, hout, hjd⟩)]
    exact (hlt ⟨d, hd, hjd⟩).symm
  · have hinc : g.incoming? n.iv p.loop.preheader = some p.loop.start := by
      simp [incoming?, r.splicing.newLoop.iv.op_eq]
    rw [phiValue, Option.bind_some, hinc, Option.bind_some,
      r.value_eq (r.planned.usable_start r.sound).operandTy_eq, ← hx]
    cases hv : p.loop.start with
    | inst j =>
      obtain ⟨d, _, hd, _, hjd, _⟩ := hstart j hv
      exact hlt ⟨d, hd, hjd⟩
    | _ => rfl

/-! ## The vector loop -/

/-- What stands in the vector loop stands in no kept block. -/
theorem not_mem_new (hd : Kept l n (ended config f p) d) (hj : g.owner j = some d)
    (hb : b ∈ [n.blocks.header, n.blocks.body, n.blocks.latch]) : j ∉ g.body b := fun hmem => by
  rw [r.splicing.newLoop.owner_of_mem hb hmem] at hj
  cases hj
  exact r.splicing.not_mem_of_kept hd (by simp [VectorBlocks.all] at hb ⊢; tauto)

/-- Where the vector loop ends is not computed there. -/
theorem stop_ne (hb : b ∈ [n.blocks.header, n.blocks.body, n.blocks.latch]) (hj : j ∈ g.body b) :
    n.stop ≠ .inst j := fun heq => by
  obtain ⟨d, hd, hown, _⟩ := r.splicing.kept_of_before r.splicing.before_stop heq
  exact r.not_mem_new hd hown hb hj

theorem value_stop {ρ σ : Values} (h : ∀ j, (∀ b ∈ [n.blocks.header, n.blocks.body, n.blocks.latch],
    j ∉ g.body b) → σ j = ρ j) : g.value tt args σ n.stop = g.value tt args ρ n.stop := by
  cases hv : n.stop with
  | inst j => exact h j fun b hb hj => r.stop_ne hb hj hv
  | _ => rfl

/-- The new header compares the induction value with the end. -/
theorem visit_header {x e : Int64} (hx : phiValue tt g args q' t.values n.iv = some (.int x))
    (he : g.value tt args t.values n.stop = some (.int e)) :
    Visit tt g args q' n.blocks.header t []
      ⟨(t.values.set n.iv (.int x)).set n.cond
        (.bool (decide (x.toUInt64.toNat < e.toUInt64.toNat))), t.regions⟩
      (.goto (if x.toUInt64.toNat < e.toUInt64.toNat then n.blocks.body
        else n.blocks.middle.getD p.loop.exit)) := by
  have hnew := r.splicing.newLoop
  obtain ⟨s, hshape, hint, hwidth⟩ := r.scalar_ivTy
  obtain ⟨hphis, hcode, hterm⟩ := parts_of_body
    (show g.body n.blocks.header = [n.iv] ++ ([n.cond] ++ [n.branch]) from hnew.header_body)
    (by simp [hnew.iv.op_eq, Op.isPhi]) (by simp [hnew.cond.op_eq, Op.isPhi, Op.isTerminator])
    (by rw [hnew.branch.op_eq]; rfl)
  have hiv : n.iv ∈ g.body n.blocks.header := by simp [hnew.header_body]
  have hstop : g.value tt args (t.values.set n.iv (.int x)) n.stop = some (.int e) := by
    rw [← he]
    exact r.value_stop fun j hj => Values.set_of_ne fun heq => hj _ (by simp) (heq ▸ hiv)
  refine ⟨fun i hi => ?_, ?_, n.branch, hterm, ?_⟩
  · rw [hphis, List.mem_singleton] at hi
    rw [hi, hx]
    rfl
  · rw [hcode, entered_of_single hphis hx]
    refine .cons (δ := []) (.pure ?_) .nil
    rw [hnew.cond.op_eq, pureResult_icmp (s := s) ?_ (Values.set_self _ _ _) hstop]
    · simp [IntPredicate.holds, Scalar.lowBits_of_width hint hwidth]
    · rw [Func.tyOf_inst, hnew.iv.ty_eq, TypeTable.elementScalar_of_scalar hshape]
  · rw [hnew.branch.op_eq]
    have hcond (ρ : Values) (taken : Bool) : Leaves (g.value tt args (ρ.set n.cond (.bool taken)))
        (.condBr (.inst n.cond) n.blocks.body (n.blocks.middle.getD p.loop.exit))
        (.goto (if taken then n.blocks.body else n.blocks.middle.getD p.loop.exit)) :=
      .condBr (Values.set_self _ _ _)
    simpa using hcond (t.values.set n.iv (.int x)) (decide (x.toUInt64.toNat < e.toUInt64.toNat))

/-- The new latch counts on by the width. -/
theorem visit_latch {x : Int64} (hx : t.values n.iv = some (.int x)) :
    Visit tt g args q' n.blocks.latch t []
      ⟨t.values.set n.next (.int (x + .ofNat config.width)), t.regions⟩ (.goto n.blocks.header) ∧
    phiValue tt g args (some n.blocks.latch) (t.values.set n.next (.int (x + .ofNat config.width)))
      n.iv = some (.int (x + .ofNat config.width)) := by
  have hnew := r.splicing.newLoop
  obtain ⟨s, hshape, hint, hwidth⟩ := r.scalar_ivTy
  have hel := TypeTable.elementScalar_of_scalar hshape
  obtain ⟨hphis, hcode, hterm⟩ := parts_of_body
    (show g.body n.blocks.latch = [] ++ ([n.next] ++ [n.back]) from hnew.latch_body)
    (fun _ h => by cases h) (by simp [hnew.next.op_eq, Op.isPhi, Op.isTerminator]) (by rw [hnew.back.op_eq]; rfl)
  refine ⟨⟨fun i hi => ?_, ?_, n.back, hterm, ?_⟩, ?_⟩
  · rw [hphis] at hi
    cases hi
  · rw [hcode, entered_of_nil hphis]
    refine .cons (δ := []) (.pure ?_) .nil
    rw [hnew.next.op_eq, hnew.next.ty_eq]
    refine pureResult_binary rfl hel hx (b := .ofNat config.width) ?_ ?_
    · simp [Func.value, Func.constantValue, hnew.step_eq, hel, r.step_eq,
        Scalar.normalize_of_width hint hwidth]
    · rw [BinaryOp.onInt, Scalar.normalize_of_width hint hwidth]
  · rw [hnew.back.op_eq]
    exact .br
  · have hinc : g.incoming? n.iv n.blocks.latch = some (.inst n.next) := by
      have hne : p.loop.preheader ≠ n.blocks.latch := fun heq =>
        r.splicing.not_mem_of_kept r.splicing.kept_preheader (heq ▸ n.latch_mem)
      simp [incoming?, hnew.iv.op_eq, hne]
    rw [phiValue, Option.bind_some, hinc]
    exact Values.set_self _ _ _

/-- The way on to the old loop. -/
theorem visit_middle {m : BlockId} (hm : n.blocks.middle = some m) :
    Visit tt g args q' m t [] t (.goto l.header) := by
  obtain ⟨leave, hterm, hbody, hop⟩ := r.splicing.terminator?_middle hm
  obtain ⟨hphis, hcode, _⟩ := parts_of_body (show g.body m = [] ++ ([] ++ [leave]) from hbody)
    (fun _ h => by cases h) (fun _ h => by cases h) (mem_body_of_terminator hterm).2
  refine ⟨fun i hi => ?_, ?_, leave, hterm, hop ▸ .br⟩
  · rw [hphis] at hi
    cases hi
  · rw [hcode, entered_of_nil hphis]
    exact .nil

/-- The new body does what the old one does in consecutive turns. -/
theorem visit_body {nb : Nat} {made : Origins} {y : Int64} {V : Nat → Values} {X : ChunkTable}
    (hsep : Separate f args nb)
    (hL : Lanes tt (planSite config f l p) args nb made t.regions y config.width V X)
    (hiv : t.values n.iv = some (.int y))
    (hout : ∀ d ∈ f.layout, d ∉ l.blocks → ∀ j ∈ f.body d, t.values j = V 0 j) :
    ∃ δ t', Visit tt g args q' n.blocks.body t δ t' (.goto n.blocks.latch) ∧
      t'.regions = writeChunks t.regions
        (byLap config.width (f.body p.loop.bodyEntry).dropLast X) ∧
      ∀ j ∉ n.code, t'.values j = t.values j := by
  have hnew := r.splicing.newLoop
  have hlow := r.laned.decides.lowersAll
  obtain ⟨k, base, hent, hem⟩ := r.splicing.emission
  have hsrc : Source tt (planSite config f l p) base :=
    source_of_entered r.sound r.planned r.guarded r.prepares hent hem.below
  have htys : ∀ t ∈ base.tys, t < tt.size := fun t ht => (hem.tys t ht).elim
    (hent.forall_mem_tys r.prepares.sound.tys_lt t) (tys_lt_of_lowersAll r.wellFormed.framed
      r.planned.toShape hlow r.sound.tys_lt r.planned.ivTy_eq r.planned.boolTy_eq
      r.planned.voidTy_eq t)
  have hbase (k : Nat) (x : Constant) (hx : (ended config f p).constants[k]? = some x) :
      base.constants[k]? = some x :=
    hem.below.constant_eq k x (hent.constants_eq ▸ hx)
  have hconst : ∀ i ∈ n.code, ∀ k, Operand.const k ∈ (g.op i).operands →
      g.constants[k]? = base.constants[k]? := by
    intro i hi k hk
    rcases r.splicing.made.operands i hi _ hk with ⟨_, heq, _⟩ | ⟨j, hj, hk⟩
    · cases heq
    · rw [hlow.map_fst] at hj
      have hlive := r.laned.accepted.live
      have hjb := r.prepares.inserts.mem_body r.wellFormed.framed hlive (List.dropLast_subset _ hj)
      obtain ⟨u, hu⟩ := operandTy_of_exists
        (r.splicing.sound.wellFormed.operand_exists _ (r.prepares.live hlive) j hjb _ hk)
      simp only [operandTy] at hu
      split at hu
      · rename_i x hx
        rw [r.splicing.constant_eq k x hx, hbase k x hx]
      · cases hu
  obtain ⟨δ, σ, hst⟩ := mimicked_of_emission hem hsrc rfl r.laned hL hsep r.width_pos
    r.width_lt htys r.planned.ivTy_eq hconst hiv fun v hv ht => by
      obtain ⟨u, hu⟩ := ht
      rw [value_of_operandTy (fun k x hx => hbase k x (r.prepares.inserts.constant_eq k x hx)) hu]
      cases v with
      | inst j =>
        obtain ⟨d, hown, hdout, hdom⟩ := hv.invariant
        exact hout d (blocks_ofFunc f ▸ (hdom.reachable r.isLoop.reachable).live) hdout j
          (hv.listed j rfl d hown)
      | _ => rfl
  obtain ⟨hphis, hcode, hterm⟩ := parts_of_body
    (show g.body n.blocks.body = [] ++ (n.code ++ [n.jump]) from hnew.body_body)
    (fun _ h => by cases h) hnew.plain (by rw [hnew.jump.op_eq]; rfl)
  refine ⟨δ, ⟨σ, writeChunks t.regions (byLap config.width (f.body p.loop.bodyEntry).dropLast X)⟩,
    ⟨fun i hi => ?_, ?_, n.jump, hterm, ?_⟩, rfl, fun j hj => ?_⟩
  · rw [hphis] at hi
    cases hi
  · rw [hcode, entered_of_nil hphis]
    exact hst
  · rw [hnew.jump.op_eq]
    exact .br
  · exact hst.values_of_not_mem hj

end Round

end Vectorize

end LoopNest
