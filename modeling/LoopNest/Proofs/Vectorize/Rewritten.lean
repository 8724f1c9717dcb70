import LoopNest.Proofs.Vectorize.Innermost

/-!
# Vectorizing one loop

A loop is vectorized in two steps: code is put into the preheader, and the vector loop is put in.
`Rewritten` is what comes of them for the other innermost loops, whatever the types are
(`rewritten_apply`).  The function stays in order, the code of the other loops stays
(`Rewritten.sameCode`), and a loop that the vectorized one does not dominate is left alone
(`Rewritten.untouched`).  Every new innermost loop is marked (`Rewritten.innermost_cases`), so the
pass runs out of loops.
-/

namespace LoopNest

open Func FlowGraph

variable {f g : Func} {l k : NaturalLoop} {p : VectorPlan} {n : VectorLoop} {ph b : BlockId}
  {i : InstId}

theorem Op.nodup_targets {o : Op} (h : o.isTerminator = false) : o.targets.Nodup := by
  cases o <;> first | exact List.nodup_nil | cases h

namespace Func

theorem DistinctTargets.inserts (hd : f.DistinctTargets) (hi : Inserts ph f g) (hf : f.Framed) :
    g.DistinctTargets := by
  intro b hb i hib
  rw [hi.layout_eq] at hb
  by_cases hlt : i < f.insts.size
  · rw [hi.op_eq hlt]
    exact hd b hb i (hi.mem_body_of_lt hf hb hib hlt)
  · obtain ⟨_, _, _, hterm⟩ := hi.eq_of_not_lt hf hb hib hlt
    exact Op.nodup_targets hterm

end Func

theorem CountedLoop.Tight.inserts {c : CountedLoop} (ht : c.Tight f l)
    (hi : Inserts c.preheader f g) (hf : f.Framed) : c.Tight g l := by
  have hbody {b : BlockId} (hb : b ∈ l.blocks) : g.body b = f.body b :=
    hi.body_eq b fun heq => ht.counted.preheader_out (heq ▸ hb)
  have hsuccessors {b : BlockId} (hb : b ∈ l.blocks) : g.successors b = f.successors b :=
    hi.successors_eq hf (live_of_mem ht.isLoop hb)
  have hentry := ht.counted.bodyEntry_mem
  have hlatch := latch_mem ht.isLoop ht.counted
  constructor
  case isLoop => exact hi.ofFunc_eq hf ▸ ht.isLoop
  case counted => exact ht.counted.inserts hi hf ht.isLoop
  case step_eq => exact ht.step_eq
  case header_body => exact hbody ht.isLoop.header_mem ▸ ht.header_body
  case latch_body => exact hbody hlatch ▸ ht.latch_body
  case mem_blocks => exact ht.mem_blocks
  case bodyEntry_ne_latch => exact ht.bodyEntry_ne_latch
  case bodyEntry_successor => exact hsuccessors hentry ▸ ht.bodyEntry_successor
  case latch_successor => exact hsuccessors hlatch ▸ ht.latch_successor
  case plain =>
    intro i hi'
    rw [hbody hentry] at hi'
    rw [hi.op_eq (hf.inst_lt (live_of_mem ht.isLoop hentry) hi')]
    exact ht.plain i hi'

namespace Vectorize

/-! ## Branches -/

theorem Splicing.distinctTargets (h : Splicing l p n f g) (hd : f.DistinctTargets) :
    g.DistinctTargets := by
  intro b hb i hi
  cases h.member hb hi with
  | kept hb hi =>
    have hold := hd b hb.1 i hi
    rcases h.op_cases hb hi with ⟨_, heq⟩ | ⟨rfl, ht, heq⟩ | ⟨_, _, _, _, _, _, heq⟩
    · exact heq ▸ hold
    · -- The preheader leads to the header only, so it has no second target.
      have htargets (x : BlockId) (hx : x ∈ (f.op i).targets) : x = l.header := by
        rw [← mem_successors_iff ht, h.counted.preheader_succ] at hx
        exact List.mem_singleton.mp hx
      rw [heq]
      cases hop : f.op i with
      | condBr c x y =>
        rw [hop] at htargets hold
        rw [htargets x (by simp [Op.targets]), htargets y (by simp [Op.targets])] at hold
        simp [Op.targets] at hold
      | _ => simp [Op.retarget, Op.targets]
    · exact heq ▸ List.nodup_nil
  | iv => exact h.newLoop.iv.op_eq ▸ List.nodup_nil
  | cond => exact h.newLoop.cond.op_eq ▸ List.nodup_nil
  | branch =>
    obtain ⟨_, _, _, hmiddle⟩ := h.ne_blocks
    have hne : n.blocks.body ≠ n.blocks.middle.getD p.loop.exit := by
      cases hm : n.blocks.middle with
      | none =>
        intro heq
        have heq : n.blocks.body = p.loop.exit := heq
        exact h.not_mem_of_live h.exit_live (heq ▸ n.body_mem)
      | some m => exact (hmiddle m hm).2.1.symm
    simp [h.newLoop.branch.op_eq, Op.targets, hne]
  | code hi => exact Op.nodup_targets (h.newLoop.plain i hi).2
  | jump => exact h.newLoop.jump.op_eq ▸ List.nodup_singleton _
  | next => exact h.newLoop.next.op_eq ▸ List.nodup_nil
  | back => exact h.newLoop.back.op_eq ▸ List.nodup_singleton _
  | leave _ _ hleave => exact hleave.op_eq ▸ List.nodup_singleton _

/-! ## What the plan says -/

variable {config : VectorConfig} {tt tt' : TypeTable}

/-- The end of the vector loop was found from the trip count. -/
theorem vectorEnd_of_plan {dom : DomTree}
    (h : plan config f (.ofFunc f) dom l tt = (.ok p, tt')) :
    vectorEnd ⟨f, dom, l, p.loop, config⟩ tt = .ok (p.stop, p.epilogue) := by
  unfold plan at h
  split at h
  · exact (reject_eq_ok.mp h).elim
  cases hrec : CountedLoop.recognize f (.ofFunc f) dom l with
  | error e => simp only [hrec, reject_eq_ok] at h
  | ok loop =>
    simp only [hrec] at h
    obtain ⟨_, _, hstep, h⟩ := bind_eq_ok.mp h
    obtain ⟨_, rfl⟩ := ofExcept_eq_ok.mp hstep
    obtain ⟨_, _, hstep, h⟩ := bind_eq_ok.mp h
    obtain ⟨rfl, rfl⟩ := types_eq_ok.mp hstep
    obtain ⟨⟨stop, epilogue⟩, _, hstep, h⟩ := bind_eq_ok.mp h
    obtain ⟨hend, rfl⟩ := ofExcept_eq_ok.mp hstep
    obtain ⟨_, _, _, h⟩ := bind_eq_ok.mp h
    obtain ⟨_, _, _, h⟩ := bind_eq_ok.mp h
    obtain ⟨_, _, _, h⟩ := bind_eq_ok.mp h
    obtain ⟨_, _, _, h⟩ := bind_eq_ok.mp h
    obtain ⟨rfl, _⟩ := pure_eq_ok.mp h
    exact hend

/-- Only between constants nothing is left over. -/
theorem bound_ne_of_vectorEnd {c : Context} {stop : VectorEnd}
    (h : vectorEnd c tt = .ok (stop, false)) (i : InstId) : c.loop.bound ≠ .inst i := by
  intro heq
  have hnone : c.func.intLiteral? c.loop.bound = none := by rw [heq]; rfl
  have hcount (k : Nat) :
      c.loop.tripCount? tt c.func c.dom c.natural ≠ some (.constant k) := by
    unfold CountedLoop.tripCount?
    rw [hnone]
    split
    · exact fun _ => by cases ‹none = some _›
    · split <;> exact nofun
  unfold vectorEnd at h
  dsimp only at h
  split at h
  · exact hcount _ ‹_›
  · simp at h
  · cases h

/-! ## The whole step -/

/-- The innermost loops are marked ones and innermost loops from before. -/
theorem Splicing.marked_cases (h : Splicing l p n f g) (hl : Innermost (ofFunc f) l)
    (hk : k ∈ innermostLoops (ofFunc g)) :
    (k.header = n.blocks.header ∨ k.header = l.header) ∧ (g.block k.header).vectorized = true ∨
      k ∈ innermostLoops (ofFunc f) ∧ k.header ∉ n.blocks.all ∧ k.header ≠ l.header := by
  rcases h.innermost_cases hl hk with heq | heq | hold
  · exact .inl ⟨.inl heq, heq ▸ h.marked⟩
  · refine .inl ⟨.inr heq, heq ▸ ?_⟩
    have hlive := CountedLoop.live_of_mem (innermost_of_mem hk).isLoop
      (innermost_of_mem hk).isLoop.header_mem
    have hkept := h.kept_of_mem_layout (heq ▸ hlive) (h.not_mem_of_live h.shape.header_live)
    cases hm : n.blocks.middle with
    | none => exact absurd hl.isLoop.header_mem (hkept.2 hm)
    | some m => exact (h.middle m hm).1
  · exact .inr hold

/-- An innermost loop is vectorized: code is put into its preheader, and the vector loop is put
in. -/
structure Rewritten (l : NaturalLoop) (p : VectorPlan) (n : VectorLoop) (f h g : Func) : Prop where
  framed : f.Framed
  distinct : f.DistinctTargets
  mem_loops : l ∈ innermostLoops (ofFunc f)
  inserts : Inserts p.loop.preheader f h
  splicing : Splicing l p n h g
  tight : p.loop.Tight h l
  steps_eq : p.steps.map Prod.fst = (h.body p.loop.bodyEntry).dropLast
  bound_ne : n.blocks.middle = none → ∀ i, p.loop.bound ≠ .inst i

theorem rewritten_apply {known : Operand → Prop} (hf : f.Framed) (hsingle : f.SingleEntry)
    (hd : f.DistinctTargets) (hknown : f.Closed known) (hl : l ∈ innermostLoops (ofFunc f))
    (hw : l.Within known f)
    (hplan : plan config f (.ofFunc f) (.ofGraph (.ofFunc f)) l tt = (.ok p, tt')) :
    ∃ n h, Rewritten l p n f h (apply config f p) := by
  have hil := isLoop_of_innermost hl
  have ht := tight_of_plan hf hl hplan
  have hshape := shape_of_plan hil hplan
  obtain ⟨_, _, _, _, ⟨_, hbody, _⟩, _⟩ := plan_eq_ok hplan
  have hlow := (lowersAll_of_lowerBody hbody).2
  have hstart := hknown.exists_of _ (Untouched.known_start hil hw ht.counted)
  have hbound := hknown.exists_of _ (Untouched.known_bound hknown hil hw ht.counted)
  have hi := (yields_emitEnd hf hshape.edge_preheader.1 hstart hbound
    (Int64.ofNat config.width)).preamble.toInserts
  obtain ⟨n, _, _, hspliced⟩ :=
    spliced_apply hf hshape config hi (fits_of_lowersAll hf hshape hlow)
  refine ⟨n, _, hf, hd, hl, hi, ⟨hspliced, hi.framed hf, hshape.inserts hi hf,
    hi.singleEntry hf hsingle⟩, ht.inserts hi hf, ?_, fun hm => ?_⟩
  · have hne : p.loop.bodyEntry ≠ p.loop.preheader := fun heq =>
      ht.counted.preheader_out (heq ▸ ht.counted.bodyEntry_mem)
    rw [hlow.map_fst, hi.body_eq _ hne]
  · have hend := vectorEnd_of_plan hplan
    have hepilogue : p.epilogue = false := by
      rw [hspliced.blocks_eq, freshBlocks] at hm
      simpa using hm
    rw [hepilogue] at hend
    exact bound_ne_of_vectorEnd hend

namespace Rewritten

variable {h : Func} {known : Operand → Prop} (hr : Rewritten l p n f h g)

include hr

theorem graph_eq : ofFunc h = ofFunc f := hr.inserts.ofFunc_eq hr.framed

theorem framed_rewritten : g.Framed := hr.splicing.framed_spliced

theorem singleEntry_rewritten : g.SingleEntry := hr.splicing.singleEntry_spliced

theorem distinctTargets_rewritten : g.DistinctTargets :=
  hr.splicing.distinctTargets (hr.distinct.inserts hr.inserts hr.framed)

theorem grown : f.Grown g := (Inserts.grown hr.inserts).trans hr.splicing.grown

theorem unmarked (hg : (g.block b).vectorized = false) : (f.block b).vectorized = false := by
  rw [← hr.inserts.vectorized_eq b]
  exact Bool.eq_false_iff.mpr fun hb => Bool.eq_false_iff.mp hg (hr.splicing.still_marked b hb)

/-- The innermost loops are marked ones and innermost loops from before. -/
theorem innermost_cases (hk : k ∈ innermostLoops (ofFunc g)) :
    (k.header = n.blocks.header ∨ k.header = l.header) ∧ (g.block k.header).vectorized = true ∨
      k ∈ innermostLoops (ofFunc f) ∧ k.header ∉ n.blocks.all ∧ k.header ≠ l.header :=
  hr.graph_eq ▸ hr.splicing.marked_cases (hr.graph_eq ▸ innermost_of_mem hr.mem_loops) hk

theorem dominates_of_dominates {d : BlockId} (hd : d ∉ n.blocks.all) (hb : ¬ Erased l n b)
    (hdom : (ofFunc g).Dominates d b) : (ofFunc f).Dominates d b :=
  hr.graph_eq ▸ hr.splicing.exchanged.dominates_outside hd hb hdom

section

variable (hk : k ∈ innermostLoops (ofFunc f)) (hne : k.header ≠ l.header)

include hk hne

theorem beside : Beside l k p n h g where
  splicing := hr.splicing
  innermost := hr.graph_eq ▸ innermost_of_mem hr.mem_loops
  other := hr.graph_eq ▸ innermost_of_mem hk
  header_ne := hne

theorem not_erased (hb : b ∈ k.blocks) : ¬ Erased l n b := fun he =>
  (hr.beside hk hne).not_mem hb he.2

variable (hknown : f.Closed known)

include hknown

theorem prepared : Untouched known f h k :=
  untouched_of_inserts hr.inserts hr.framed hknown (innermost_of_mem hk).isLoop
    fun hb => (hr.beside hk hne).ne_preheader hb rfl

/-- The code of another loop stays. -/
theorem sameCode : SameCode f g k :=
  (hr.prepared hk hne hknown).toSameCode.trans (hr.beside hk hne).sameCode

/-- Another loop is left alone. -/
theorem untouched (hdom : ¬ (ofFunc f).Dominates l.header k.header) : Untouched known f g k := by
  have hprep := hr.prepared hk hne hknown
  exact hprep.trans ((hr.beside hk hne).untouched (hprep.toGrown.closed hknown) hr.tight
    (hr.distinct.inserts hr.inserts hr.framed) hr.steps_eq hr.bound_ne (hr.graph_eq ▸ hdom))

end

end Rewritten

end Vectorize

end LoopNest
