import LoopNest.Proofs.Func.Grounded
import LoopNest.Proofs.Vectorize.Rewritten
import LoopNest.Proofs.Vectorize.Verified
import Mathlib.Logic.Relation

/-!
# Between two tries

The pass tries the innermost loops in the order of the forest, and it tries each header once.
`Settled` is what holds between two tries, and `Settled.step` says that a try keeps it.

* A loop that was refused stays refused.  It is left alone when a later loop is vectorized, since
  a later header does not dominate it (`Settled.apart`).
* What a loop uses is known and grounded, and code that is added does not change that.  So the
  searches that a decision starts end, and no decision gets stuck (`Settled.planStuck_eq_false`).
* Every new innermost loop is marked, so a try leaves less to do (`length_skip`,
  `Settled.length_move`).
-/

namespace LoopNest

open Func FlowGraph

variable {f g : Func} {l k : NaturalLoop} {p : VectorPlan} {known : Operand → Prop}
  {base tt tt' : TypeTable} {config : VectorConfig} {rejected : List BlockId} {b : BlockId}

/-- Where every block is reachable, loops are entered at their headers only. -/
theorem Func.singleEntry_of_reachable (hr : ∀ b ∈ f.layout, (ofFunc f).Reachable b) :
    f.SingleEntry := by
  intro l hl b hb hne a ha
  obtain ⟨hlive, hs⟩ := (f.mem_predecessors a b).mp ha
  exact hl.mem_of_edge hb hne
    ((edge_ofFunc f a b).mpr ⟨hlive, CountedLoop.live_of_mem hl hb, hs⟩) (hr a hlive)

namespace Vectorize

/-! ## Refused loops -/

/-- The pass does not vectorize the loop, whatever types were added to the table. -/
def Refused (base : TypeTable) (config : VectorConfig) (f : Func) (l : NaturalLoop) : Prop :=
  ∀ tt, base.Extends tt → ∃ e tt',
    plan config f (.ofFunc f) (.ofGraph (.ofFunc f)) l tt = (.error e, tt')

theorem refused_of_marked (h : (f.block l.header).vectorized = true) : Refused base config f l :=
  fun tt _ => ⟨.alreadyVectorized, tt, by unfold plan; rw [if_pos h]; rfl⟩

section

variable (hf : f.Closed known) (hl : IsLoop (.ofFunc f) l) (hw : l.Within known f)
  (htys : ∀ v, known v → f.tyOf v < base.size)

include hf hl hw htys

/-- What is refused once is refused after other loops were vectorized. -/
theorem Untouched.refused (h : Untouched known f g l) (ht : base.Extends tt) {e : VectorRejection}
    (hplan : plan config f (.ofFunc f) (.ofGraph (.ofFunc f)) l tt = (.error e, tt')) :
    Refused base config g l := by
  intro tt₁ ht₁
  cases hp : plan config g (.ofFunc g) (.ofGraph (.ofFunc g)) l tt₁ with
  | mk r tt₂ =>
    cases r with
    | error e => exact ⟨e, tt₂, rfl⟩
    | ok p =>
      obtain ⟨_, q, _, hq, _⟩ := h.follows_plan hf hl hw htys config tt tt₁ ht ht₁ p tt₂ hp
      rw [hplan] at hq
      cases congrArg Prod.fst hq

end

/-! ## Tries -/

/-- The first innermost loop whose header was not tried. -/
def candidate? (rejected : List BlockId) (f : Func) : Option NaturalLoop :=
  (innermostLoops (.ofFunc f)).find? fun l => !rejected.contains l.header

/-- The header of the loop is not marked. -/
abbrev Unmarked (f : Func) (l : NaturalLoop) : Prop := (f.block l.header).vectorized = false

theorem candidate?_first (h : candidate? rejected f = some l) :
    l ∈ innermostLoops (.ofFunc f) ∧ l.header ∉ rejected ∧
    ∀ k ∈ innermostLoops (.ofFunc f), k.header ∉ rejected →
      k = l ∨ ¬ (ofFunc f).Dominates k.header l.header := by
  obtain ⟨hl, before, after, heq, hbefore⟩ := List.find?_eq_some_iff_append.mp h
  refine ⟨heq ▸ by simp, by simpa using hl, fun k hk hout => ?_⟩
  have hpair := pairwise_innermostLoops f
  rw [heq] at hk hpair
  rcases List.mem_append.mp hk with hk | hk
  · exact absurd (by simpa using hbefore k hk) hout
  · rcases List.mem_cons.mp hk with rfl | hk
    · exact .inl rfl
    · exact .inr ((List.pairwise_cons.mp (List.pairwise_append.mp hpair).2.1).1 k hk)

theorem mem_of_candidate?_none (h : candidate? rejected f = none)
    (hl : l ∈ innermostLoops (.ofFunc f)) : l.header ∈ rejected := by
  simpa using List.find?_eq_none.mp h l hl

/-- What the pass can rely on between two tries. -/
structure Settled (known : Operand → Prop) (base : TypeTable) (config : VectorConfig)
    (rejected : List BlockId) (f : Func) : Prop where
  framed : f.Framed
  singleEntry : f.SingleEntry
  distinct : f.DistinctTargets
  closed : f.Closed known
  grounded : ∀ v, known v → f.Grounded v
  tys_lt : ∀ v, known v → f.tyOf v < base.size
  /-- The unmarked loops use known values. -/
  within : ∀ l ∈ innermostLoops (.ofFunc f), Unmarked f l → l.Within known f
  /-- The loops at headers that were tried are refused. -/
  refused : ∀ l ∈ innermostLoops (.ofFunc f), l.header ∈ rejected → Refused base config f l
  /-- The header of a loop that is left to try dominates none that was tried. -/
  apart : ∀ l ∈ innermostLoops (.ofFunc f), ∀ k ∈ innermostLoops (.ofFunc f), Unmarked f l →
    Unmarked f k → l.header ∉ rejected → k.header ∈ rejected →
      ¬ (ofFunc f).Dominates l.header k.header

namespace Settled

variable (h : Settled known base config rejected f) (hc : candidate? rejected f = some l)

include h hc

theorem apart_cons {m : NaturalLoop} (hm : m ∈ innermostLoops (.ofFunc f))
    (hk : k ∈ innermostLoops (.ofFunc f)) (hmu : Unmarked f m) (hku : Unmarked f k)
    (hout : m.header ∉ l.header :: rejected) (hin : k.header ∈ l.header :: rejected) :
    ¬ (ofFunc f).Dominates m.header k.header := by
  obtain ⟨_, _, hfirst⟩ := candidate?_first hc
  obtain ⟨hml, hmr⟩ := not_or.mp (mt List.mem_cons.mpr hout)
  rcases List.mem_cons.mp hin with heq | hin
  · rw [heq]
    exact (hfirst m hm hmr).resolve_left fun heq => hml (heq ▸ rfl)
  · exact h.apart m hm k hk hmu hku hmr hin

/-- A candidate that is refused is settled. -/
theorem skip (ht : base.Extends tt) {e : VectorRejection}
    (hplan : plan config f (.ofFunc f) (.ofGraph (.ofFunc f)) l tt = (.error e, tt')) :
    Settled known base config (l.header :: rejected) f where
  framed := h.framed
  singleEntry := h.singleEntry
  distinct := h.distinct
  closed := h.closed
  grounded := h.grounded
  tys_lt := h.tys_lt
  within := h.within
  refused k hk hin := by
    obtain ⟨hl, _, _⟩ := candidate?_first hc
    rcases List.mem_cons.mp hin with heq | hin
    · rw [eq_of_header_eq hk hl heq]
      cases hmark : (f.block l.header).vectorized with
      | true => exact refused_of_marked hmark
      | false =>
        exact (Untouched.refl known f l).refused h.closed (isLoop_of_innermost hl)
          (h.within l hl hmark) h.tys_lt ht hplan
    · exact h.refused k hk hin
  apart _ hm _ hk hmu hku hout hin := h.apart_cons hc hm hk hmu hku hout hin

/-- A candidate that is vectorized is settled, and what was tried before stays refused. -/
theorem move (hplan : plan config f (.ofFunc f) (.ofGraph (.ofFunc f)) l tt = (.ok p, tt')) :
    Settled known base config (l.header :: rejected) (apply config f p) := by
  obtain ⟨hl, hout, _⟩ := candidate?_first hc
  have hmark : Unmarked f l := (plan_eq_ok hplan).1
  obtain ⟨n, f₁, hr⟩ := rewritten_apply h.framed h.singleEntry h.distinct h.closed hl
    (h.within l hl hmark) hplan
  generalize apply config f p = g at hr
  -- What is unmarked was there before.
  have hold {k : NaturalLoop} (hk : k ∈ innermostLoops (.ofFunc g)) (hku : Unmarked g k) :
      k ∈ innermostLoops (.ofFunc f) ∧ k.header ∉ n.blocks.all ∧ k.header ≠ l.header := by
    refine (hr.innermost_cases hk).resolve_left fun hcase => ?_
    rw [hku] at hcase
    cases hcase.2
  have hclosed := h.closed
  constructor
  case framed => exact hr.framed_rewritten
  case singleEntry => exact hr.singleEntry_rewritten
  case distinct => exact hr.distinctTargets_rewritten
  case closed => exact hr.grown.closed hclosed
  case grounded => exact fun v hv => (h.grounded v hv).grown hr.grown hclosed hv
  case tys_lt =>
    intro v hv
    rw [hr.grown.tyOf_eq hclosed hv]
    exact h.tys_lt v hv
  case within =>
    intro k hk hku
    obtain ⟨hkf, _, hne⟩ := hold hk hku
    exact (hr.sameCode hkf hne hclosed).within (h.within k hkf (hr.unmarked hku))
  case refused =>
    intro k hk hin
    cases hku : (g.block k.header).vectorized with
    | true => exact refused_of_marked hku
    | false =>
      obtain ⟨hkf, _, hne⟩ := hold hk hku
      have hkr := (List.mem_cons.mp hin).resolve_left hne
      have huf := hr.unmarked hku
      obtain ⟨e, tt₁, hno⟩ := h.refused k hkf hkr base (.refl base)
      exact (hr.untouched hkf hne hclosed (h.apart l hl k hkf hmark huf hout hkr)).refused hclosed
        (isLoop_of_innermost hkf) (h.within k hkf huf) h.tys_lt (.refl base) hno
  case apart =>
    intro m hm k hk hmu hku hmout hkin hdom
    obtain ⟨hmf, hmnew, _⟩ := hold hm hmu
    obtain ⟨hkf, _, hne⟩ := hold hk hku
    refine h.apart_cons hc hmf hkf (hr.unmarked hmu) (hr.unmarked hku) hmout hkin ?_
    exact hr.dominates_of_dominates hmnew
      (hr.not_erased hkf hne (isLoop_of_innermost hkf).header_mem) hdom

end Settled

/-! ## Searches that a decision starts -/

/-- The searches that start from the code of a loop end: the ways from pointers to their roots, and
the searches for strides. -/
structure SearchesEnd (f : Func) (l : NaturalLoop) : Prop where
  exists_of : ∀ b ∈ l.blocks, ∀ i ∈ f.body b, ∀ v ∈ (f.op i).operands, f.Exists v
  roots : ∀ b ∈ l.blocks, ∀ i ∈ f.body b, ∀ v ∈ (f.op i).operands, f.isLost v = false
  strides : ∀ b ∈ l.blocks, ∀ i ∈ f.body b, ∀ iv,
    ∃ r, l.Searched f (.ofGraph (.ofFunc f)) iv (.inst i) r

/-- The searches for strides that carrying over starts in the body end. -/
theorem bodyStuck_eq_false {c : Context} : ∀ (shapes : LaneShapes) (is : List InstId)
    (tt : TypeTable), (∀ i ∈ is, c.natural.isStuck c.func c.dom (.inst i) c.loop.iv = false) →
    bodyStuck c shapes is tt = false
  | _, [], _, _ => rfl
  | shapes, i :: is, tt, h => by
    have hi : instStuck c shapes i tt = false := by
      unfold instStuck
      rw [h i List.mem_cons_self]
      split
      · split <;> simp
      · rfl
    unfold bodyStuck
    rw [hi, Bool.false_or]
    split
    · exact bodyStuck_eq_false _ is _ fun j hj => h j (List.mem_cons_of_mem _ hj)
    · rfl

/-- The decision about an anchored loop does not get stuck. -/
theorem planStuck_eq_false_of_anchored (h : f.Anchored l) (hl : IsLoop (.ofFunc f) l)
    (config : VectorConfig) (tt : TypeTable) :
    planStuck config f (.ofFunc f) (.ofGraph (.ofFunc f)) l tt = false := by
  unfold planStuck
  split
  · rfl
  rw [h.counted_isStuck_eq_false hl, Bool.false_or]
  split
  · rfl
  rename_i loop hrec
  have hcounted := CountedLoop.isCounted_of_recognize hrec
  have hbody : ∀ b ∈ loop.body, b ∈ l.blocks := by
    rw [hcounted.body_eq]
    exact fun b hb => (List.mem_filter.mp hb).1
  dsimp only
  split
  · rfl
  rw [h.tripsStuck_eq_false hl hrec, Bool.false_or]
  split
  · rfl
  rw [h.anyLost_eq_false hbody, Bool.false_or]
  split
  · rfl
  exact bodyStuck_eq_false _ _ _ fun i hi =>
    h.isStuck_eq_false hcounted.bodyEntry_mem (List.dropLast_subset _ hi)

namespace Settled

variable (h : Settled known base config rejected f)

include h

theorem searchesEnd (hl : l ∈ innermostLoops (.ofFunc f)) (hmark : Unmarked f l) :
    SearchesEnd f l := by
  have hw := h.within l hl hmark
  constructor
  · exact fun b hb i hi v hv => h.closed.exists_of v ((hw b hb i hi).2 v hv)
  · exact fun b hb i hi v hv => (h.grounded v ((hw b hb i hi).2 v hv)).isLost_eq_false
  · exact fun b hb i hi iv => (h.grounded _ (hw b hb i hi).1).searched l _ iv

theorem anchored (hl : l ∈ innermostLoops (.ofFunc f)) (hmark : Unmarked f l) : f.Anchored l := by
  have hw := h.within l hl hmark
  have hheader := (isLoop_of_innermost hl).header_mem
  have taken : ∀ i ∈ f.phis l.header, ∀ q v, f.incoming? i q = some v → known v := by
    intro i hi q v hv
    obtain ⟨incoming, hop, hmem⟩ := mem_of_incoming? hv
    refine (hw _ hheader i (mem_body_of_phis hi)).2 v ?_
    rw [hop]
    exact List.mem_map.mpr ⟨_, hmem, rfl⟩
  constructor
  · exact fun b hb i hi => (h.closed.exists_of _ (hw b hb i hi).1).lt
  · exact fun b hb i hi _ v hv => h.grounded v ((hw b hb i hi).2 v hv)
  · exact fun i hi q _ v hv => h.closed.exists_of v (taken i hi q v hv)
  · exact fun i hi q _ v hv => h.grounded v (taken i hi q v hv)

theorem planStuck_eq_false (hl : l ∈ innermostLoops (.ofFunc f)) (tt : TypeTable) :
    planStuck config f (.ofFunc f) (.ofGraph (.ofFunc f)) l tt = false := by
  cases hmark : (f.block l.header).vectorized with
  | true => rw [planStuck, if_pos hmark]
  | false =>
    exact planStuck_eq_false_of_anchored (h.anchored hl hmark) (isLoop_of_innermost hl) config tt

end Settled

/-- At the start nothing was tried. -/
theorem settled_nil (hf : f.WellFormed) (hu : f.UsesListed) (htys : ∀ t ∈ f.tys, t < base.size)
    (hr : ∀ b ∈ f.layout, (ofFunc f).Reachable b) (hd : f.DistinctTargets) :
    Settled f.Present base config [] f where
  framed := hf.framed
  singleEntry := singleEntry_of_reachable hr
  distinct := hd
  closed := hf.closed_present hu
  grounded _ hv := hf.grounded hu hr hv
  tys_lt _ hv := htys _ hv.1.tyOf_mem
  within l hl _ b hb i hi := by
    have hlive := CountedLoop.live_of_mem (isLoop_of_innermost hl) hb
    exact ⟨hf.present_inst hlive hi, fun v hv => hf.present_operand hu hlive hi hv⟩
  refused _ _ hmem := absurd hmem List.not_mem_nil
  apart _ _ _ _ _ _ _ hmem := absurd hmem List.not_mem_nil

/-! ## Runs -/

/-- The headers that were tried, the types and the function. -/
abbrev State := List BlockId × TypeTable × Func

/-- One try: the header of the candidate is remembered, and an accepted candidate is vectorized. -/
inductive Try (config : VectorConfig) : State → State → Prop where
  | move {rejected : List BlockId} {tt tt' : TypeTable} {f : Func} {l : NaturalLoop}
    {p : VectorPlan} : candidate? rejected f = some l →
    plan config f (.ofFunc f) (.ofGraph (.ofFunc f)) l tt = (.ok p, tt') →
    Try config (rejected, tt, f) (l.header :: rejected, tt', apply config f p)
  | skip {rejected : List BlockId} {tt tt' : TypeTable} {f : Func} {l : NaturalLoop}
    {e : VectorRejection} : candidate? rejected f = some l →
    plan config f (.ofFunc f) (.ofGraph (.ofFunc f)) l tt = (.error e, tt') →
    Try config (rejected, tt, f) (l.header :: rejected, tt', f)

variable {s s' : State}

theorem Settled.step (h : Settled known base config s.1 s.2.2) (ht : base.Extends s.2.1)
    (hs : Try config s s') :
    Settled known base config s'.1 s'.2.2 ∧ base.Extends s'.2.1 := by
  cases hs with
  | @move _ tt _ f l _ hc hp =>
    have hgrows := grows_plan config f (.ofFunc f) (.ofGraph (.ofFunc f)) l tt
    rw [hp] at hgrows
    exact ⟨h.move hc hp, ht.trans hgrows.ext⟩
  | @skip _ tt _ f l _ hc hp =>
    have hgrows := grows_plan config f (.ofFunc f) (.ofGraph (.ofFunc f)) l tt
    rw [hp] at hgrows
    exact ⟨h.skip hc ht hp, ht.trans hgrows.ext⟩

theorem Settled.run (h : Settled known base config s.1 s.2.2) (ht : base.Extends s.2.1)
    (hr : Relation.ReflTransGen (Try config) s s') :
    Settled known base config s'.1 s'.2.2 ∧ base.Extends s'.2.1 := by
  induction hr with
  | refl => exact ⟨h, ht⟩
  | tail _ hs ih => exact ih.1.step ih.2 hs

/-! ## What is left to try -/

/-- The headers that are left to try. -/
def untried (rejected : List BlockId) (f : Func) : List BlockId :=
  ((innermostLoops (.ofFunc f)).map NaturalLoop.header).filter fun b => b ∉ rejected

/-- Those of them that are not marked. -/
def pending (rejected : List BlockId) (f : Func) : List BlockId :=
  (untried rejected f).filter fun b => !(f.block b).vectorized

theorem mem_untried : b ∈ untried rejected f ↔
    (∃ l ∈ innermostLoops (.ofFunc f), l.header = b) ∧ b ∉ rejected := by
  rw [untried, List.mem_filter, List.mem_map, decide_eq_true_iff]

theorem mem_pending : b ∈ pending rejected f ↔
    b ∈ untried rejected f ∧ (f.block b).vectorized = false := by
  rw [pending, List.mem_filter, Bool.not_eq_true']

theorem nodup_untried (rejected : List BlockId) (f : Func) : (untried rejected f).Nodup := by
  refine List.Nodup.filter _ (List.pairwise_map.mpr ?_)
  refine (pairwise_innermostLoops f).imp fun {a b} hno heq => hno ?_
  rw [heq]
  exact .refl

theorem nodup_pending (rejected : List BlockId) (f : Func) : (pending rejected f).Nodup :=
  (nodup_untried rejected f).filter _

/-- There are no more innermost loops than blocks. -/
theorem length_pending_le (hf : f.Framed) : (pending rejected f).length ≤ f.blocks.size := by
  have hsub : ∀ b ∈ pending rejected f, b ∈ List.range f.blocks.size := by
    intro b hb
    obtain ⟨⟨l, hl, rfl⟩, _⟩ := mem_untried.mp (mem_pending.mp hb).1
    have hil := isLoop_of_innermost hl
    obtain ⟨t, ht⟩ := hf.ends _ (CountedLoop.live_of_mem hil hil.header_mem)
    exact List.mem_range.mpr (lt_blocks_size (mem_body_of_terminator ht).1)
  simpa using ((nodup_pending rejected f).subperm hsub).length_le

theorem mem_untried_of_candidate (hc : candidate? rejected f = some l) :
    l.header ∈ untried rejected f := by
  obtain ⟨hl, hout, _⟩ := candidate?_first hc
  exact mem_untried.mpr ⟨⟨l, hl, rfl⟩, hout⟩

theorem not_mem_untried_cons : l.header ∉ untried (l.header :: rejected) f := fun hmem =>
  (mem_untried.mp hmem).2 List.mem_cons_self

theorem nodup_cons_untried : (l.header :: untried (l.header :: rejected) f).Nodup :=
  List.nodup_cons.mpr ⟨not_mem_untried_cons, nodup_untried _ f⟩

theorem mem_untried_of_cons {c : BlockId} (h : b ∈ untried (c :: rejected) f) :
    b ∈ untried rejected f :=
  have h := mem_untried.mp h
  mem_untried.mpr ⟨h.1, (not_or.mp (mt List.mem_cons.mpr h.2)).2⟩

/-- A candidate that is refused is not tried again. -/
theorem length_skip (hc : candidate? rejected f = some l) :
    (untried (l.header :: rejected) f).length < (untried rejected f).length ∧
      (pending (l.header :: rejected) f).length ≤ (pending rejected f).length := by
  constructor
  · refine (nodup_cons_untried.subperm fun b hb => ?_).length_le
    rcases List.mem_cons.mp hb with rfl | hb
    · exact mem_untried_of_candidate hc
    · exact mem_untried_of_cons hb
  · refine ((nodup_pending (l.header :: rejected) f).subperm fun b hb => ?_).length_le
    have hb := mem_pending.mp hb
    exact mem_pending.mpr ⟨mem_untried_of_cons hb.1, hb.2⟩

/-- Vectorizing a candidate brings a marked loop for an unmarked one. -/
theorem Settled.length_move (h : Settled known base config rejected f)
    (hc : candidate? rejected f = some l)
    (hplan : plan config f (.ofFunc f) (.ofGraph (.ofFunc f)) l tt = (.ok p, tt')) :
    (untried (l.header :: rejected) (apply config f p)).length ≤ (untried rejected f).length ∧
      (pending (l.header :: rejected) (apply config f p)).length < (pending rejected f).length := by
  obtain ⟨hl, _, _⟩ := candidate?_first hc
  have hmark : Unmarked f l := (plan_eq_ok hplan).1
  obtain ⟨n, f₁, hr⟩ := rewritten_apply h.framed h.singleEntry h.distinct h.closed hl
    (h.within l hl hmark) hplan
  generalize apply config f p = g at hr
  have hmem := mem_untried_of_candidate hc
  have hold {b : BlockId} (hb : b ∈ untried (l.header :: rejected) g) :
      b = n.blocks.header ∧ (g.block b).vectorized = true ∨ b ∈ untried rejected f := by
    obtain ⟨⟨k, hk, rfl⟩, hout⟩ := mem_untried.mp hb
    obtain ⟨hne, hout⟩ := not_or.mp (mt List.mem_cons.mpr hout)
    rcases hr.innermost_cases hk with ⟨heq, hmark⟩ | ⟨hk, _⟩
    · exact .inl ⟨heq.resolve_right hne, hmark⟩
    · exact .inr (mem_untried.mpr ⟨⟨k, hk, rfl⟩, hout⟩)
  constructor
  · have hsub : l.header :: untried (l.header :: rejected) g ⊆
        n.blocks.header :: untried rejected f := by
      intro b hb
      rcases List.mem_cons.mp hb with rfl | hb
      · exact List.mem_cons_of_mem _ hmem
      · exact List.mem_cons.mpr ((hold hb).imp_left And.left)
    exact Nat.le_of_succ_le_succ (nodup_cons_untried.subperm hsub).length_le
  · have hnodup : (l.header :: pending (l.header :: rejected) g).Nodup :=
      List.nodup_cons.mpr ⟨fun hb => not_mem_untried_cons (mem_pending.mp hb).1, nodup_pending _ g⟩
    refine (hnodup.subperm fun b hb => ?_).length_le
    rcases List.mem_cons.mp hb with rfl | hb
    · exact mem_pending.mpr ⟨hmem, hmark⟩
    · obtain ⟨hb, hmark⟩ := mem_pending.mp hb
      refine mem_pending.mpr ⟨(hold hb).resolve_left fun hnew => ?_, hr.unmarked hmark⟩
      rw [hmark] at hnew
      cases hnew.2

end Vectorize

end LoopNest
