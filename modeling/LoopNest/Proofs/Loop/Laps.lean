import LoopNest.Proofs.Loop.Counted
import LoopNest.Proofs.Loop.Strides
import LoopNest.Proofs.Machine.Recent

/-!
# Laps of a loop

A counted loop is *tight* when it has one block between header and latch, when header and latch do
nothing but count, and when that block makes no calls and no stack slots (`CountedLoop.Tight`).

`Machine.Laps` counts how often an activation executes an instruction of the loop again before it
leaves the loop.  From one time to the next, a tight loop counts its induction value up by one and
leaves alone what is computed outside, and the memory that the block does not store to
(`CountedLoop.Tight.lap`).  So the two moments are apart by the number of laps
(`CountedLoop.Tight.counts`).
-/

namespace LoopNest

namespace Func

variable {tt : TypeTable} {f : Func} {b : BlockId} {i : InstId}

theorem elementScalar?_congr {t u : TyId} (h : tt.shape t = tt.shape u) :
    tt.elementScalar? t = tt.elementScalar? u := by
  unfold TypeTable.elementScalar?
  rw [h]

/-- The operands of an arithmetic instruction have its shape. -/
theorem WellTyped.binary (hty : f.WellTyped tt) (hb : b ∈ f.layout) (hi : i ∈ f.body b)
    {o : BinaryOp} {l r : Operand} (hop : f.op i = .binary o l r) :
    f.tyOf l = f.tyOf r ∧ tt.elementScalar? (f.tyOf l) = tt.elementScalar? (f.inst i).ty := by
  obtain ⟨ty, hres, hlook⟩ := hty b hb i hi
  rw [hop] at hres
  simp only [Typing.resultTy, bind_eq_ok_iff] at hres
  obtain ⟨⟨t, s, lanes⟩, hpair, hif⟩ := hres
  obtain ⟨hl, hr, _⟩ := Typing.operandPair_eq_ok hpair
  have hts : ty = tt.ty t := by
    dsimp only at hif
    split at hif
    all_goals
      split at hif
      · cases hif
        rfl
      · cases hif
  subst hts
  refine ⟨hl.trans hr.symm, elementScalar?_congr ?_⟩
  rw [hl, TypeTable.shape_of_lookup hlook, TypeTable.shape_ty]

/-- What is compared as integers are integers. -/
theorem WellTyped.isInteger_of_icmp (hty : f.WellTyped tt) (hb : b ∈ f.layout) (hi : i ∈ f.body b)
    {pred : IntPredicate} {l r : Operand} (hop : f.op i = .icmp pred l r) :
    ∃ s, tt.elementScalar? (f.tyOf l) = some s ∧ s.isInteger = true := by
  obtain ⟨ty, hres, _⟩ := hty b hb i hi
  rw [hop] at hres
  simp only [Typing.resultTy, bind_eq_ok_iff] at hres
  obtain ⟨⟨t, s, lanes⟩, hpair, hif⟩ := hres
  obtain ⟨hl, _, hs⟩ := Typing.operandPair_eq_ok hpair
  split at hif
  · next hint =>
    refine ⟨s, ?_, hint⟩
    unfold TypeTable.elementScalar?
    rcases Typing.scalarOrVector_eq_ok.mp hs with ⟨hs, _⟩ | ⟨n, hs, _⟩ <;> rw [hl, hs]
  · cases hif

end Func

namespace CountedLoop

open Machine

/-! ## Tight loops -/

/-- A counted loop of step one with one block between header and latch, in which nothing else
happens. -/
structure Tight (f : Func) (l : NaturalLoop) (c : CountedLoop) : Prop where
  isLoop : IsLoop (.ofFunc f) l
  counted : c.IsCounted f l
  step_eq : c.step = 1
  /-- Header and latch count. -/
  header_body : ∃ t, f.body l.header = [c.induction, c.cond, t]
  latch_body : ∃ t, f.body c.latch = [c.next, t]
  /-- There is one more block. -/
  mem_blocks : ∀ b ∈ l.blocks, b = l.header ∨ b = c.bodyEntry ∨ b = c.latch
  bodyEntry_ne_latch : c.bodyEntry ≠ c.latch
  bodyEntry_successor : ∀ x ∈ f.successors c.bodyEntry, x = c.latch
  latch_successor : ∀ x ∈ f.successors c.latch, x = l.header
  /-- It calls nothing and makes no stack slots. -/
  plain : ∀ i ∈ f.body c.bodyEntry, (f.op i).isPhi = false ∧ (f.op i).isCall = false ∧
    (f.op i).isSlot = false

/-! ## Innermost loops of three blocks -/

section

variable {f : Func} {l : NaturalLoop} {c : CountedLoop} {x : BlockId}
  (hf : ∀ e, f.entry? = some e → f.predecessors e = []) (hl : IsLoop (.ofFunc f) l)
  (hc : c.IsCounted f l)
  (hback : ∀ b ∈ l.blocks, b ≠ l.header → ∀ p, (FlowGraph.ofFunc f).Edge p b →
    (FlowGraph.ofFunc f).Reachable p → ¬ (FlowGraph.ofFunc f).Dominates b p)
include hf hl hc hback

/-- A block of an innermost loop that can be entered from one other block of the loop leads nowhere
back to that block. -/
theorem no_return {a b : BlockId} (hb : b ∈ l.blocks) (hbh : b ≠ l.header) (hah : a ≠ l.header)
    (ha : a ∈ l.blocks) (hpred : ∀ p ∈ l.blocks, b ∈ f.successors p → p = a ∨ p = b) :
    a ∉ f.successors b := by
  have hrb := hl.reachable_mem hb
  have hdom : (FlowGraph.ofFunc f).Dominates a b := by
    refine .of_edges (fun he => entry_not_mem hf hl hc ((Func.entry?_ofFunc f).symm.trans he) hb)
      fun p he => ?_
    by_cases hp : (FlowGraph.ofFunc f).Reachable p
    · rcases hpred p (hl.mem_of_edge hb hbh he hp) ((FlowGraph.edge_ofFunc f _ _).mp he).2.2 with
        rfl | rfl
      · exact .refl
      · exact absurd .refl (hback _ hb hbh _ he hp)
    · exact fun e trail he hpath => absurd ⟨e, he, trail, hpath, fun _ _ => trivial⟩ hp
  intro hs
  exact hback a ha hah b ((FlowGraph.edge_ofFunc f _ _).mpr
    ⟨live_of_mem hl hb, live_of_mem hl ha, hs⟩) hrb hdom

/-- An innermost counted loop of three blocks, whose header and latch do nothing but count. -/
theorem tight_of_innermost (hstep : c.step = 1) (hbody : c.body.length = 1)
    (hheader : ∃ t, f.body c.header = [c.induction, c.cond, t])
    (hlatch : ∃ t, f.body c.latch = [c.next, t])
    (hplain : ∀ i ∈ f.body c.bodyEntry, (f.op i).isPhi = false ∧ (f.op i).isCall = false ∧
      (f.op i).isSlot = false) : Tight f l c := by
  rw [hc.header_eq] at hheader
  obtain ⟨x, hx⟩ := List.length_eq_one_iff.mp hbody
  have hmem : ∀ b, b ∈ l.blocks ∧ b ≠ l.header ∧ b ≠ c.latch ↔ b = x := by
    intro b
    rw [← List.mem_singleton, ← hx, hc.body_eq, List.mem_filter, decide_eq_true_iff]
  obtain ⟨hxmem, hxh, hxl⟩ := (hmem x).mpr rfl
  have hlmem := latch_mem hl hc
  have hlh : c.latch ≠ l.header := by
    obtain ⟨t, ht⟩ := hheader
    obtain ⟨t', ht'⟩ := hlatch
    intro heq
    rw [heq, ht] at ht'
    exact absurd (congrArg List.length ht') (by simp)
  have split : ∀ b ∈ l.blocks, b = l.header ∨ b = c.latch ∨ b = x := by
    intro b hb
    by_cases hh : b = l.header
    · exact .inl hh
    · by_cases ht : b = c.latch
      · exact .inr (.inl ht)
      · exact .inr (.inr ((hmem b).mp ⟨hb, hh, ht⟩))
  have hnoself : ∀ b ∈ l.blocks, b ≠ l.header → b ∉ f.successors b := fun b hb hne hs =>
    hback b hb hne b ((FlowGraph.edge_ofFunc f _ _).mpr
      ⟨live_of_mem hl hb, live_of_mem hl hb, hs⟩) (hl.reachable_mem hb) .refl
  -- The header leads to the block that is neither header nor latch.
  have hentry : c.bodyEntry = x := by
    rcases split _ hc.bodyEntry_mem with heq | heq | heq
    · have hedge := (header_successors hc).mpr (.inl heq.symm)
      exact absurd (eq_latch hl hc hl.header_mem hedge).symm hlh
    · have hxpred : ∀ p ∈ l.blocks, x ∈ f.successors p → p = c.latch ∨ p = x := by
        intro p hp hs
        rcases split p hp with rfl | rfl | rfl
        · rcases (header_successors hc).mp hs with h | h
          · exact absurd (h.trans heq) hxl
          · exact absurd (h ▸ hxmem) hc.exit_out
        · exact .inl rfl
        · exact .inr rfl
      obtain ⟨y, hy⟩ := List.exists_mem_of_ne_nil _ (successors_ne_nil hl hc hxmem)
      rcases mem_of_successor hc hxmem hy with hy' | ⟨h, _⟩
      · rcases split y hy' with rfl | rfl | rfl
        · exact absurd (eq_latch hl hc hxmem hy) hxl
        · exact absurd hy (no_return hf hl hc hback hxmem hxh hlh hlmem hxpred)
        · exact absurd hy (hnoself y hxmem hxh)
      · exact absurd h hxh
    · exact heq
  subst hentry
  have hlpred : ∀ p ∈ l.blocks, c.latch ∈ f.successors p → p = c.bodyEntry ∨ p = c.latch := by
    intro p hp hs
    rcases split p hp with rfl | rfl | rfl
    · rcases (header_successors hc).mp hs with h | h
      · exact absurd h.symm hxl
      · exact absurd (h ▸ hlmem) hc.exit_out
    · exact .inr rfl
    · exact .inl rfl
  refine ⟨hl, hc, hstep, hheader, hlatch, fun b hb => ?_, hxl, fun y hy => ?_, fun y hy => ?_, hplain⟩
  · rcases split b hb with h | h | h
    · exact .inl h
    · exact .inr (.inr h)
    · exact .inr (.inl h)
  · rcases mem_of_successor hc hxmem hy with hy' | ⟨h, _⟩
    · rcases split y hy' with rfl | rfl | rfl
      · exact absurd (eq_latch hl hc hxmem hy) hxl
      · rfl
      · exact absurd hy (hnoself _ hxmem hxh)
    · exact absurd h hxh
  · rcases mem_of_successor hc hlmem hy with hy' | ⟨h, _⟩
    · rcases split y hy' with rfl | rfl | rfl
      · rfl
      · exact absurd hy (hnoself _ hlmem hlh)
      · exact absurd hy (no_return hf hl hc hback hlmem hlh hxh hxmem hlpred)
    · exact absurd h hlh

end

namespace Tight

variable {tt : TypeTable} {f : Func} {l : NaturalLoop} {c : CountedLoop} {b : BlockId} {i : InstId}

theorem latch_ne_header (h : Tight f l c) : c.latch ≠ l.header := by
  obtain ⟨t, ht⟩ := h.header_body
  obtain ⟨t', ht'⟩ := h.latch_body
  intro heq
  rw [heq, ht] at ht'
  exact absurd (congrArg List.length ht') (by simp)

theorem bodyEntry_ne_header (h : Tight f l c) : c.bodyEntry ≠ l.header := by
  intro heq
  have hedge := (header_successors h.counted).mpr (.inl rfl)
  rw [heq] at hedge
  exact h.latch_ne_header (h.bodyEntry_successor _ (by rw [heq]; exact hedge)).symm

theorem phis_bodyEntry (h : Tight f l c) : f.phis c.bodyEntry = [] := by
  refine List.eq_nil_iff_forall_not_mem.mpr fun i hi => ?_
  cases (h.plain i (Func.mem_body_of_phis hi)).1.symm.trans (Func.isPhi_of_mem_phis hi)

theorem op_next (h : Tight f l c) : ∃ a b, f.op c.next = .binary .add a b ∧
    (a = c.iv ∧ f.intLiteral? b = some 1 ∨ b = c.iv ∧ f.intLiteral? a = some 1) :=
  op_of_addedConstant? (h.step_eq ▸ h.counted.next_op)

theorem phis_latch (h : Tight f l c) : f.phis c.latch = [] := by
  obtain ⟨t, ht⟩ := h.latch_body
  obtain ⟨a, b, hop, _⟩ := h.op_next
  unfold Func.phis
  rw [ht, List.takeWhile_cons_of_neg (by rw [hop]; simp [Op.isPhi])]

/-- The instructions of the loop call nothing, make no stack slots, and store nothing outside of
the one block. -/
theorem op_of_mem (h : Tight f l c) (hf : f.WellFormed) (hb : b ∈ l.blocks) (hi : i ∈ f.body b) :
    (f.op i).isCall = false ∧ (f.op i).isSlot = false ∧
      ∀ v ptr, f.op i = .store v ptr → b = c.bodyEntry := by
  -- The last instruction of header and latch ends the block.
  have last : ∀ (pre : List InstId) {t}, f.body b = pre ++ [t] → (f.op t).isTerminator = true := by
    intro pre t hbody
    obtain ⟨t', ht'⟩ := hf.ends b (live_of_mem h.isLoop hb)
    obtain ⟨⟨front, hfront⟩, hterm⟩ := Func.terminator?_eq_some.mp ht'
    obtain ⟨_, heq⟩ := List.append_inj' (hbody.symm.trans hfront) rfl
    cases heq
    exact hterm
  have terminator : (f.op i).isTerminator = true → (f.op i).isCall = false ∧
      (f.op i).isSlot = false ∧ ∀ v ptr, f.op i = .store v ptr → b = c.bodyEntry := by
    intro ht
    exact ⟨Op.not_isCall_of_isTerminator ht, Op.not_isSlot_of_isTerminator ht,
      fun v ptr hop => by cases hop ▸ ht⟩
  rcases h.mem_blocks b hb with rfl | rfl | rfl
  · obtain ⟨t, hbody⟩ := h.header_body
    rw [hbody] at hi
    simp only [List.mem_cons, List.not_mem_nil, or_false] at hi
    rcases hi with rfl | rfl | rfl
    · have hphi : (f.op c.induction).isPhi = true :=
        Func.isPhi_of_mem_phis (h.counted.phis_eq ▸ List.mem_singleton.mpr rfl)
      refine ⟨?_, Op.not_isSlot_of_isPhi hphi, fun v ptr hop => by cases hop ▸ hphi⟩
      exact Op.isCall_eq_false.mpr fun n as hop => by cases hop ▸ hphi
    · rw [h.counted.cond_op]
      exact ⟨rfl, rfl, fun _ _ h => by cases h⟩
    · exact terminator (last [c.induction, c.cond] hbody)
  · obtain ⟨_, hcall, hslot⟩ := h.plain i hi
    exact ⟨hcall, hslot, fun _ _ _ => rfl⟩
  · obtain ⟨t, hbody⟩ := h.latch_body
    rw [hbody] at hi
    simp only [List.mem_cons, List.not_mem_nil, or_false] at hi
    rcases hi with rfl | rfl
    · obtain ⟨a, b, hop, _⟩ := h.op_next
      rw [hop]
      exact ⟨rfl, rfl, fun _ _ h => by cases h⟩
    · exact terminator (last [c.next] hbody)

end Tight

end CountedLoop

/-! ## Steps inside a loop -/

namespace Machine

variable {p : Program} {limit : Nat} {cs : List Caller} {f : Func} {args : List Datum}
  {l : NaturalLoop} {i : InstId} {s t u v w : State}

/-- An activation runs in a loop. -/
def Inside (cs : List Caller) (l : NaturalLoop) (s : State) : Prop :=
  s.callers = cs ∧ s.frame.block ∈ l.blocks

theorem Inside.alive (h : Inside cs l s) : Alive cs s :=
  Nat.le_of_eq (congrArg List.length h.1.symm)

/-- An activation executes an instruction, and then again, `k` times more, without leaving a loop. -/
inductive Laps (p : Program) (limit : Nat) (cs : List Caller) (l : NaturalLoop) (i : InstId) :
    Nat → State → State → Prop where
  /-- It has just begun. -/
  | zero {t : State} : ExecutesAt cs i t → Laps p limit cs l i 0 t t
  /-- It goes on until the next time. -/
  | succ {k : Nat} {t u v w : State} : Laps p limit cs l i k t u → Advances p limit u v →
      Reaches p limit (fun x => Inside cs l x ∧ ¬ ExecutesAt cs i x) v w → ExecutesAt cs i w →
      Laps p limit cs l i (k + 1) t w

theorem Laps.executes {k : Nat} (h : Laps p limit cs l i k t w) : ExecutesAt cs i w := by
  cases h with
  | zero h => exact h
  | succ _ _ _ h => exact h

theorem ExecutesAt.alive (h : ExecutesAt cs i t) : Alive cs t :=
  Nat.le_of_eq (congrArg List.length h.1.symm)

theorem Laps.reaches {k : Nat} (h : Laps p limit cs l i k t w) : Reaches p limit (Alive cs) t w := by
  induction h with
  | zero _ => exact .refl
  | succ hk ha hr _ ih =>
    exact ih.trans (.cons hk.executes.alive ha (hr.mono fun x hx => hx.1.alive))

/-- What a step does that stays in an activation: it computes a result, or goes along an edge. -/
inductive Goes (tt : TypeTable) (f : Func) (args : List Datum) (v w : State) : Prop where
  /-- It computes a result. -/
  | computes {j : InstId} {rest : List InstId} {d : Datum} {δ : List Chunk} :
      v.frame.rest = j :: rest → j ∈ f.body v.frame.block → (f.op j).isTerminator = false →
      Computes tt (v.frame.value tt) f.tyOf (f.inst j).ty (f.op j) v.memory.regions d δ
        w.memory.regions →
      w.frame.block = v.frame.block → w.frame.rest = rest →
      w.frame.values = v.frame.values.set j d → Goes tt f args v w
  /-- It goes along an edge. -/
  | enters {j : InstId} {x : BlockId} : v.frame.rest = [j] → j ∈ f.body v.frame.block →
      (f.op j).isTerminator = true → x ∈ f.successors v.frame.block →
      (∀ k ∈ f.phis x, (phiValue tt f args (some v.frame.block) v.frame.values k).isSome) →
      w.memory = v.memory → w.frame.block = x → w.frame.rest = f.afterPhis x →
      w.frame.values = entered tt f args (some v.frame.block) x v.frame.values → Goes tt f args v w

/-- A step from inside a loop without calls stays in the activation. -/
theorem Advances.goes (ha : Advances p limit v w) (hin : InFrame p limit f args cs s v v.frame)
    (hcs : v.callers = cs) (hcall : ∀ j ∈ f.body v.frame.block, (f.op j).isCall = false)
    (hret : f.successors v.frame.block ≠ []) :
    w.callers = cs ∧ Goes p.types f args v w := by
  obtain ⟨done, hco⟩ := hin.coherent
  have hpoint := hco.point
  have hwf := hco.wellFormed
  have hlast := hco.listed_once.terminatorsLast hwf
  rw [hin.func_eq] at hpoint hwf hlast
  cases ha with
  | @plain fr j rest _ m m' n d hrest hn hplain hc =>
    refine ⟨hcs, ?_⟩
    obtain ⟨δ, hc⟩ := (Frame.compute_ok_iff hplain).mp ⟨m', hc, rfl⟩
    have hlt : j < fr.past.results.size := lt_of_lt_of_eq (hco.next_lt hrest) hco.size_eq.symm
    rw [hrest] at hpoint
    rw [Frame.value_past, Frame.func_past, hin.func_eq] at hc
    rw [hin.func_eq] at hplain
    refine .computes hrest hpoint.mem_body (Op.not_isTerminator_of_isPlain hplain) hc rfl ?_ ?_
    · exact (Frame.rest_record _ _ _).trans (Frame.rest_past hrest)
    · exact (Frame.values_record hlt d).trans (by rw [Frame.values_past])
  | @jump fr fr' j rest _ m n n' c hrest hn hl he =>
    refine ⟨hcs, ?_⟩
    rw [hrest] at hpoint
    rw [hin.func_eq] at hl
    have hterm := hl.isTerminator
    have hedge := (FlowGraph.edge_ofFunc _ _ _).mp (hwf.edge_of_point hpoint hl.mem_targets)
    obtain rfl := hlast.rest_eq_nil hpoint hterm
    obtain ⟨_, _, hready, hat⟩ := (Frame.at_self fr.past hco.size_eq).of_enter
      (fun k hk => by
        rw [Frame.func_past, hin.func_eq] at hk ⊢
        exact hwf.inst_lt hedge.2.1 (Func.mem_body_of_phis hk)) hn he
    rw [Frame.func_past, Frame.args_past, Frame.values_past, hin.func_eq, hin.args_eq] at hready hat
    exact .enters hrest hpoint.mem_body hterm hedge.2.2 hready rfl hat.block_eq hat.rest_eq
      hat.values_eq
  | @call fr _ j rest _ _ _ _ _ _ _ _ _ hrest _ hop _ _ _ _ _ =>
    rw [hrest] at hpoint
    have := hcall j hpoint.mem_body
    rw [← hin.func_eq, hop] at this
    cases this
  | @ret fr j rest _ _ _ _ _ hrest _ hl =>
    rw [hrest] at hpoint
    rw [hin.func_eq] at hl
    have ht := hwf.terminator_eq _ hpoint.live j hpoint.mem_body hl.isTerminator
    refine absurd (List.eq_nil_iff_forall_not_mem.mpr fun x hx => ?_) hret
    have hx := (Func.mem_successors_iff ht).mp hx
    generalize f.op j = op at hl hx
    cases hl <;> exact absurd hx List.not_mem_nil

/-- In a loop, two states agree on what is computed outside of the loop, and on some regions. -/
structure Since (f : Func) (l : NaturalLoop) (R : Nat → Prop) (u w : State) : Prop where
  values_eq : ∀ j, (∀ b ∈ l.blocks, j ∉ f.body b) → w.frame.values j = u.frame.values j
  regions_eq : SameOn R u.memory.regions w.memory.regions

theorem Since.refl (f : Func) (l : NaturalLoop) (R : Nat → Prop) (u : State) : Since f l R u u :=
  ⟨fun _ _ => rfl, .refl R _⟩

theorem Since.trans {R : Nat → Prop} (h : Since f l R u v) (h' : Since f l R v w) :
    Since f l R u w :=
  ⟨fun j hj => (h'.values_eq j hj).trans (h.values_eq j hj), h.regions_eq.trans h'.regions_eq⟩

end Machine

/-! ## Laps of a tight loop -/

namespace CountedLoop

namespace Tight

open Machine

variable {p : Program} {limit : Nat} {cs : List Caller} {f : Func} {args : List Datum}
  {l : NaturalLoop} {c : CountedLoop} {i : InstId} {s u v w : State} {sc : Scalar}

/-- The induction value has an integer type, which is the type of the sum. -/
theorem scalar_iv (h : Tight f l c) {tt : TypeTable} (hty : f.WellTyped tt) :
    ∃ sc, sc.isInteger = true ∧ tt.elementScalar? (f.tyOf c.iv) = some sc ∧
      tt.elementScalar? (f.inst c.next).ty = some sc := by
  have hheader := live_of_mem h.isLoop h.isLoop.header_mem
  have hlatch := live_of_mem h.isLoop (latch_mem h.isLoop h.counted)
  obtain ⟨t, hbody⟩ := h.header_body
  obtain ⟨t', hbody'⟩ := h.latch_body
  have hphi : c.induction ∈ f.body l.header := by rw [hbody]; exact List.mem_cons_self
  have hcond : c.cond ∈ f.body l.header := by
    rw [hbody]
    exact List.mem_cons_of_mem _ List.mem_cons_self
  have hnext : c.next ∈ f.body c.latch := by rw [hbody']; exact List.mem_cons_self
  obtain ⟨sc, hsc, hint⟩ := hty.isInteger_of_icmp hheader hcond h.counted.cond_op
  have hin := hty.tyOf_incoming hheader hphi h.counted.next_eq
  refine ⟨sc, hint, hsc, ?_⟩
  rw [← hsc, ← Func.tyOf_inst, hin, ← Func.tyOf_inst]
  rfl

/-- What the sum in the latch computes. -/
theorem next_result (h : Tight f l c) {tt : TypeTable} (hty : f.WellTyped tt)
    (hsc : tt.elementScalar? (f.inst c.next).ty = some sc) {ρ : Values}
    {d : Datum} (hd : pureResult tt (f.value tt args ρ) f.tyOf (f.inst c.next).ty (f.op c.next) = some d) :
    ∃ x, ρ c.induction = some (.int x) ∧ d = .int (sc.normalize (x + 1)) := by
  have hlatch := live_of_mem h.isLoop (latch_mem h.isLoop h.counted)
  obtain ⟨a, b, hop, hor⟩ := h.op_next
  obtain ⟨t', hbody'⟩ := h.latch_body
  have hnext : c.next ∈ f.body c.latch := by rw [hbody']; exact List.mem_cons_self
  obtain ⟨heq, hts⟩ := hty.binary hlatch hnext hop
  have literal : ∀ {v n}, f.intLiteral? v = some n → f.tyOf v = f.tyOf a →
      f.value tt args ρ v = some (.int (sc.normalize n)) := by
    intro v n hn hv
    rw [Func.value_of_intLiteral hn, hv, hts, hsc]
    rfl
  have hone (m : Int64) : sc.normalize (m + sc.normalize 1) = sc.normalize (m + 1) :=
    Scalar.normalize_add_congr rfl (Scalar.normalize_normalize sc 1)
  rw [hop] at hd
  simp only [pureResult, hsc] at hd
  split at hd
  · next s' x y hs' hx hy =>
    cases hs'
    have hd := toOption_eq_some.mp hd
    rcases hor with ⟨rfl, hlit⟩ | ⟨rfl, hlit⟩
    · rw [literal hlit heq.symm] at hy
      cases hy
      cases x with
      | int m =>
        refine ⟨m, hx, ?_⟩
        rw [← hone]
        exact (Except.ok.inj hd).symm
      | _ => cases hd
    · rw [literal hlit rfl] at hx
      cases hx
      cases y with
      | int m =>
        refine ⟨m, hy, ?_⟩
        rw [← hone, Int64.add_comm]
        exact (Except.ok.inj hd).symm
      | _ => cases hd
  · cases hd

/-- A step inside the loop leaves alone what is outside. -/
theorem since_of_goes (h : Tight f l c) (hf : f.WellFormed) (hr : Reaches p limit (Alive cs) s v)
    (hin : InFrame p limit f args cs s v v.frame) (hv : Inside cs l v) (hgo : Goes p.types f args v w)
    (hw : w.frame.block ∈ l.blocks) : Since f l (Quiet p limit f cs s c.bodyEntry) v w := by
  cases hgo with
  | @computes j rest d δ hrest hj hterm hc hblock hrest' hvalues =>
    obtain ⟨_, hslot, hstore⟩ := h.op_of_mem hf hv.2 hj
    refine ⟨fun k hk => ?_, Computes.sameOn hc hslot fun val ptr q hop hq hquiet => ?_⟩
    · rw [hvalues]
      refine Values.set_of_ne ?_
      rintro rfl
      exact hk _ hv.2 hj
    · refine hquiet v j val ptr q (hstore val ptr hop ▸ hj) hop ⟨hr, ⟨hv.1, ?_⟩, ?_, hq⟩ rfl
      · rw [hrest]
        rfl
      · rw [hin.func_eq, hop]
        rfl
  | enters _ _ _ _ _ hm hblock _ hvalues =>
    refine ⟨fun k hk => ?_, by rw [hm]; exact .refl _ _⟩
    rw [hvalues]
    exact entered_of_not_mem fun hphi => hk _ (hblock ▸ hw) (Func.mem_body_of_phis hphi)

/-- Where a lap is that began with an execution of an instruction: before the latch has counted,
the induction value is the old one, and after that it is one more. -/
inductive Phase (f : Func) (c : CountedLoop) (sc : Scalar) (i : InstId) (ρ : Values) (fr : Frame) :
    Prop where
  | old : (fr.block = c.latch ∨ fr.block = c.bodyEntry ∧ i ∉ fr.rest) →
      fr.values c.induction = ρ c.induction → Phase f c sc i ρ fr
  | new {x : Int64} : (fr.block = c.header ∨ fr.block = c.bodyEntry ∧ i ∈ fr.rest) →
      ρ c.induction = some (.int x) →
      fr.values c.induction = some (.int (sc.normalize (x + 1))) → Phase f c sc i ρ fr

/-- A step inside the loop that is not yet the next execution. -/
theorem phase_of_goes (h : Tight f l c) (hty : f.WellTyped p.types)
    (hsc : p.types.elementScalar? (f.inst c.next).ty = some sc)
    (hin : InFrame p limit f args cs s v v.frame) (hv : Inside cs l v) (hgo : Goes p.types f args v w)
    (hw : w.frame.block ∈ l.blocks) (hi : i ∈ f.body c.bodyEntry)
    (hterm : (f.op i).isTerminator = false) (hne : ¬ ExecutesAt cs i v) {ρ : Values}
    (hph : Phase f c sc i ρ v.frame) : Phase f c sc i ρ w.frame := by
  obtain ⟨done, hco⟩ := hin.coherent
  have hpoint := hco.point
  have hcur := hco.current
  rw [hin.func_eq] at hpoint hcur
  have hheader := h.counted.header_eq
  have hbody : f.afterPhis c.bodyEntry = f.body c.bodyEntry := by
    rw [← f.phis_append_afterPhis c.bodyEntry, h.phis_bodyEntry, List.nil_append]
  cases hgo with
  | @computes j rest d δ hrest hj hjterm hc hblock hrest' hvalues =>
    have hji : j ≠ i := by
      rintro rfl
      exact hne ⟨hv.1, by rw [hrest]; rfl⟩
    have hmem : i ∈ v.frame.rest ↔ i ∈ rest := by
      rw [hrest, List.mem_cons]
      exact ⟨fun hor => hor.resolve_left (Ne.symm hji), .inr⟩
    have hiv : w.frame.values c.induction = v.frame.values c.induction := by
      rw [hvalues]
      refine Values.set_of_ne ?_
      rintro rfl
      have hphi := Func.isPhi_of_mem_phis (h.counted.phis_eq ▸ List.mem_singleton_self c.induction)
      have := hpoint.not_isPhi _ (hrest ▸ List.mem_cons_self)
      cases this.symm.trans hphi
    cases hph with
    | old hor hval =>
      rw [hmem, ← hblock, ← hrest'] at hor
      exact .old hor (hiv.trans hval)
    | new hor hx hval =>
      rw [hmem, ← hblock, ← hrest'] at hor
      exact .new hor hx (hiv.trans hval)
  | @enters j x hrest hj hjterm hx hready hm hblock hrest' hvalues =>
    have hji : i ∉ v.frame.rest := by
      rw [hrest, List.mem_singleton]
      rintro rfl
      cases hterm.symm.trans hjterm
    have same : f.phis x = [] → w.frame.values = v.frame.values := by
      intro hphis
      rw [hvalues, entered_of_nil hphis]
    cases hph with
    | old hor hval =>
      rcases hor with hb | ⟨hb, _⟩
      · -- From the latch to the header, the phi takes the sum.
        rw [hb] at hx hready hvalues hpoint hj
        obtain rfl := h.latch_successor x hx
        obtain ⟨d, hd⟩ := Option.isSome_iff_exists.mp
          (hready c.induction (h.counted.phis_eq ▸ List.mem_singleton_self _))
        have hd' : v.frame.values c.next = some d := by
          rw [phiValue, Option.bind_some, h.counted.next_eq] at hd
          exact hd
        have hdone : c.next ∈ done := by
          have hmem : c.next ∈ f.body c.latch := by
            obtain ⟨t, ht⟩ := h.latch_body
            rw [ht]
            exact List.mem_cons_self
          rw [hpoint.body_eq, hrest] at hmem
          refine (List.mem_append.mp hmem).resolve_right fun hlast => ?_
          obtain ⟨a, b, hop, _⟩ := h.op_next
          rw [← List.mem_singleton.mp hlast, hop] at hjterm
          cases hjterm
        have hpure : (f.op c.next).isPure = true := by
          obtain ⟨a, b, hop, _⟩ := h.op_next
          rw [hop]
          rfl
        have hres := hcur c.next (.inl hdone) hpure d hd'
        have hvalue : v.frame.value p.types = f.value p.types args v.frame.values := by
          unfold Frame.value
          rw [hin.func_eq, hin.args_eq]
        rw [hvalue] at hres
        obtain ⟨y, hy, rfl⟩ := h.next_result hty hsc hres
        refine .new (.inl (hblock.trans hheader.symm)) (hval.symm.trans hy) ?_
        rw [hvalues, entered_of_single h.counted.phis_eq hd, Values.set_self]
      · rw [hb] at hx
        obtain rfl := h.bodyEntry_successor x hx
        exact .old (.inl hblock) ((congrFun (same h.phis_latch) _).trans hval)
    | @new y hor hy hval =>
      rcases hor with hb | ⟨_, hmem⟩
      · rw [hb, hheader] at hx
        rcases (header_successors h.counted).mp hx with rfl | rfl
        · refine .new (.inr ⟨hblock, ?_⟩) hy ((congrFun (same h.phis_bodyEntry) _).trans hval)
          rw [hrest', hbody]
          exact hi
        · exact absurd (hblock ▸ hw) h.counted.exit_out
      · exact absurd hmem hji

section

variable (h : Tight f l c) (hf : f.WellFormed) (ho : f.ListedOnce) (hl : f.UsesListed)
  (hty : f.WellTyped p.types) {m : Memory} {n : Nat} (hn : n ≤ limit)
  (hs : invoke p limit f args cs m n = .next s)
  (hsc : p.types.elementScalar? (f.inst c.next).ty = some sc) (hi : i ∈ f.body c.bodyEntry)
  (hterm : (f.op i).isTerminator = false)
include h hf ho hl hn hs hi

/-- An instruction of the block is executed in the block. -/
theorem block_of_executes (hu : Reaches p limit (Alive cs) s u) (hex : ExecutesAt cs i u) :
    Inside cs l u ∧ u.frame.block = c.bodyEntry := by
  obtain ⟨done, hco⟩ := ((active_of_reaches hf ho hl hn hs hu hex.alive).inFrame hex.1).coherent
  have hfunc := ((active_of_reaches hf ho hl hn hs hu hex.alive).inFrame hex.1).func_eq
  obtain ⟨rest, hrest⟩ := List.head?_eq_some_iff.mp hex.2
  have hpoint := hco.point
  rw [hrest, hfunc] at hpoint
  have hlive := live_of_mem h.isLoop h.counted.bodyEntry_mem
  have heq : u.frame.block = c.bodyEntry := Option.some.inj
    ((hf.owner_eq _ hpoint.live i hpoint.mem_body).symm.trans (hf.owner_eq _ hlive i hi))
  exact ⟨⟨hex.1, heq ▸ h.counted.bodyEntry_mem⟩, heq⟩

include hty hsc hterm

/-- From one execution of an instruction of the block to the next. -/
theorem lap (hu : Reaches p limit (Alive cs) s u) (hex : ExecutesAt cs i u)
    (ha : Advances p limit u v)
    (hr : Reaches p limit (fun x => Inside cs l x ∧ ¬ ExecutesAt cs i x) v w)
    (hex' : ExecutesAt cs i w) : Since f l (Quiet p limit f cs s c.bodyEntry) u w ∧
    ∃ x, u.frame.values c.induction = some (.int x) ∧
      w.frame.values c.induction = some (.int (sc.normalize (x + 1))) := by
  have frame : ∀ {x}, Reaches p limit (Alive cs) s x → Inside cs l x →
      InFrame p limit f args cs s x x.frame := fun hx hxin =>
    (active_of_reaches hf ho hl hn hs hx hxin.alive).inFrame hxin.1
  have goes : ∀ {x y}, Reaches p limit (Alive cs) s x → Inside cs l x → Advances p limit x y →
      y.callers = cs ∧ Goes p.types f args x y := fun hx hxin hay =>
    hay.goes (frame hx hxin) hxin.1 (fun j hj => (h.op_of_mem hf hxin.2 hj).1)
      (successors_ne_nil h.isLoop h.counted hxin.2)
  obtain ⟨huin, hub⟩ := h.block_of_executes hf ho hl hn hs hi hu hex
  have hv : Reaches p limit (Alive cs) s v := .snoc hu hex.alive ha
  obtain ⟨hvcs, hgo⟩ := goes hu huin ha
  -- The instruction is not listed again.
  have hold : v.frame.block = c.bodyEntry ∧ Phase f c sc i u.frame.values v.frame := by
    obtain ⟨done, hco⟩ := (frame hu huin).coherent
    have hfunc := (frame hu huin).func_eq
    have hpoint := hco.point
    rw [hfunc] at hpoint
    obtain ⟨rest, hrest⟩ := List.head?_eq_some_iff.mp hex.2
    have hnodup := ho _ hpoint.live
    rw [hpoint.body_eq, hrest] at hnodup
    have hnot := (List.nodup_cons.mp (List.nodup_append.mp hnodup).2.1).1
    cases hgo with
    | @computes j rest' d δ hrest' hj hjterm hc hblock hrest'' hvalues =>
      obtain ⟨rfl, rfl⟩ := List.cons.inj (hrest.symm.trans hrest')
      refine ⟨hblock.trans hub, .old (.inr ⟨hblock.trans hub, hrest'' ▸ hnot⟩) ?_⟩
      rw [hvalues]
      refine Values.set_of_ne ?_
      intro heq
      have hphi := Func.isPhi_of_mem_phis (h.counted.phis_eq ▸ List.mem_singleton_self c.induction)
      rw [heq] at hphi
      cases (h.plain _ hi).1.symm.trans hphi
    | enters hrest' _ hjterm _ _ _ _ _ _ =>
      obtain ⟨rfl, _⟩ := List.cons.inj (hrest.symm.trans hrest')
      cases hterm.symm.trans hjterm
  have hvin : Inside cs l v := ⟨hvcs, hold.1 ▸ h.counted.bodyEntry_mem⟩
  have hinv := hr.invariant
    (motive := fun x => x.callers = cs ∧ (x.frame.block ∈ l.blocks →
      Since f l (Quiet p limit f cs s c.bodyEntry) u x ∧ Phase f c sc i u.frame.values x.frame))
    ⟨hvcs, fun _ => ⟨h.since_of_goes hf hu (frame hu huin) huin hgo hvin.2, hold.2⟩⟩ ?_
  · obtain ⟨hwin, hwb⟩ := h.block_of_executes hf ho hl hn hs hi
      (hv.trans (hr.mono fun x hx => hx.1.alive)) hex'
    obtain ⟨hsince, hph⟩ := hinv.2 hwin.2
    refine ⟨hsince, ?_⟩
    obtain ⟨rest, hrest⟩ := List.head?_eq_some_iff.mp hex'.2
    cases hph with
    | old hor _ =>
      rcases hor with hb | ⟨_, hnot⟩
      · exact absurd (hwb.symm.trans hb) h.bodyEntry_ne_latch
      · exact absurd (hrest ▸ List.mem_cons_self) hnot
    | new _ hx hval => exact ⟨_, hx, hval⟩
  · rintro x y hx hok hay ⟨_, ih⟩
    have hx' : Reaches p limit (Alive cs) s x := hv.trans (hx.mono fun x hx => hx.1.alive)
    obtain ⟨hycs, hgo⟩ := goes hx' hok.1 hay
    obtain ⟨hsince, hph⟩ := ih hok.1.2
    exact ⟨hycs, fun hy => ⟨hsince.trans (h.since_of_goes hf hx' (frame hx' hok.1) hok.1 hgo hy),
      h.phase_of_goes hty hsc (frame hx' hok.1) hok.1 hgo hy hi hterm hok.2 hph⟩⟩

/-- Some laps later, the induction value is that many more, and what is outside is as it was. -/
theorem laps {k : Nat} (hu : Reaches p limit (Alive cs) s u) (hk : Laps p limit cs l i k u w) :
    Since f l (Quiet p limit f cs s c.bodyEntry) u w ∧ (k = 0 ∧ w = u ∨
      ∃ x y, u.frame.values c.induction = some (.int x) ∧
        w.frame.values c.induction = some (.int y) ∧ sc.normalize y = y ∧
        sc.normalize y = sc.normalize (x + Int64.ofNat k)) := by
  induction hk with
  | zero _ => exact ⟨.refl _ _ _ _, .inl ⟨rfl, rfl⟩⟩
  | @succ k u u' v w hk ha hr hex ih =>
    obtain ⟨hsince, hor⟩ := ih hu
    obtain ⟨hsince', y, hy, hval⟩ := h.lap hf ho hl hty hn hs hsc hi hterm
      (hu.trans hk.reaches) hk.executes ha hr hex
    have hone : Int64.ofNat (k + 1) = Int64.ofNat k + 1 := Int64.ofNat_add k 1
    have hnorm : sc.normalize (sc.normalize (y + 1)) = sc.normalize (y + 1) :=
      Scalar.normalize_normalize sc _
    refine ⟨hsince.trans hsince', .inr ?_⟩
    rcases hor with ⟨rfl, rfl⟩ | ⟨x, y', hx, hy', _, heq⟩
    · exact ⟨y, _, hy, hval, hnorm, hnorm⟩
    · obtain rfl : y = y' := Datum.int.inj (Option.some.inj (hy.symm.trans hy'))
      refine ⟨x, _, hx, hval, hnorm, ?_⟩
      rw [hnorm, hone, ← Int64.add_assoc]
      exact Scalar.normalize_add_congr heq rfl

end

end Tight

end CountedLoop

/-! ## Computing laps -/

/-- The state in which a run goes on. -/
def Transition.state? : Transition → Option State
  | .next s => some s
  | .halt _ => none

theorem Transition.state?_eq_some {x : Transition} {s : State} :
    x.state? = some s ↔ x = .next s := by
  cases x <;> simp [state?]

namespace Machine

variable {p : Program} {limit : Nat} {l : NaturalLoop} {i : InstId} {s t u w : State}

/-- The state after some steps, if the states before it pass a check. -/
def follow (p : Program) (limit : Nat) (ok : State → Bool) : Nat → State → Option State
  | 0, s => some s
  | n + 1, s => do
    guard (ok s)
    let t ← (step p limit s).state?
    follow p limit ok n t

/-- The pointer through which a state of an outermost activation accesses memory. -/
def access? (p : Program) (i : InstId) (t : State) : Option (Operand × Pointer) := do
  guard (t.callers.isEmpty && t.frame.rest.head? == some i)
  let ptr ← (t.frame.func.op i).pointer?
  let d ← t.frame.value p.types ptr
  let q ← d.asPtr.toOption
  return (ptr, q)

/-- The state some steps later, if it executes an instruction of a loop again and none of the states
in between does or leaves the loop. -/
def nextLap (p : Program) (limit : Nat) (l : NaturalLoop) (i : InstId) (n : Nat) (u : State) :
    Option State := do
  let v ← (step p limit u).state?
  let w ← follow p limit (fun x => x.callers.isEmpty && l.contains x.frame.block &&
    x.frame.rest.head? != some i) n v
  guard (w.callers.isEmpty && w.frame.rest.head? == some i)
  return w

theorem reaches_of_follow {ok : State → Bool} : ∀ {n : Nat} {s t : State},
    follow p limit ok n s = some t → Reaches p limit (fun x => ok x = true) s t
  | 0, s, t, h => by
    cases h
    exact .refl
  | n + 1, s, t, h => by
    unfold follow at h
    obtain ⟨_, hok, h⟩ := Option.bind_eq_some_iff.mp h
    obtain ⟨u, hu, h⟩ := Option.bind_eq_some_iff.mp h
    have hok : ok s = true := by simpa [guard] using hok
    exact .cons hok (step_eq_next_iff.mp (Transition.state?_eq_some.mp hu)) (reaches_of_follow h)

theorem access?_eq_some {ptr : Operand} {q : Pointer} (h : access? p i t = some (ptr, q)) :
    ExecutesAt [] i t ∧ (t.frame.func.op i).pointer? = some ptr ∧
      t.frame.value p.types ptr = some (.ptr q) := by
  unfold access? at h
  obtain ⟨_, hex, h⟩ := Option.bind_eq_some_iff.mp h
  obtain ⟨ptr', hptr, h⟩ := Option.bind_eq_some_iff.mp h
  obtain ⟨d, hd, h⟩ := Option.bind_eq_some_iff.mp h
  obtain ⟨q', hq, h⟩ := Option.bind_eq_some_iff.mp h
  cases h
  obtain rfl := Datum.asPtr_eq_ok.mp (toOption_eq_some.mp hq)
  have hex : t.callers = [] ∧ t.frame.rest.head? = some i := by simpa [guard] using hex
  exact ⟨hex, hptr, hd⟩

theorem accesses_of_follow {n : Nat} {ptr : Operand} {q : Pointer}
    (h : follow p limit (fun _ => true) n s = some t) (ht : access? p i t = some (ptr, q)) :
    Accesses p limit [] s t i ptr q := by
  obtain ⟨hex, hptr, hd⟩ := access?_eq_some ht
  exact ⟨(reaches_of_follow h).mono fun _ _ => Nat.zero_le _, hex, hptr, hd⟩

theorem Laps.next {k n : Nat} (h : Laps p limit [] l i k t u)
    (hw : nextLap p limit l i n u = some w) : Laps p limit [] l i (k + 1) t w := by
  unfold nextLap at hw
  obtain ⟨v, hv, hw⟩ := Option.bind_eq_some_iff.mp hw
  obtain ⟨w', hfollow, hw⟩ := Option.bind_eq_some_iff.mp hw
  obtain ⟨_, hex, heq⟩ := Option.bind_eq_some_iff.mp hw
  cases heq
  have hex : w.callers = [] ∧ w.frame.rest.head? = some i := by simpa [guard] using hex
  refine .succ h (step_eq_next_iff.mp (Transition.state?_eq_some.mp hv)) ?_ hex
  refine (reaches_of_follow hfollow).mono fun x hx => ?_
  simp only [Bool.and_eq_true, List.isEmpty_iff, bne_iff_ne, NaturalLoop.contains,
    List.contains_iff_mem] at hx
  exact ⟨hx.1, fun hx' => hx.2 hx'.2⟩

end Machine

end LoopNest
