import LoopNest.Proofs.Graph.Forest
import LoopNest.Proofs.Graph.Innermost
import LoopNest.Proofs.Vectorize.Framed
import LoopNest.Proofs.Vectorize.Preamble
import LoopNest.Proofs.Vectorize.Shapes
import LoopNest.Proofs.Vectorize.Untouched

/-!
# The other innermost loops

Vectorizing an innermost loop leaves the others alone (`untouched_of_inserts`, `Beside.untouched`).
They share no block with it, and no block of theirs leads to it: the blocks that do are its own and
its preheader, which is in no other innermost loop.

What another loop computes may be used by the loop that is vectorized.  If that is erased, the
vector loop still uses it, so a value that was used after the other loop is used after it still
(`Beside.used`).  This needs that a branch with a condition has two targets: else the erased loop
could use a value in a branch that decides nothing.

A value stays invariant unless it was computed in the loop that is erased.  Here the order counts in
which the pass goes through the loops: the header of the vectorized loop must not dominate the other
loop.
-/

namespace LoopNest

open Func FlowGraph

namespace Func

/-- No branch has one block as both targets. -/
def DistinctTargets (f : Func) : Prop := ∀ b ∈ f.layout, ∀ i ∈ f.body b, (f.op i).targets.Nodup

instance (f : Func) : Decidable f.DistinctTargets := by
  unfold DistinctTargets
  infer_instance

variable {f : Func} {b y : BlockId} {t : InstId}

/-- A terminator that leads to one block only decides nothing. -/
theorem DistinctTargets.operands_eq_nil (hd : f.DistinctTargets) (hb : b ∈ f.layout)
    (ht : f.terminator? b = some t) (hne : f.successors b ≠ [])
    (hs : ∀ x ∈ f.successors b, x = y) : (f.op t).operands = [] := by
  have hnodup := hd b hb t (mem_body_of_terminator ht).1
  simp only [mem_successors_iff ht] at hs
  obtain ⟨x, hx⟩ := List.exists_mem_of_ne_nil _ hne
  rw [mem_successors_iff ht] at hx
  cases hop : f.op t with
  | br _ => rfl
  | condBr c x y =>
    simp only [hop, Op.targets, List.mem_cons, List.not_mem_nil, or_false] at hs hnodup
    have heq : x = y := (hs x (.inl rfl)).trans (hs y (.inr rfl)).symm
    simp [heq] at hnodup
  | _ =>
    rw [hop] at hx
    exact absurd hx List.not_mem_nil

end Func

namespace CountedLoop

variable {f : Func} {l : NaturalLoop} {c : CountedLoop} {b : BlockId} {i u : InstId}

/-- The induction value is the start or was computed in the latch. -/
theorem IsCounted.operand_cases (hf : f.Framed) (hl : IsLoop (.ofFunc f) l) (hc : c.IsCounted f l)
    {v : Operand} (hv : v ∈ (f.op c.induction).operands) : v = c.start ∨ v = .inst c.next := by
  obtain ⟨incoming, hop, hstart⟩ := mem_of_incoming? hc.start_eq
  obtain ⟨incoming', hop', hnext⟩ := mem_of_incoming? hc.next_eq
  obtain rfl : incoming = incoming' := Op.phi.inj (hop.symm.trans hop')
  have hphi : c.induction ∈ f.phis l.header := by simp [hc.phis_eq]
  obtain ⟨hnodup, hsources⟩ :=
    hf.phi_sources _ (live_of_mem hl hl.header_mem) _ (mem_body_of_phis hphi) incoming hop
  rw [hop] at hv
  obtain ⟨e, he, rfl⟩ := List.mem_map.mp hv
  have hpred := (hsources e.2).mp (List.mem_map_of_mem he)
  by_cases hmem : e.2 ∈ l.blocks
  · have heq : e.2 = c.latch := eq_latch hl hc hmem ((f.mem_predecessors _ _).mp hpred).2
    rw [List.inj_on_of_nodup_map hnodup he hnext heq]
    exact .inr rfl
  · have heq : e.2 = c.preheader := hc.eq_preheader _ hpred hmem
    rw [List.inj_on_of_nodup_map hnodup he hstart heq]
    exact .inl rfl

/-- A loop that counts uses values from outside as its start and its bound and in its body. -/
theorem Tight.use_cases (ht : c.Tight f l) (hf : f.Framed) (hd : f.DistinctTargets)
    (hout : ∀ d ∈ l.blocks, i ∉ f.body d) (hb : b ∈ l.blocks) (hu : u ∈ f.body b)
    (hi : Operand.inst i ∈ (f.op u).operands) : Operand.inst i = c.start ∨
      Operand.inst i = c.bound ∨ u ∈ (f.body c.bodyEntry).dropLast := by
  have hl := ht.isLoop
  have hc := ht.counted
  have hlive := live_of_mem hl hb
  obtain ⟨n, hlatchBody⟩ := ht.latch_body
  obtain ⟨t, hheaderBody⟩ := ht.header_body
  have hne {d : BlockId} {j : InstId} (hd : d ∈ l.blocks) (hj : j ∈ f.body d) :
      Operand.inst i ≠ .inst j := fun heq => hout d hd (Operand.inst.inj heq ▸ hj)
  have hiv : Operand.inst i ≠ c.iv := hne hl.header_mem (hheaderBody ▸ List.mem_cons_self)
  have hnext : Operand.inst i ≠ .inst c.next :=
    hne (latch_mem hl hc) (hlatchBody ▸ List.mem_cons_self)
  -- Only the header has a branch that decides something.
  have hdecides {x : BlockId} (hs : ∀ y ∈ f.successors b, y = x) : f.terminator? b ≠ some u := by
    intro hterm
    rw [hd.operands_eq_nil hlive hterm (successors_ne_nil hl hc hb) hs] at hi
    exact absurd hi List.not_mem_nil
  rcases ht.mem_blocks b hb with rfl | rfl | rfl
  · have hcond : c.cond ∈ f.body l.header := by simp [hheaderBody]
    rcases hf.mem_dropLast_or hlive hu with hfront | hterm
    · simp only [hheaderBody, List.dropLast_cons_cons, List.dropLast_singleton, List.mem_cons,
        List.not_mem_nil, or_false] at hfront
      rcases hfront with rfl | rfl
      · exact (hc.operand_cases hf hl hi).imp_right fun heq => absurd heq hnext
      · simp only [hc.cond_op, Op.operands, List.mem_cons, List.not_mem_nil, or_false] at hi
        exact .inr (.inl (hi.resolve_left hiv))
    · obtain ⟨t', hterm', hop⟩ := hc.exitBranch
      obtain rfl := Option.some.inj (hterm.symm.trans hterm')
      rw [hop] at hi
      exact absurd (List.mem_singleton.mp hi) (hne hl.header_mem hcond)
  · have hfront := (hf.mem_dropLast_or hlive hu).resolve_right (hdecides ht.bodyEntry_successor)
    exact .inr (.inr hfront)
  · have hfront := (hf.mem_dropLast_or hlive hu).resolve_right (hdecides ht.latch_successor)
    simp only [hlatchBody, List.dropLast_cons_cons, List.dropLast_singleton,
      List.mem_singleton] at hfront
    subst hfront
    obtain ⟨x, y, hop, hadd⟩ := op_of_addedConstant? hc.next_op
    have hliteral {v : Operand} (hv : f.intLiteral? v = some c.step) : Operand.inst i ≠ v := by
      rintro rfl
      cases hv
    simp only [hop, Op.operands, List.mem_cons, List.not_mem_nil, or_false] at hi
    rcases hadd with ⟨rfl, hy⟩ | ⟨rfl, hx⟩
    · exact absurd hi (not_or.mpr ⟨hiv, hliteral hy⟩)
    · exact absurd hi (not_or.mpr ⟨hliteral hx, hiv⟩)

end CountedLoop

namespace Vectorize

variable {l k : NaturalLoop} {p : VectorPlan} {n : VectorLoop} {f g : Func} {b x y : BlockId}

theorem Inserts.grown (hi : Inserts b f g) : f.Grown g where
  toKeepsTypes := hi.toBelow.keepsTypes
  params_eq := hi.params_eq
  constant_eq := hi.constant_eq
  size_le := hi.size_le
  blocks_size_le := Nat.le_of_eq hi.blocks_size_eq.symm
  op_stays _ hlt := .inl (hi.op_eq hlt)
  owner_of _ hlt _ hc := hi.owner_eq hlt ▸ hc

/-- Code before a terminator outside of the loop. -/
theorem untouched_of_inserts {known : Operand → Prop} (hi : Inserts b f g) (hf : f.Framed)
    (hknown : f.Closed known) (hk : IsLoop (.ofFunc f) k) (hout : b ∉ k.blocks) :
    Untouched known f g k := by
  have hne {c : BlockId} (hc : c ∈ k.blocks) : c ≠ b := fun heq => hout (heq ▸ hc)
  have hop {c : BlockId} (hc : c ∈ f.layout) {i : InstId} (hic : i ∈ f.body c) :
      g.op i = f.op i := hi.op_eq (hf.inst_lt hc hic)
  have hlive {c : BlockId} (hc : c ∈ k.blocks) : c ∈ f.layout := CountedLoop.live_of_mem hk hc
  have howner (c : BlockId) (hc : c ≠ b) (i : InstId) :
      g.owner i = some c ↔ f.owner i = some c := by
    by_cases hlt : i < f.insts.size
    · rw [hi.owner_eq hlt]
    · constructor
      · intro hown
        have hb := (hi.mem_new i (Nat.le_of_not_lt hlt) (owner_lt hown)).2
        exact absurd (Option.some.inj (hown.symm.trans hb)) hc
      · exact fun hown => absurd (owner_lt hown) hlt
  constructor
  case toSameCode =>
    exact ⟨Inserts.grown hi, fun c hc => hi.body_eq c (hne hc),
      fun c hc i hic => hop (hlive hc) hic⟩
  case owner_iff => exact fun c hc i => howner c (hne hc) i
  case predecessors_eq => exact hi.predecessors_eq hf _
  case entered => exact fun c hc => hi.successors_eq hf ((f.mem_predecessors c _).mp hc).1
  case dedicated =>
    intro e _ hg
    rwa [hi.predecessors_eq hf] at hg
  case exit_phis =>
    intro e he
    obtain ⟨⟨c, hc, hs⟩, _⟩ := NaturalLoop.mem_exits.mp he
    exact hi.phis_eq hf (hf.successor_live c (hlive hc) e hs)
  case used =>
    intro c hc i hic huse
    obtain ⟨d, hd, hdout, u, hu, hmem⟩ := hf.usedOutside_iff.mp huse
    refine (hi.framed hf).usedOutside_iff.mpr ⟨d, hi.layout_eq ▸ hd, hdout, u, ?_, ?_⟩
    · exact hi.mem_body hf hd hu
    · exact hop hd hu ▸ hmem
  case unmarked => exact fun h => hi.vectorized_eq _ ▸ h
  case invariant_eq =>
    intro v hv
    rw [hi.ofFunc_eq hf]
    cases v with
    | inst j => simp only [NaturalLoop.isInvariant, hi.owner_eq (hknown.lt hv)]
    | param _ => rfl
    | const _ => rfl

namespace Splicing

variable (h : Splicing l p n f g)

include h

theorem grown : f.Grown g := by
  refine ⟨h.keepsTypes, h.params_eq, h.constant_eq, h.size_le, h.blocks_size_le, h.op_stays, ?_⟩
  exact h.owner_of

/-- Outside of the loop only the preheader leads to another block. -/
theorem op_eq_of_not_mem (hb : b ∈ f.layout) (hout : b ∉ l.blocks) (hne : b ≠ p.loop.preheader)
    {i : InstId} (hi : i ∈ f.body b) : g.op i = f.op i := by
  rcases h.op_cases ⟨hb, fun _ => hout⟩ hi with ⟨_, heq⟩ | ⟨heq, _⟩ | ⟨_, _, _, heq, _⟩
  · exact heq
  · exact absurd heq hne
  · exact absurd (heq ▸ h.shape.isLoop.header_mem) hout

/-- Kept blocks are selected in the same order. -/
theorem filter_congr {q q' : BlockId → Bool}
    (hmem : ∀ x, x ∈ g.layout.filter q ↔ x ∈ f.layout.filter q')
    (hkept : ∀ x ∈ f.layout.filter q', Kept l n f x) : g.layout.filter q = f.layout.filter q' := by
  generalize hxs : f.layout.filter q' = xs at hmem hkept
  have hnew : g.layout.filter q = g.layout.filter fun x => x ∈ xs :=
    LoopForest.eq_filter_of_mem_iff rfl fun x _ => hmem x
  have hold : xs = f.layout.filter fun x => x ∈ xs :=
    LoopForest.eq_filter_of_mem_iff hxs.symm fun x _ => Iff.rfl
  refine hnew.trans (Eq.trans (h.filter_eq _ (fun x hx => ?_) fun x hx => ?_) hold.symm)
  · exact decide_eq_false fun hp => h.not_mem_of_kept (hkept x hp) hx
  · exact decide_eq_false fun hp => (kept_iff.mp (hkept x hp)).2 hx

theorem predecessors_eq (hb : Kept l n f b) (hh : b ≠ l.header) (he : b ≠ p.loop.exit) :
    g.predecessors b = f.predecessors b := by
  refine h.filter_congr (fun x => h.mem_predecessors_kept hb hh he) fun x hx => ?_
  obtain ⟨hlive, hs⟩ := (f.mem_predecessors x b).mp hx
  refine ⟨hlive, fun hm hin => ?_⟩
  rcases CountedLoop.mem_of_successor h.counted hin hs with hin | ⟨_, heq⟩
  · exact hb.2 hm hin
  · exact he heq

end Splicing

/-- A loop that is vectorized, and another innermost loop. -/
structure Beside (l k : NaturalLoop) (p : VectorPlan) (n : VectorLoop) (f g : Func) : Prop where
  splicing : Splicing l p n f g
  innermost : Innermost (.ofFunc f) l
  other : Innermost (.ofFunc f) k
  header_ne : k.header ≠ l.header

namespace Beside

variable (h : Beside l k p n f g)

include h

theorem not_mem (hb : b ∈ k.blocks) : b ∉ l.blocks := h.other.disjoint h.innermost h.header_ne hb

theorem live (hb : b ∈ k.blocks) : b ∈ f.layout := CountedLoop.live_of_mem h.other.isLoop hb

theorem kept (hb : b ∈ k.blocks) : Kept l n f b := ⟨h.live hb, fun _ => h.not_mem hb⟩

/-- The preheader leads out of the other loop. -/
theorem ne_preheader (hb : b ∈ k.blocks) : b ≠ p.loop.preheader := by
  rintro rfl
  obtain ⟨c, hc, he⟩ := h.other.isLoop.exists_successor hb
  have hs := ((edge_ofFunc f _ c).mp he).2.2
  rw [h.splicing.counted.preheader_succ, List.mem_singleton] at hs
  exact h.not_mem hc (hs ▸ h.splicing.shape.isLoop.header_mem)

/-- No block of the other loop leads to the loop, or to its exit. -/
theorem successor_out (hb : b ∈ k.blocks) (hs : y ∈ f.successors b) :
    y ∉ l.blocks ∧ y ≠ p.loop.exit := by
  have hpred := (f.mem_predecessors b y).mpr ⟨h.live hb, hs⟩
  have hout := h.not_mem hb
  refine ⟨fun hy => ?_, fun hy => hout (h.splicing.counted.exit_pred b (hy ▸ hpred))⟩
  by_cases hyh : y = l.header
  · exact h.ne_preheader hb (h.splicing.counted.eq_preheader b (hyh ▸ hpred) hout)
  · exact hout (h.splicing.singleEntry l h.splicing.shape.isLoop y hy hyh b hpred)

/-- Where a block of the other loop leads, control comes from the same blocks. -/
theorem successor_predecessors_eq (hb : b ∈ k.blocks) (hs : y ∈ f.successors b) :
    Kept l n f y ∧ g.predecessors y = f.predecessors y := by
  obtain ⟨hout, hexit⟩ := h.successor_out hb hs
  have hk : Kept l n f y := ⟨h.splicing.framed.successor_live b (h.live hb) y hs, fun _ => hout⟩
  refine ⟨hk, h.splicing.predecessors_eq hk (fun heq => ?_) hexit⟩
  exact hout (heq ▸ h.splicing.shape.isLoop.header_mem)

/-- A block that leads to the other loop is outside of the loop. -/
theorem predecessor_out (hb : b ∈ f.predecessors k.header) :
    b ∈ f.layout ∧ b ∉ l.blocks ∧ b ≠ p.loop.preheader := by
  obtain ⟨hlive, hs⟩ := (f.mem_predecessors b _).mp hb
  have hheader := h.not_mem h.other.isLoop.header_mem
  refine ⟨hlive, fun hmem => ?_, ?_⟩
  · rcases CountedLoop.mem_of_successor h.splicing.counted hmem hs with hin | ⟨_, heq⟩
    · exact hheader hin
    · obtain ⟨q, hq⟩ := List.exists_mem_of_ne_nil _ h.other.isLoop.latches_ne
      have he := ((h.other.isLoop.mem_latches q).mp hq).1
      exact (h.successor_out (h.other.isLoop.latch_mem hq) ((edge_ofFunc f q _).mp he).2.2).2 heq
  · rintro rfl
    rw [h.splicing.counted.preheader_succ, List.mem_singleton] at hs
    exact h.header_ne hs

theorem sameCode : SameCode f g k where
  toGrown := h.splicing.grown
  body_eq _ hb := h.splicing.body_eq _ (h.kept hb)
  op_eq _ hb _ hi := h.splicing.op_eq_of_not_mem (h.live hb) (h.not_mem hb) (h.ne_preheader hb) hi

theorem owner_iff (hb : b ∈ k.blocks) (i : InstId) : g.owner i = some b ↔ f.owner i = some b := by
  constructor
  · intro hown
    by_cases hlt : i < f.insts.size
    · exact h.splicing.owner_of i hlt b hown
    · obtain ⟨d, hd, hi⟩ := h.splicing.mem_new i (Nat.le_of_not_lt hlt) (owner_lt hown)
      have hd' := h.splicing.framed_spliced.owner_eq d (h.splicing.live_of_new hd) i hi
      obtain rfl := Option.some.inj (hown.symm.trans hd')
      exact absurd hd (h.splicing.not_mem_of_kept (h.kept hb))
  · exact fun hown => h.splicing.owner_stays i b hown (kept_iff.mp (h.kept hb)).2

/-- A value of the other loop that was used after it is used after it still. -/
theorem used (ht : p.loop.Tight f l) (hd : f.DistinctTargets)
    (hsteps : p.steps.map Prod.fst = (f.body p.loop.bodyEntry).dropLast)
    (hbound : n.blocks.middle = none → ∀ i, p.loop.bound ≠ .inst i) {i : InstId}
    (hb : b ∈ k.blocks) (hi : i ∈ f.body b) (huse : f.usedOutside k.contains i = true) :
    g.usedOutside k.contains i = true := by
  have hs := h.splicing
  have hf := hs.framed
  obtain ⟨d, hdlive, hdout, u, hu, hmem⟩ := hf.usedOutside_iff.mp huse
  have hnot (c : BlockId) (hc : c ∈ l.blocks) : i ∉ f.body c := fun hic => by
    have hown := hf.owner_eq b (h.live hb) i hi
    rw [hf.owner_eq c (CountedLoop.live_of_mem hs.shape.isLoop hc) i hic] at hown
    exact h.not_mem hb (Option.some.inj hown ▸ hc)
  have hnew {c : BlockId} (hc : c ∈ n.blocks.all) {j : InstId} (hj : j ∈ g.body c)
      (hjmem : Operand.inst i ∈ (g.op j).operands) : g.usedOutside k.contains i = true := by
    exact hs.framed_spliced.usedOutside_iff.mpr ⟨c, hs.live_of_new hc,
      fun hin => hs.not_mem_of_kept (h.kept hin) hc, j, hj, hjmem⟩
  -- The vector loop starts where the old one did.
  have hstart (heq : Operand.inst i = p.loop.start) : g.usedOutside k.contains i = true := by
    refine hnew n.header_mem (j := n.iv) (by simp [hs.newLoop.header_body]) ?_
    simp [hs.newLoop.iv.op_eq, Op.operands, heq]
  by_cases herased : Erased l n d
  · rcases ht.use_cases hf hd hnot herased.2 hu hmem with heq | heq | hmem'
    · exact hstart heq
    · exact absurd heq.symm (hbound herased.1 i)
    · rw [← hsteps] at hmem'
      obtain ⟨s, hsmem, rfl⟩ := List.mem_map.mp hmem'
      have hbody (s' : InstId × Lowering) (hs' : s' ∈ p.steps) : s'.1 ∈ f.body p.loop.bodyEntry :=
        List.mem_of_mem_dropLast (hsteps ▸ List.mem_map_of_mem hs')
      obtain ⟨j, hj, hjmem⟩ := hs.made.used s hsmem _ hmem
        (fun heq =>
          hnot _ hs.shape.isLoop.header_mem (Operand.inst.inj heq ▸ hs.shape.mem_header.1))
        fun s' hs' heq =>
          hnot _ hs.counted.bodyEntry_mem (Operand.inst.inj heq ▸ hbody s' hs')
      refine hnew n.body_mem (j := j) ?_ hjmem
      rw [hs.newLoop.body_body]
      exact List.mem_append_left _ hj
  · have hkept : Kept l n f d := kept_iff.mpr ⟨hdlive, herased⟩
    have hstays (heq : Operand.inst i ∈ (g.op u).operands) : g.usedOutside k.contains i = true :=
      hs.framed_spliced.usedOutside_iff.mpr
        ⟨d, hs.live_of_kept hkept, hdout, u, hs.body_eq d hkept ▸ hu, heq⟩
    rcases hs.op_cases hkept hu with ⟨_, heq⟩ | ⟨_, _, heq⟩ | ⟨m, incoming, _, rfl, rfl, hop, heq⟩
    · exact hstays (heq ▸ hmem)
    · exact hstays (by rwa [heq, operands_retarget])
    · refine hstart ((hs.counted.operand_cases hf hs.shape.isLoop hmem).resolve_right fun heq => ?_)
      refine hnot _ (CountedLoop.latch_mem hs.shape.isLoop hs.counted) ?_
      obtain ⟨_, hlatch⟩ := ht.latch_body
      simp [hlatch, Operand.inst.inj heq]

/-- What is invariant in the other loop, if that does not come after the loop. -/
theorem invariant_eq {known : Operand → Prop} (hknown : f.Closed known)
    (hdom : ¬ (ofFunc f).Dominates l.header k.header) {v : Operand} (hv : known v) :
    k.isInvariant g (.ofGraph (.ofFunc g)) v = k.isInvariant f (.ofGraph (.ofFunc f)) v := by
  have hs := h.splicing
  have hheader := h.kept h.other.isLoop.header_mem
  rw [Bool.eq_iff_iff, NaturalLoop.isInvariant_iff, NaturalLoop.isInvariant_iff]
  cases v with
  | param _ => exact Iff.rfl
  | const _ => exact Iff.rfl
  | inst i =>
    constructor
    · rintro ⟨d, hd, hout, hdh⟩
      have hd := hs.owner_of i (hknown.lt hv) d hd
      have hheader := (kept_iff.mp hheader).2
      refine ⟨d, hd, hout, hs.exchanged.dominates_outside (fun hnew => ?_) hheader hdh⟩
      have hge := le_of_mem_freshBlocks (hs.blocks_eq ▸ hnew)
      exact absurd (hknown.owners i hv d hd) (Nat.not_lt.mpr hge)
    · rintro ⟨d, hd, hout, hdh⟩
      have hlive : d ∈ f.layout :=
        FlowGraph.blocks_ofFunc f ▸ (hdh.reachable h.other.isLoop.reachable).live
      have hkept : Kept l n f d := ⟨hlive, fun _ hmem =>
        hdom ((hs.shape.isLoop.dominates hmem).trans hdh)⟩
      have howner := hs.owner_stays i d hd (kept_iff.mp hkept).2
      exact ⟨d, howner, hout, hs.dominates_kept hkept hheader hdh⟩

/-- The other loop is left alone. -/
theorem untouched {known : Operand → Prop} (hknown : f.Closed known) (ht : p.loop.Tight f l)
    (hd : f.DistinctTargets) (hsteps : p.steps.map Prod.fst = (f.body p.loop.bodyEntry).dropLast)
    (hbound : n.blocks.middle = none → ∀ i, p.loop.bound ≠ .inst i)
    (hdom : ¬ (ofFunc f).Dominates l.header k.header) : Untouched known f g k := by
  have hs := h.splicing
  have hexit {e : BlockId} (he : e ∈ k.exits f) :
      Kept l n f e ∧ g.predecessors e = f.predecessors e := by
    obtain ⟨⟨b, hb, hsucc⟩, _⟩ := NaturalLoop.mem_exits.mp he
    exact h.successor_predecessors_eq hb hsucc
  constructor
  case toSameCode => exact h.sameCode
  case owner_iff => exact fun b hb i => h.owner_iff hb i
  case predecessors_eq =>
    obtain ⟨q, hq⟩ := List.exists_mem_of_ne_nil _ h.other.isLoop.latches_ne
    have he := ((h.other.isLoop.mem_latches q).mp hq).1
    exact (h.successor_predecessors_eq (h.other.isLoop.latch_mem hq)
      ((edge_ofFunc f q _).mp he).2.2).2
  case entered =>
    intro b hb
    obtain ⟨hlive, hout, hne⟩ := h.predecessor_out hb
    exact successors_congr (hs.body_eq b ⟨hlive, fun _ => hout⟩)
      fun i hi => hs.op_eq_of_not_mem hlive hout hne hi
  case dedicated => exact fun e he hg b hb => hg b ((hexit he).2 ▸ hb)
  case exit_phis =>
    intro e he
    obtain ⟨hk, _⟩ := hexit he
    exact phis_congr (hs.body_eq e hk) fun i hi => hs.isPhi_eq hk hi
  case used => exact fun b hb i hi huse => h.used ht hd hsteps hbound hb hi huse
  case unmarked =>
    exact fun hg => Bool.eq_false_iff.mpr fun hf =>
      Bool.eq_false_iff.mp hg (hs.still_marked _ hf)
  case invariant_eq => exact fun v hv => h.invariant_eq hknown hdom hv

end Beside

end Vectorize

end LoopNest
