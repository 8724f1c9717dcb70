import LoopNest.Proofs.Vectorize.Mimicked
import LoopNest.Proofs.Vectorize.Settled
import LoopNest.Proofs.Vectorize.Turns

/-!
# A function and the same with one vector loop

A `Round` puts one vector loop into a function.  The other blocks that are kept do what they did
(`Round.sameCode`): operands mean the same, and only the end of the preheader and the phi of the old
loop are changed.
-/

namespace LoopNest

open Func FlowGraph

namespace Func

variable {f g : Func} {b : BlockId}

/-- The code of a block depends on its instructions only. -/
theorem code_congr (hbody : g.body b = f.body b)
    (hphi : ∀ i ∈ f.body b, (g.op i).isPhi = (f.op i).isPhi)
    (hterm : ∀ i ∈ f.body b, (g.op i).isTerminator = (f.op i).isTerminator) :
    g.code b = f.code b := by
  have hafter : g.afterPhis b = f.afterPhis b := by
    have hall := hbody
    rw [← g.phis_append_afterPhis, ← f.phis_append_afterPhis, phis_congr hbody hphi] at hall
    exact List.append_cancel_left hall
  have hcongr : ∀ {is : List InstId}, (∀ i ∈ is, (g.op i).isTerminator = (f.op i).isTerminator) →
      is.takeWhile (fun i => !(g.op i).isTerminator) =
        is.takeWhile fun i => !(f.op i).isTerminator := by
    intro is his
    induction is with
    | nil => rfl
    | cons i is ih =>
      rw [List.takeWhile_cons, List.takeWhile_cons, his i List.mem_cons_self,
        ih fun j hj => his j (List.mem_cons_of_mem _ hj)]
  rw [code, hafter]
  exact hcongr fun i hi => hterm i (mem_body_of_afterPhis hi)

/-- A block has phis, code and a terminator. -/
theorem WellFormed.body_eq_parts (hf : f.WellFormed) (ho : f.ListedOnce) (hb : b ∈ f.layout)
    {t : InstId} (ht : f.terminator? b = some t) : f.body b = f.phis b ++ (f.code b ++ [t]) := by
  obtain ⟨rest, hrest⟩ := afterPhis_eq_code (hf.terminator_eq b hb) ht
  have hbody := f.phis_append_afterPhis b
  rw [hrest] at hbody
  obtain ⟨⟨front, hfront⟩, _⟩ := terminator?_eq_some.mp ht
  have hnodup := ho b hb
  rcases List.eq_nil_or_concat rest with rfl | ⟨rest', x, rfl⟩
  · exact hbody.symm
  · -- The terminator would be listed twice.
    rw [← hbody, List.concat_eq_append] at hfront hnodup
    have hx : x = t := by
      have hlast : f.phis b ++ (f.code b ++ t :: (rest' ++ [x])) =
        (f.phis b ++ f.code b ++ t :: rest') ++ [x] := by simp
      exact List.singleton_inj.mp (List.append_inj_right' (hlast.symm.trans hfront) rfl)
    subst hx
    simp [List.nodup_append, List.nodup_cons] at hnodup

/-- What a branch tests is no terminator. -/
theorem not_isTerminator_of_tested {tt : TypeTable} (hs : f.Sound tt) (hb : b ∈ f.layout) {t : InstId}
    (ht : f.terminator? b = some t) (hgo : f.successors b ≠ []) {j : InstId}
    (hj : Operand.inst j ∈ (f.op t).operands) {d : BlockId} (hd : d ∈ f.layout)
    (hmem : j ∈ f.body d) : (f.op j).isTerminator = false := by
  obtain ⟨htb, hterm⟩ := mem_body_of_terminator ht
  obtain ⟨c, hc⟩ := List.exists_mem_of_ne_nil _ hgo
  rw [mem_successors_iff ht] at hc
  cases hop : f.op t with
  | condBr v x y =>
    rw [hop] at hj
    obtain rfl := List.mem_singleton.mp hj
    obtain ⟨_, hres, _⟩ := hs.wellTyped b hb t htb
    rw [hop] at hres
    obtain ⟨u, hu, hshape, _⟩ := Typing.resultTy_condBr.mp hres
    by_contra hjt
    have hvoid := hs.wellTyped.shape_of_isTerminator hd hmem (by simpa using hjt)
    rw [(lt_of_operandTy hu).2, hshape] at hvoid
    cases hvoid
  | br x =>
    rw [hop] at hj
    cases hj
  | ret v =>
    rw [hop] at hc
    cases hc
  | _ =>
    rw [hop] at hterm
    cases hterm

/-- Operands mean the same, if the constants stay. -/
theorem value_of_operandTy (hc : ∀ (k : Nat) x, f.constants[k]? = some x → g.constants[k]? = some x)
    {v : Operand} {t : TyId} (ht : f.operandTy v = .ok t) {tt : TypeTable} (args : List Datum)
    (ρ : Values) : g.value tt args ρ v = f.value tt args ρ v := by
  cases v with
  | const k =>
    simp only [operandTy] at ht
    split at ht
    · rename_i x hx
      simp only [Func.value, Func.constantValue, hx, hc k x hx]
    · cases ht
  | _ => rfl

end Func

namespace Vectorize

/-- A function with the code for the end of a vector loop. -/
abbrev ended (config : VectorConfig) (f : Func) (p : VectorPlan) : Func :=
  (emitEnd f p (.ofNat config.width)).2

/-- A loop that a plan is for. -/
abbrev planSite (config : VectorConfig) (f : Func) (l : NaturalLoop) (p : VectorPlan) : Context :=
  ⟨f, .ofGraph (.ofFunc f), l, p.loop, config⟩

/-- One vector loop is put into a function. -/
structure Round (tt : TypeTable) (config : VectorConfig) (args : List Datum) (l : NaturalLoop)
    (p : VectorPlan) (n : VectorLoop) (T : LaneShapes) (f g : Func) : Prop where
  sound : f.Sound tt
  planned : Planned tt f l p
  guarded : f.Guarded tt
  laned : Laned tt (planSite config f l p) args p.steps T
  prepares : Prepares tt p.loop.preheader f (ended config f p)
  splicing : TypedSplicing tt (planSite config f l p) l p n (ended config f p) g
  stop_eq : n.stop = (emitEnd f p (.ofNat config.width)).1
  step_eq : n.width = .ofNat config.width
  end_eq : vectorEnd (planSite config f l p) tt = .ok (p.stop, p.epilogue)
  width_pos : 0 < config.width
  width_lt : config.width < 2 ^ 32

/-- What has been computed when a block is entered: outside of the loop, or on the way to the block in
the same lap. -/
def Current (f : Func) (l : NaturalLoop) (b : BlockId) (j : InstId) : Prop :=
  (∃ d ∈ f.layout, d ∉ l.blocks ∧ j ∈ f.body d) ∨
    b ∈ l.blocks ∧ ∃ d ∈ l.blocks, d ≠ b ∧ (ofFunc f).Dominates d b ∧ (j ∈ f.phis d ∨ j ∈ f.code d)

namespace Round

variable {tt : TypeTable} {config : VectorConfig} {args : List Datum} {l : NaturalLoop}
  {p : VectorPlan} {n : VectorLoop} {T : LaneShapes} {f g : Func} {b c d : BlockId} {i j : InstId}
  {v : Operand} {t : TyId} (r : Round tt config args l p n T f g)

include r

theorem wellFormed : f.WellFormed := r.sound.wellFormed

theorem listedOnce : f.ListedOnce := r.laned.accepted.listed_once

theorem tight : p.loop.Tight f l := r.laned.accepted.tight

theorem counted : p.loop.IsCounted f l := r.tight.counted

theorem isLoop : IsLoop (.ofFunc f) l := r.tight.isLoop

theorem live_of_kept (hb : Kept l n (ended config f p) b) : b ∈ f.layout :=
  r.prepares.inserts.layout_eq ▸ hb.1

theorem kept_of_live (hb : b ∈ f.layout) (hout : b ∉ l.blocks) : Kept l n (ended config f p) b :=
  ⟨r.prepares.live hb, fun _ => hout⟩

/-! ## What stays -/

theorem inst_lt (hb : b ∈ f.layout) (hi : i ∈ f.body b) : i < f.insts.size :=
  r.wellFormed.inst_lt hb hi

theorem body_eq (hb : Kept l n (ended config f p) b) (hne : b ≠ p.loop.preheader) :
    g.body b = f.body b :=
  (r.splicing.body_eq b hb).trans (r.prepares.inserts.body_eq b hne)

theorem mem_ended (hb : Kept l n (ended config f p) b) (hi : i ∈ f.body b) :
    i ∈ (ended config f p).body b :=
  r.prepares.inserts.mem_body r.wellFormed.framed (r.live_of_kept hb) hi

theorem kinds (hb : Kept l n (ended config f p) b) (hi : i ∈ f.body b) :
    (g.op i).isPhi = (f.op i).isPhi ∧ (g.op i).isTerminator = (f.op i).isTerminator := by
  have hlt := r.inst_lt (r.live_of_kept hb) hi
  rw [← r.prepares.inserts.op_eq hlt]
  exact ⟨r.splicing.isPhi_eq hb (r.mem_ended hb hi), r.splicing.isTerminator_eq hb (r.mem_ended hb hi)⟩

theorem terminator?_eq (hb : Kept l n (ended config f p) b) : g.terminator? b = f.terminator? b :=
  (r.splicing.terminator?_eq hb).trans
    (r.prepares.inserts.terminator?_eq r.wellFormed.framed (r.live_of_kept hb))

/-- Only the end of the preheader and the phi of the old loop change. -/
theorem op_eq (hb : Kept l n (ended config f p) b) (hi : i ∈ f.body b)
    (ht : f.terminator? p.loop.preheader ≠ some i) (hne : i ≠ p.loop.induction) :
    g.op i = f.op i := by
  have hlt := r.inst_lt (r.live_of_kept hb) hi
  have hph : p.loop.preheader ∈ f.layout := r.planned.edge_preheader.1
  rw [← r.prepares.inserts.op_eq hlt]
  refine r.splicing.op_eq b hb i (r.mem_ended hb hi) ?_ hne
  rwa [r.prepares.inserts.terminator?_eq r.wellFormed.framed hph]

theorem op_of_plain (hb : Kept l n (ended config f p) b) (hi : i ∈ f.body b)
    (hphi : (f.op i).isPhi = false) (hterm : (f.op i).isTerminator = false) : g.op i = f.op i := by
  refine r.op_eq hb hi (fun ht => ?_) fun heq => ?_
  · rw [(mem_body_of_terminator ht).2] at hterm
    cases hterm
  · rw [heq, isPhi_of_mem_phis (CountedLoop.induction_mem r.counted)] at hphi
    cases hphi

theorem ty_eq (hi : i < f.insts.size) : (g.inst i).ty = (f.inst i).ty := by
  rw [r.splicing.ty_eq i (Nat.lt_of_lt_of_le hi r.prepares.inserts.size_le),
    r.prepares.inserts.inst_eq i hi]

theorem keepsTypes : f.KeepsTypes g :=
  r.prepares.inserts.keepsTypes.trans r.splicing.keepsTypes

theorem constant_eq {k : Nat} {x : Constant} (hx : f.constants[k]? = some x) :
    g.constants[k]? = some x :=
  r.splicing.constant_eq k x (r.prepares.inserts.constant_eq k x hx)

/-- Old operands mean the same. -/
theorem value_eq (ht : f.operandTy v = .ok t) (as : List Datum) (ρ : Values) :
    g.value tt as ρ v = f.value tt as ρ v :=
  value_of_operandTy (fun _ _ => r.constant_eq) ht as ρ

theorem operandTy_of_mem (hb : b ∈ f.layout) (hi : i ∈ f.body b) (hv : v ∈ (f.op i).operands) :
    ∃ t, f.operandTy v = .ok t :=
  operandTy_of_exists (r.wellFormed.operand_exists b hb i hi v hv)

theorem value_of_mem (hb : b ∈ f.layout) (hi : i ∈ f.body b) (hv : v ∈ (f.op i).operands)
    (as : List Datum) (ρ : Values) : g.value tt as ρ v = f.value tt as ρ v := by
  obtain ⟨t, ht⟩ := r.operandTy_of_mem hb hi hv
  exact r.value_eq ht as ρ

theorem tyOf_of_mem (hb : b ∈ f.layout) (hi : i ∈ f.body b) (hv : v ∈ (f.op i).operands) :
    g.tyOf v = f.tyOf v := by
  obtain ⟨t, ht⟩ := r.operandTy_of_mem hb hi hv
  rw [Typing.tyOf_of_operandTy ht, Typing.tyOf_of_operandTy (r.keepsTypes.operandTy_eq _ _ ht)]

theorem inst_code (hb : Kept l n (ended config f p) b) (hi : i ∈ f.code b) :
    g.op i = f.op i ∧ (g.inst i).ty = (f.inst i).ty := by
  have hmem := mem_body_of_code hi
  have hlive := r.live_of_kept hb
  exact ⟨r.op_of_plain hb hmem (r.wellFormed.not_isPhi_of_code hlive hi)
    (not_isTerminator_of_code hi), r.ty_eq (r.inst_lt hlive hmem)⟩

/-- Kept blocks other than the preheader do what they did. -/
theorem sameCode (hb : Kept l n (ended config f p) b) (hne : b ≠ p.loop.preheader) :
    f.SameCode tt g b where
  phis_eq := phis_congr (r.body_eq hb hne) fun _ hi => (r.kinds hb hi).1
  code_eq := code_congr (r.body_eq hb hne) (fun _ hi => (r.kinds hb hi).1) fun _ hi =>
    (r.kinds hb hi).2
  terminator?_eq := r.terminator?_eq hb
  inst_eq _ hi := r.inst_code hb hi
  tyOf_eq _ hi _ hv := r.tyOf_of_mem (r.live_of_kept hb) (mem_body_of_code hi) hv
  value_eq _ hi _ hv := r.value_of_mem (r.live_of_kept hb)
    (hi.elim mem_body_of_code fun ht => (mem_body_of_terminator ht).1) hv

/-- They lead where they led. -/
theorem leaves (hb : Kept l n (ended config f p) b) (hne : b ≠ p.loop.preheader)
    {value : Operand → Option Datum} {x : Next} (hi : f.terminator? b = some i)
    (hl : Leaves value (f.op i) x) : Leaves value (g.op i) x := by
  obtain ⟨hmem, hterm⟩ := mem_body_of_terminator hi
  have hph : p.loop.preheader ∈ f.layout := r.planned.edge_preheader.1
  rw [r.op_eq hb hmem (fun ht => ?_) fun heq => ?_]
  · exact hl
  · have hown := r.wellFormed.owner_eq _ hph i (mem_body_of_terminator ht).1
    rw [r.wellFormed.owner_eq b (r.live_of_kept hb) i hmem] at hown
    exact hne (Option.some.inj hown)
  · have hphi := isPhi_of_mem_phis (CountedLoop.induction_mem r.counted)
    rw [← heq, Op.not_isPhi_of_isTerminator hterm] at hphi
    cases hphi

/-! ## What is read -/

theorem listed (hb : b ∈ f.layout) (hi : i ∈ f.body b) (hj : Operand.inst j ∈ (f.op i).operands)
    (hd : f.owner j = some d) : j ∈ f.body d :=
  usesListed_iff.mp r.sound.usesListed b hb i hi j hj d hd

theorem exists_listed (hb : b ∈ f.layout) (hi : i ∈ f.body b)
    (hj : Operand.inst j ∈ (f.op i).operands) : ∃ d ∈ f.layout, j ∈ f.body d := by
  have hex := r.wellFormed.operand_exists b hb i hi _ hj
  cases hd : f.owner j with
  | none => simp [Verify.operandExists, isLiveInst, hd] at hex
  | some d => exact ⟨d, live_of_operandExists hex hd, r.listed hb hi hj hd⟩

/-- The old loop does not use its terminators. -/
theorem not_isTerminator_of_used (hb : b ∈ l.blocks) (hi : i ∈ f.body b)
    (hj : Operand.inst j ∈ (f.op i).operands) (hd : d ∈ l.blocks) (hmem : j ∈ f.body d) (hdb : d ≠ b)
    (hdom : (ofFunc f).Dominates d b) : (f.op j).isTerminator = false := by
  have hlive {b} (hb : b ∈ l.blocks) : b ∈ f.layout := CountedLoop.live_of_mem r.isLoop hb
  obtain ⟨t, ht⟩ := r.wellFormed.ends b (hlive hb)
  by_cases hit : i = t
  · exact not_isTerminator_of_tested r.sound (hlive hb) ht
      (CountedLoop.successors_ne_nil r.isLoop r.counted hb) (hit ▸ hj) (hlive hd) hmem
  have hnot (hinv : l.Invariant f (.inst j)) : False := by
    obtain ⟨e, hown, hout, _⟩ := hinv
    rw [r.wellFormed.owner_eq d (hlive hd) j hmem] at hown
    cases hown
    exact hout hd
  have hiv (heq : Operand.inst j = p.loop.iv) : (f.op j).isTerminator = false := by
    by_contra hterm
    have hphi := Op.not_isPhi_of_isTerminator (by simpa using hterm)
    rw [Operand.inst.inj heq, isPhi_of_mem_phis (CountedLoop.induction_mem r.counted)] at hphi
    cases hphi
  rcases r.tight.mem_blocks b hb with rfl | rfl | rfl
  · exact absurd (hdom.antisymm (r.isLoop.dominates hd) r.isLoop.reachable) hdb
  · have hcode : i ∈ (f.body p.loop.bodyEntry).dropLast :=
      r.laned.accepted.mem_dropLast hi (by
        by_contra hterm
        exact hit (Option.some.inj ((r.wellFormed.terminator_eq _ (hlive hb) i hi
          (by simpa using hterm)).symm.trans ht)))
    rcases r.laned.operand hcode hj with heq | ⟨k, hk, heq⟩ | hinv
    · exact hiv heq
    · cases heq
      have hown := r.wellFormed.owner_eq _ (hlive hb) j (List.dropLast_subset _ hk)
      rw [r.wellFormed.owner_eq d (hlive hd) j hmem] at hown
      exact absurd (Option.some.inj hown) hdb
    · exact absurd (hnot hinv) id
  · obtain ⟨t', hbody⟩ := r.tight.latch_body
    obtain ⟨x, y, hop, hxy⟩ := r.tight.op_next
    obtain ⟨⟨front, hfront⟩, _⟩ := terminator?_eq_some.mp ht
    rw [hbody] at hi hfront
    have hlast := List.append_inj_right' (show [p.loop.next] ++ _ = _ from hfront) rfl
    have hi : i = p.loop.next := by
      rw [List.singleton_inj.mp hlast] at hi
      simpa [hit] using hi
    rw [hi, hop] at hj
    simp only [Op.operands, List.mem_cons, List.not_mem_nil, or_false] at hj
    rcases hxy with ⟨rfl, hlit⟩ | ⟨rfl, hlit⟩ <;> rcases hj with heq | heq
    · exact hiv heq
    · rw [← heq] at hlit
      cases hlit
    · rw [← heq] at hlit
      cases hlit
    · exact hiv heq

/-- A block reads what is current. -/
theorem readsFrom (hb : b ∈ f.layout) (hr : (ofFunc f).Reachable b) :
    f.ReadsFrom b (Current f l b) := by
  refine r.wellFormed.readsFrom hb hr fun i hi j hj d hd hdb hdom => ?_
  have hmem := r.listed hb hi hj hd
  have hlive : d ∈ f.layout := blocks_ofFunc f ▸ (hdom.reachable hr).live
  by_cases hin : d ∈ l.blocks
  · have hbl : b ∈ l.blocks := by
      by_contra hout
      exact r.planned.uses d hin j hmem b hb hout i hi hj
    refine .inr ⟨hbl, d, hin, hdb, hdom, ?_⟩
    obtain ⟨t, ht⟩ := r.wellFormed.ends d hlive
    have hparts := r.wellFormed.body_eq_parts r.listedOnce hlive ht
    rw [hparts] at hmem
    rcases List.mem_append.mp hmem with hp | hc
    · exact .inl hp
    · rcases List.mem_append.mp hc with hc | hc
      · exact .inr hc
      · obtain rfl := List.mem_singleton.mp hc
        have hterm := mem_body_of_terminator ht
        rw [r.not_isTerminator_of_used hbl hi hj hin hterm.1 hdb hdom] at hterm
        cases hterm.2
  · exact .inl ⟨d, hlive, hin, hmem⟩

/-- When the header is entered, only what was computed outside of the loop is current. -/
theorem current_header (hj : Current f l l.header j) : ∃ d ∈ f.layout, d ∉ l.blocks ∧ j ∈ f.body d := by
  rcases hj with hj | ⟨_, d, hd, hne, hdom, _⟩
  · exact hj
  · exact absurd (hdom.antisymm (r.isLoop.dominates hd) r.isLoop.reachable) hne

/-- What is current at a block was so in front of it, or is computed there. -/
theorem current_of_edge (hr : (ofFunc f).Reachable b) (hs : c ∈ f.successors b)
    (hj : Current f l c j) : Current f l b j ∨ j ∈ f.phis b ∨ j ∈ f.code b := by
  rcases hj with hj | ⟨hc, d, hd, hdc, hdom, hj⟩
  · exact .inl (.inl hj)
  have hlive : b ∈ f.layout := blocks_ofFunc f ▸ hr.live
  have hch : c ≠ l.header := fun heq =>
    hdc ((heq ▸ hdom).antisymm (r.isLoop.dominates hd) r.isLoop.reachable |>.trans heq.symm)
  have hb : b ∈ l.blocks := by
    by_contra hout
    exact hch (CountedLoop.eq_preheader_of_edge r.isLoop r.counted hr hout hc hs).2
  have hedge : (ofFunc f).Edge b c :=
    (edge_ofFunc f b c).mpr ⟨hlive, r.wellFormed.successor_live b hlive c hs, hs⟩
  by_cases hdb : d = b
  · exact .inr (hdb ▸ hj)
  · exact .inl (.inr ⟨hb, d, hd, hdb, hdom.of_edge hedge hdc, hj⟩)

/-- Phis have the same entries for old blocks other than the preheader. -/
theorem incoming?_eq (hb : b ∈ f.layout) (hne : b ≠ p.loop.preheader)
    (hc : Kept l n (ended config f p) c) (hi : i ∈ f.phis c) : g.incoming? i b = f.incoming? i b := by
  have hmem := mem_body_of_phis hi
  have hop := r.prepares.inserts.op_eq (r.inst_lt (r.live_of_kept hc) hmem)
  rcases r.splicing.op_cases hc (r.mem_ended hc hmem) with ⟨_, heq⟩ | ⟨_, hterm, _⟩ |
    ⟨m, incoming, hm, _, _, hold, hnew⟩
  · unfold incoming?
    rw [heq, hop]
  · have := Op.not_isPhi_of_isTerminator (mem_body_of_terminator hterm).2
    rw [hop, isPhi_of_mem_phis hi] at this
    cases this
  · have hbm : b ≠ m := fun heq => r.splicing.not_mem_of_live (r.prepares.live hb)
      (heq ▸ VectorLoop.middle_mem hm)
    unfold incoming?
    rw [hnew, ← hop, hold]
    simp only [List.find?_map, Option.map_map]
    have hpred : (fun e : Operand × BlockId => decide (e.2 = b)) ∘
        (fun e => if e.2 = p.loop.preheader then (n.stop, m) else e) = fun e => decide (e.2 = b) := by
      funext e
      by_cases he : e.2 = p.loop.preheader
      · simp [he, Ne.symm hbm, Ne.symm hne]
      · simp [he]
    rw [hpred]
    refine Option.map_congr fun e he => ?_
    have heb : e.2 = b := by simpa using List.find?_some he
    rw [Function.comp_apply, if_neg fun heq => hne (heb.symm.trans heq)]

/-- Old blocks other than the preheader pass the same values to phis. -/
theorem phiValue_eq {ρ σ : Values} (hr : (ofFunc f).Reachable b) (hne : b ≠ p.loop.preheader)
    (hc : Kept l n (ended config f p) c) (hs : c ∈ f.successors b)
    (hag : ρ.Agree (fun j => Current f l b j ∨ j ∈ f.phis b ∨ j ∈ f.code b) σ) (hi : i ∈ f.phis c) :
    phiValue tt g args (some b) σ i = phiValue tt f args (some b) ρ i := by
  have hlive : b ∈ f.layout := blocks_ofFunc f ▸ hr.live
  have hclive := r.live_of_kept hc
  have hmem := mem_body_of_phis hi
  unfold phiValue
  rw [Option.bind_some, Option.bind_some, r.incoming?_eq hlive hne hc hi]
  refine Option.bind_congr fun v hv => ?_
  obtain ⟨incoming, hop, hin⟩ := mem_of_incoming? hv
  have huse : v ∈ (f.op i).operands := by
    rw [hop]
    exact List.mem_map.mpr ⟨_, hin, rfl⟩
  rw [r.value_of_mem hclive hmem huse]
  refine (hag.value fun j hj => ?_).symm
  subst hj
  by_cases hcl : c ∈ l.blocks
  · -- The latch passes the next induction value.
    obtain rfl : c = l.header := by
      rcases r.tight.mem_blocks c hcl with rfl | rfl | rfl
      · rfl
      · rw [r.tight.phis_bodyEntry] at hi
        cases hi
      · rw [r.tight.phis_latch] at hi
        cases hi
    have hb : b ∈ l.blocks := by
      by_contra hout
      exact hne (CountedLoop.eq_preheader_of_edge r.isLoop r.counted hr hout hcl hs).1
    obtain rfl := CountedLoop.eq_latch r.isLoop r.counted hb hs
    rw [r.counted.phis_eq, List.mem_singleton] at hi
    rw [hi, r.counted.next_eq] at hv
    cases hv
    exact .inr (.inr (r.laned.code_latch ▸ List.mem_singleton_self _))
  · have hout {d} (hd : d ∈ f.layout) (hjd : j ∈ f.body d) : Current f l b j :=
      .inl ⟨d, hd, fun hin => r.planned.uses d hin j hjd c hclive hcl i hmem huse, hjd⟩
    rcases r.wellFormed.available_incoming r.sound.usesListed hclive hi hv with hjb | ⟨d, _, hdom, hjd⟩
    · exact .inl (hout hlive hjb)
    · exact .inl (hout (blocks_ofFunc f ▸ (hdom.reachable hr).live) hjd)

end Round

end Vectorize

end LoopNest
