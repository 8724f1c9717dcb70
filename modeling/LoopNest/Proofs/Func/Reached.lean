import LoopNest.Proofs.Func.Without
import LoopNest.Proofs.Graph.Innermost
import LoopNest.Proofs.Typing.Rules

/-!
# The part of a function that is reached

`Func.reached` leaves out the blocks that no path leads to from the entry.  It loses no path, so
what is left has the same dominance and the same loops (`Without.trims`), the verifier accepts it if
it accepts the whole (`Sound.reached`), and it runs in the same way (`Without.executes_iff`).
-/

namespace LoopNest

open FlowGraph

namespace Func

/-- The live blocks that no path leads to from the entry. -/
def unreached (f : Func) : List BlockId := f.layout.filter (· ∉ (ofFunc f).reversePostOrder)

/-- The function without the blocks that are never reached. -/
def reached (f : Func) : Func :=
  { f with
    layout := f.layout.filter (· ∉ f.unreached)
    insts := f.insts.map fun x => { x with op := dropAll f.unreached x.op } }

variable {tt : TypeTable} {f g : Func} {b : BlockId} {i : InstId} {D : List BlockId}

theorem mem_unreached : b ∈ f.unreached ↔ b ∈ f.layout ∧ ¬ (ofFunc f).Reachable b := by
  rw [unreached, List.mem_filter, decide_eq_true_iff, mem_reversePostOrder]

theorem mem_layout_reached : b ∈ f.reached.layout ↔ (ofFunc f).Reachable b := by
  have hlive (h : (ofFunc f).Reachable b) : b ∈ f.layout := blocks_ofFunc f ▸ h.live
  have hmem : b ∈ f.reached.layout ↔ b ∈ f.layout ∧ b ∉ f.unreached := by
    rw [reached, List.mem_filter, decide_eq_true_iff]
  rw [hmem, mem_unreached]
  tauto

theorem inst_reached (f : Func) (i : InstId) :
    f.reached.inst i = { f.inst i with op := dropAll f.unreached (f.op i) } := by
  unfold op inst reached
  rw [Array.getElem?_map]
  cases f.insts[i]? <;> rfl

theorem op_reached (f : Func) (i : InstId) : f.reached.op i = dropAll f.unreached (f.op i) := by
  rw [op, inst_reached]

theorem WellFormed.without_reached (hf : f.WellFormed) : Without f.unreached f f.reached where
  outline := ⟨rfl, rfl, rfl, rfl, rfl⟩
  blocks_eq := rfl
  size_eq := Array.size_map ..
  inst_eq i := by rw [op_reached, inst_reached]
  alike i := op_reached f i ▸ alike_dropAll _ _
  op_eq _ _ i _ := op_reached f i
  live _ hd := (mem_unreached.mp hd).1
  block_lt d hd := by
    obtain ⟨t, ht⟩ := hf.ends d (mem_unreached.mp hd).1
    exact lt_blocks_size (mem_body_of_terminator ht).1
  sources b hb i hi incoming hop e he _ := by
    have hlive := blocks_ofFunc f ▸ (mem_layout_reached.mp hb).live
    have hmem := ((hf.phi_sources b hlive i hi incoming hop).2 e.2).mp (List.mem_map_of_mem he)
    exact ((f.mem_predecessors _ _).mp hmem).2
  body_lt _ hb _ hi := hf.inst_lt hb hi
  disjoint d hd b hb i hid hib := by
    have hlive := blocks_ofFunc f ▸ (mem_layout_reached.mp hb).live
    have hsame : some d = some b :=
      (hf.owner_eq d (mem_unreached.mp hd).1 i hid).symm.trans (hf.owner_eq b hlive i hib)
    cases hsame
    exact (mem_unreached.mp hd).2 (mem_layout_reached.mp hb)

namespace Without

variable (h : Without D f g)
include h

theorem afterPhis_eq (b : BlockId) : g.afterPhis b = f.afterPhis b := by
  have heq := (g.phis_append_afterPhis b).trans ((h.body_eq b).trans (f.phis_append_afterPhis b).symm)
  rw [h.phis_eq] at heq
  exact List.append_cancel_left heq

theorem entry?_eq {e : BlockId} (he : f.entry? = some e) (hout : e ∉ D) : g.entry? = f.entry? := by
  obtain ⟨rest, hrest⟩ := List.head?_eq_some_iff.mp (show f.layout.head? = some e from he)
  unfold entry?
  rw [h.layout_eq, hrest, List.filter_cons_of_pos (by simpa using hout)]
  rfl

theorem framed (hf : f.Framed) (hent : g.entry? = f.entry?)
    (hlive : ∀ b ∈ g.layout, ∀ c ∈ f.successors b, c ∈ g.layout) : g.Framed := by
  have hl (b : BlockId) (hb : b ∈ g.layout) : b ∈ f.layout := (h.mem_layout.mp hb).1
  constructor
  case owner_eq =>
    intro b hb i hi
    rw [h.owner_eq]
    exact hf.owner_eq b (hl b hb) i (h.body_eq b ▸ hi)
  case ends =>
    intro b hb
    rw [h.terminator?_eq]
    exact hf.ends b (hl b hb)
  case terminator_eq =>
    intro b hb i hi ht
    rw [h.terminator?_eq]
    exact hf.terminator_eq b (hl b hb) i (h.body_eq b ▸ hi) ((h.alike i).isTerminator_eq ▸ ht)
  case phi_first =>
    intro b hb i hi
    rw [(h.alike i).isPhi_eq]
    exact hf.phi_first b (hl b hb) i (h.afterPhis_eq b ▸ hi)
  case successor_live =>
    intro b hb c hc
    exact hlive b hb c (h.successors_eq b ▸ hc)
  case entry_predecessors =>
    intro e he
    rw [h.predecessors_eq, hf.entry_predecessors e (hent ▸ he)]
    rfl
  case phi_sources =>
    intro b hb i hi incoming' hop'
    rw [h.op_eq b hb i (h.body_eq b ▸ hi)] at hop'
    obtain ⟨incoming, hop⟩ := Op.exists_of_isPhi (show (f.op i).isPhi = true by
      rw [← isPhi_dropAll D, hop']
      rfl)
    rw [hop] at hop'
    cases hop'
    obtain ⟨hnodup, hmem⟩ := hf.phi_sources b (hl b hb) i (h.body_eq b ▸ hi) incoming hop
    refine ⟨hnodup.sublist (List.filter_sublist.map _), fun p => ?_⟩
    rw [h.predecessors_eq, List.mem_filter, ← hmem p]
    simp only [List.mem_map, List.mem_filter]
    constructor
    · rintro ⟨e, ⟨he, hD⟩, rfl⟩
      exact ⟨⟨e, he, rfl⟩, hD⟩
    · rintro ⟨⟨e, he, rfl⟩, hD⟩
      exact ⟨e, ⟨he, hD⟩, rfl⟩

theorem trims (hg : g.Framed) (hent : g.entry? = f.entry?) : Trims (ofFunc f) (ofFunc g) := by
  have hentry : FlowGraph.entry? (ofFunc g) = FlowGraph.entry? (ofFunc f) := by
    rw [FlowGraph.entry?, FlowGraph.entry?, blocks_ofFunc, blocks_ofFunc]
    exact hent
  have hsub (b : BlockId) (hb : b ∈ (ofFunc g).blocks) : b ∈ (ofFunc f).blocks := by
    rw [blocks_ofFunc] at hb ⊢
    exact (h.mem_layout.mp hb).1
  refine ⟨hentry, fun b hb => ?_, hsub, fun a b => ?_⟩
  · obtain ⟨s, hs, hvia⟩ := hb
    refine hvia.rec_on ?_ fun x y he _ _ hx => ?_
    · rw [← hentry] at hs
      exact List.mem_of_head? hs
    · rw [blocks_ofFunc] at hx ⊢
      refine hg.successor_live x hx y ?_
      rw [h.successors_eq]
      exact ((edge_ofFunc f x y).mp he).2.2
  · rw [edge_ofFunc, edge_ofFunc, blocks_ofFunc, h.successors_eq]
    constructor
    · rintro ⟨ha, hb, hs⟩
      exact ⟨⟨(h.mem_layout.mp ha).1, (h.mem_layout.mp hb).1, hs⟩, ha, hb⟩
    · rintro ⟨⟨_, _, hs⟩, ha, hb⟩
      exact ⟨ha, hb, hs⟩

/-- What is used in a block that stays was used there before. -/
theorem mem_operands (hb : b ∈ g.layout) (hi : i ∈ g.body b) {v : Operand}
    (hv : v ∈ (g.op i).operands) : v ∈ (f.op i).operands := by
  rw [h.op_eq b hb i (h.body_eq b ▸ hi)] at hv
  exact mem_operands_of_dropAll hv

theorem wellTyped (hty : f.WellTyped tt) : g.WellTyped tt := by
  intro b hb i hi
  rw [h.body_eq] at hi
  obtain ⟨ty, hres, hlook⟩ := hty b (h.mem_layout.mp hb).1 i hi
  refine ⟨ty, ?_, h.ty_eq i ▸ hlook⟩
  rw [Typing.resultTy_congr (funext h.operandTy_eq) h.outline.ret_eq, h.ty_eq, h.op_eq b hb i hi]
  cases hop : f.op i with
  | phi incoming =>
    rw [hop] at hres
    obtain ⟨hall, heq⟩ := Typing.resultTy_phi.mp hres
    refine Typing.resultTy_phi.mpr ⟨fun v hv => hall v ?_, heq⟩
    exact (List.filter_sublist.map Prod.fst).subset hv
  | _ => rwa [hop] at hres

theorem usesListed (hu : f.UsesListed) : g.UsesListed := by
  rw [usesListed_iff] at hu ⊢
  intro b hb i hi j hj d hd
  rw [h.owner_eq] at hd
  rw [h.body_eq]
  exact hu b (h.mem_layout.mp hb).1 i (h.body_eq b ▸ hi) j (h.mem_operands hb hi hj) d hd

theorem tys_lt (htys : ∀ t ∈ f.tys, t < tt.size) : ∀ t ∈ g.tys, t < tt.size := by
  rw [forall_mem_tys] at htys ⊢
  obtain ⟨hret, hparams, hconsts, hinsts⟩ := htys
  refine ⟨h.outline.ret_eq ▸ hret, h.params_eq ▸ hparams, h.constants_eq ▸ hconsts, fun i hi => ?_⟩
  obtain ⟨hty, hslot⟩ := hinsts i (h.size_eq ▸ hi)
  refine ⟨h.ty_eq i ▸ hty, fun t a hop => hslot t a ?_⟩
  rcases h.alike i with heq | ⟨-, hphi⟩
  · rw [← heq, hop]
  · rw [hop] at hphi
    cases hphi

end Without

/-! ## Runs -/

section

variable {args : List Datum} {s s' : Snapshot} {source : Option BlockId} {δ : List Chunk} {x : Next}
  {d : Datum} {rs : Array Region} {n : Nat}

theorem visit_congr (hv : Visit tt f args source b s δ s' x) (hphis : g.phis b = f.phis b)
    (hcode : g.code b = f.code b) (hterm : g.terminator? b = f.terminator? b)
    (hop : ∀ i, i ∈ f.code b ∨ f.terminator? b = some i → g.op i = f.op i)
    (hty : ∀ i, (g.inst i).ty = (f.inst i).ty) (htyOf : g.tyOf = f.tyOf)
    (hval : g.value tt args = f.value tt args)
    (hin : ∀ i ∈ f.phis b, source.bind (g.incoming? i) = source.bind (f.incoming? i)) :
    Visit tt g args source b s δ s' x := by
  have hphi (ρ : Values) (i : InstId) (hi : i ∈ f.phis b) :
      phiValue tt g args source ρ i = phiValue tt f args source ρ i := by
    rw [phiValue, phiValue, hin i hi, hval]
  have hentered (ρ : Values) : entered tt g args source b ρ = entered tt f args source b ρ := by
    funext i
    unfold entered
    rw [hphis]
    split
    · rw [hphi ρ i ‹_›]
    · rfl
  constructor
  case ready =>
    intro i hi
    rw [hphis] at hi
    exact hphi _ i hi ▸ hv.ready i hi
  case straight =>
    rw [hcode, hentered]
    exact hv.straight.congr (fun i hi => ⟨hop i (.inl hi), hty i⟩)
      (fun i _ v _ => congrFun htyOf v) fun i _ v _ ρ => by rw [hval]
  case leaves =>
    obtain ⟨t, ht, hl⟩ := hv.leaves
    exact ⟨t, hterm.trans ht, by rw [hop t (.inr ht), hval]; exact hl⟩

/-- Where blocks of a kind are visited in the same way, they run in the same way. -/
theorem executes_congr {ok : BlockId → Prop} (hcost : ∀ b, ok b → g.cost b = f.cost b)
    (hsucc : ∀ b, ok b → ∀ c ∈ f.successors b, ok c)
    (hvisit : ∀ source b s δ s' x, (∀ q ∈ source, ok q) → ok b →
      Visit tt f args source b s δ s' x → Visit tt g args source b s δ s' x)
    (h : Executes tt f args source b s d rs n) :
    (∀ q ∈ source, ok q) → ok b → Executes tt g args source b s d rs n := by
  induction h with
  | ret hv =>
    intro hs hb
    rw [← hcost _ hb]
    exact .ret (hvisit _ _ _ _ _ _ hs hb hv)
  | goto hv _ ih =>
    intro hs hb
    rw [← hcost _ hb]
    refine .goto (hvisit _ _ _ _ _ _ hs hb hv) (ih ?_ (hsucc _ hb _ hv.mem_successors))
    rintro q ⟨⟩
    exact hb

namespace Without

variable (h : Without D f g)
include h

theorem value_eq : g.value tt args = f.value tt args := by
  funext ρ v
  cases v with
  | const c => simp only [Func.value, constantValue, h.constants_eq]
  | _ => rfl

theorem incoming?_eq (hb : b ∈ g.layout) (hi : i ∈ f.body b) {q : BlockId} (hq : q ∉ D) :
    g.incoming? i q = f.incoming? i q := by
  rw [incoming?, incoming?, h.op_eq b hb i hi]
  cases f.op i with
  | phi incoming =>
    simp only [dropAll, List.find?_filter]
    refine congrArg (fun t => (incoming.find? t).map Prod.fst) (funext fun e => ?_)
    by_cases he : e.2 = q
    · simp [he, hq]
    · simp [he]
  | _ => rfl

variable (hg : g.Framed)
include hg

theorem op_eq_of_afterPhis (hb : b ∈ g.layout) (hi : i ∈ f.afterPhis b) : g.op i = f.op i := by
  rw [← h.afterPhis_eq] at hi
  exact (h.alike i).eq_of_not_isPhi ((h.alike i).isPhi_eq ▸ hg.phi_first b hb i hi)

/-- A block that stays runs in the same way, if it is entered from a block that stays. -/
theorem executes_iff (hb : b ∈ g.layout) (hs : ∀ q ∈ source, q ∈ g.layout) :
    Executes tt g args source b s d rs n ↔ Executes tt f args source b s d rs n := by
  have hcode (b : BlockId) : g.code b = f.code b := by
    rw [Func.code, Func.code, h.afterPhis_eq]
    exact congrArg (List.takeWhile · _) (funext fun i => by rw [(h.alike i).isTerminator_eq])
  have hcost (b : BlockId) : g.cost b = f.cost b := by
    rw [Func.cost, Func.cost, h.phis_eq, hcode]
  have hop (b : BlockId) (hb : b ∈ g.layout) (i : InstId)
      (hi : i ∈ f.code b ∨ f.terminator? b = some i) : g.op i = f.op i := by
    refine h.op_eq_of_afterPhis hg hb ?_
    rcases hi with hi | hi
    · exact List.takeWhile_subset _ hi
    · exact mem_afterPhis_of_terminator hi
  have hin (source : Option BlockId) (hs : ∀ q ∈ source, q ∈ g.layout) (b : BlockId)
      (hb : b ∈ g.layout) (i : InstId) (hi : i ∈ f.phis b) :
      source.bind (g.incoming? i) = source.bind (f.incoming? i) := by
    cases source with
    | none => rfl
    | some q =>
      exact h.incoming?_eq hb (mem_body_of_phis hi) (h.mem_layout.mp (hs q rfl)).2
  have htyOf : g.tyOf = f.tyOf := funext h.tyOf_eq
  constructor
  · refine fun hex => executes_congr (fun b _ => (hcost b).symm) hg.successor_live
      (fun source b s δ s' x hs hb hv => visit_congr hv (h.phis_eq b).symm (hcode b).symm
        (h.terminator?_eq b).symm (fun i hi => (hop b hb i ?_).symm) (fun i => (h.ty_eq i).symm)
        htyOf.symm h.value_eq.symm fun i hi => (hin source hs b hb i (h.phis_eq b ▸ hi)).symm)
      hex hs hb
    rwa [hcode, h.terminator?_eq] at hi
  · exact fun hex => executes_congr (fun b _ => hcost b)
      (fun b hb c hc => hg.successor_live b hb c (h.successors_eq b ▸ hc))
      (fun source b s δ s' x hs hb hv => visit_congr hv (h.phis_eq b) (hcode b)
        (h.terminator?_eq b) (hop b hb) h.ty_eq htyOf h.value_eq (hin source hs b hb)) hex hs hb

end Without

end

/-! ## Verification -/

theorem not_mem_unreached {e : BlockId} (he : f.entry? = some e) : e ∉ f.unreached := fun hD =>
  (mem_unreached.mp hD).2 (reachable_entry he)

section

variable (hf : f.WellFormed) {e : BlockId} (he : f.entry? = some e)
include hf he

theorem WellFormed.entry?_reached : f.reached.entry? = f.entry? :=
  hf.without_reached.entry?_eq he (not_mem_unreached he)

theorem WellFormed.framed_reached : f.reached.Framed := by
  refine hf.without_reached.framed hf.framed (hf.entry?_reached he) fun b hb c hc => ?_
  rw [mem_layout_reached] at hb ⊢
  have hlive := blocks_ofFunc f ▸ hb.live
  exact hb.edge ((edge_ofFunc f b c).mpr ⟨hlive, hf.successor_live b hlive c hc, hc⟩)

theorem WellFormed.trims_reached : Trims (ofFunc f) (ofFunc f.reached) :=
  hf.without_reached.trims (hf.framed_reached he) (hf.entry?_reached he)

theorem WellFormed.reachable_of_mem_reached (hb : b ∈ f.reached.layout) :
    (ofFunc f.reached).Reachable b :=
  (hf.trims_reached he).reachable_iff.mpr (mem_layout_reached.mp hb)

omit he in
/-- What is used in a block that is reached is computed in a block that is reached. -/
theorem WellFormed.operandExists_reached (hb : b ∈ f.reached.layout) (hi : i ∈ f.body b)
    {v : Operand} (hv : v ∈ (f.reached.op i).operands) : Verify.operandExists f.reached v = true := by
  have hw := hf.without_reached
  have hr := mem_layout_reached.mp hb
  have hlive := blocks_ofFunc f ▸ hr.live
  have hex := hf.operand_exists b hlive i hi v (hw.mem_operands hb (hw.body_eq b ▸ hi) hv)
  obtain ⟨t, ht⟩ := operandTy_of_exists hex
  refine operandExists_of_operandTy ((hw.operandTy_eq v).trans ht) fun j hj => ?_
  subst hj
  obtain ⟨d, hd⟩ : ∃ d, f.owner j = some d := by
    cases hown : f.owner j with
    | none => simp [Verify.operandExists, isLiveInst, hown] at hex
    | some d => exact ⟨d, rfl⟩
  refine ⟨d, mem_layout_reached.mpr ?_, (hw.owner_eq j).trans hd⟩
  rw [op_reached] at hv
  cases hphi : (f.op i).isPhi with
  | false =>
    rw [dropAll_of_not_isPhi hphi] at hv
    obtain ⟨d', hd', hdom, -⟩ := hf.use_dominated b hlive hr i hi hphi j hv
    cases hd.symm.trans hd'
    by_cases heq : d = b
    · exact heq ▸ hr
    · exact (hdom heq).reachable hr
  | true =>
    obtain ⟨incoming, hop⟩ := Op.exists_of_isPhi hphi
    rw [hop] at hv
    obtain ⟨⟨w, p⟩, hmem, heq⟩ := List.mem_map.mp hv
    cases heq
    obtain ⟨hmem, hD⟩ := List.mem_filter.mp hmem
    have hpred := ((hf.phi_sources b hlive i hi incoming hop).2 p).mp (List.mem_map_of_mem hmem)
    have hp : (ofFunc f).Reachable p := by
      by_contra hp
      exact (of_decide_eq_true hD) (mem_unreached.mpr ⟨((f.mem_predecessors _ _).mp hpred).1, hp⟩)
    exact (hf.phi_dominated b hlive i hi incoming hop j p hmem d hd).reachable hp

theorem WellFormed.reached : f.reached.WellFormed := by
  have hw := hf.without_reached
  have hframed := hf.framed_reached he
  have ht := hf.trims_reached he
  have hl (b : BlockId) (hb : b ∈ f.reached.layout) : b ∈ f.layout := (hw.mem_layout.mp hb).1
  constructor
  case owner_eq => exact hframed.owner_eq
  case ends => exact hframed.ends
  case terminator_eq => exact hframed.terminator_eq
  case phi_first => exact hframed.phi_first
  case successor_live => exact hframed.successor_live
  case entry_predecessors => exact hframed.entry_predecessors
  case phi_sources => exact hframed.phi_sources
  case operand_exists =>
    exact fun b hb i hi v hv => hf.operandExists_reached hb (hw.body_eq b ▸ hi) hv
  case phi_dominated =>
    intro b hb i hi incoming' hop' j p hmem d hd
    rw [hw.body_eq] at hi
    rw [hw.owner_eq] at hd
    rw [op_reached] at hop'
    obtain ⟨incoming, hop⟩ := Op.exists_of_isPhi (show (f.op i).isPhi = true by
      rw [← isPhi_dropAll f.unreached, hop']
      rfl)
    rw [hop] at hop'
    cases hop'
    exact ht.dominates_iff.mpr
      (hf.phi_dominated b (hl b hb) i hi incoming hop j p (List.mem_filter.mp hmem).1 d hd)
  case use_dominated =>
    intro b hb hr i hi hphi j hj
    have hj' := hw.mem_operands hb hi hj
    rw [hw.body_eq] at hi ⊢
    rw [(hw.alike i).isPhi_eq] at hphi
    obtain ⟨d, hd, hdom, hbefore⟩ :=
      hf.use_dominated b (hl b hb) (ht.reachable_iff.mp hr) i hi hphi j hj'
    exact ⟨d, (hw.owner_eq j).trans hd, fun hne => ht.dominates_iff.mpr (hdom hne), hbefore⟩

end

theorem Sound.reached (hs : f.Sound tt) {e : BlockId} (he : f.entry? = some e) :
    f.reached.Sound tt where
  wellFormed := hs.wellFormed.reached he
  wellTyped := hs.wellFormed.without_reached.wellTyped hs.wellTyped
  usesListed := hs.wellFormed.without_reached.usesListed hs.usesListed
  tys_lt := hs.wellFormed.without_reached.tys_lt hs.tys_lt

end Func

end LoopNest
