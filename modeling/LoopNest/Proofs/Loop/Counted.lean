import LoopNest.Loop.Counted
import LoopNest.Pass.Basic
import LoopNest.Proofs.Verified

/-!
# Counted loops

`CountedLoop.IsCounted` lists what a loop that was recognised as a counted loop is like.  Its
blocks are left through the header only, and it is entered from the preheader only.
-/

namespace LoopNest

/-- What an operand of a loop is invariant by. -/
def NaturalLoop.Invariant (l : NaturalLoop) (f : Func) : Operand → Prop
  | .inst i => ∃ b, f.owner i = some b ∧ b ∉ l.blocks ∧ (FlowGraph.ofFunc f).Dominates b l.header
  | _ => True

theorem NaturalLoop.isInvariant_iff {l : NaturalLoop} {f : Func} {v : Operand} :
    l.isInvariant f (.ofGraph (.ofFunc f)) v = true ↔ l.Invariant f v := by
  cases v with
  | inst i =>
    simp only [NaturalLoop.isInvariant, NaturalLoop.Invariant]
    cases f.owner i with
    | none => simp
    | some b => simp [NaturalLoop.contains, DomTree.dominates_ofGraph]
  | param k => simp [NaturalLoop.isInvariant, NaturalLoop.Invariant]
  | const c => simp [NaturalLoop.isInvariant, NaturalLoop.Invariant]

theorem NaturalLoop.mem_exits {l : NaturalLoop} {f : Func} {e : BlockId} :
    e ∈ l.exits f ↔ (∃ b ∈ l.blocks, e ∈ f.successors b) ∧ e ∉ l.blocks := by
  simp [NaturalLoop.exits, NaturalLoop.contains]

/-- What dominates a block after the header, and is neither of the two, is not in the loop. -/
theorem IsLoop.invariant_of_dominates {f : Func} {l : NaturalLoop} (hl : IsLoop (.ofFunc f) l)
    {j : InstId} {d b : BlockId} (hd : f.owner j = some d) (hdom : (FlowGraph.ofFunc f).Dominates d b)
    (hdb : d ≠ b) (hdh : d ≠ l.header) (he : (FlowGraph.ofFunc f).Edge l.header b) :
    l.Invariant f (.inst j) := by
  have hheader := hdom.of_edge he hdb
  exact ⟨d, hd, fun hmem => hdh (hheader.antisymm (hl.dominates hmem) hl.reachable), hheader⟩

/-- A value is used outside a loop if it is an operand there. -/
theorem Func.Framed.usedOutside_iff {f : Func} {l : NaturalLoop} {i : InstId} (hf : f.Framed) :
    f.usedOutside l.contains i = true ↔
      ∃ c ∈ f.layout, c ∉ l.blocks ∧ ∃ u ∈ f.body c, Operand.inst i ∈ (f.op u).operands := by
  simp only [Func.usedOutside, Func.users, Func.liveInsts, List.any_eq_true, List.mem_filter,
    List.mem_flatMap, List.contains_iff_mem]
  constructor
  · rintro ⟨u, ⟨⟨c, hc, hu⟩, hmem⟩, hout⟩
    rw [hf.owner_eq c hc u hu] at hout
    exact ⟨c, hc, by simpa [NaturalLoop.contains] using hout, u, hu, hmem⟩
  · rintro ⟨c, hc, hout, u, hu, hmem⟩
    refine ⟨u, ⟨⟨c, hc, hu⟩, hmem⟩, ?_⟩
    simp [hf.owner_eq c hc u hu, NaturalLoop.contains, hout]

/-- A value that is not used outside a loop is no operand there. -/
theorem Func.WellFormed.not_usedOutside {f : Func} {l : NaturalLoop} {i : InstId}
    (hf : f.WellFormed) (h : f.usedOutside l.contains i = false) {c : BlockId} (hc : c ∈ f.layout)
    (hout : c ∉ l.blocks) {u : InstId} (hu : u ∈ f.body c) : Operand.inst i ∉ (f.op u).operands :=
  fun hmem => by cases h.symm.trans (hf.framed.usedOutside_iff.mpr ⟨c, hc, hout, u, hu, hmem⟩)

namespace CountedLoop

/-- A counted loop of a function, and the natural loop that it is. -/
structure IsCounted (f : Func) (l : NaturalLoop) (c : CountedLoop) : Prop where
  header_eq : c.header = l.header
  /-- The loop is entered from the preheader, which leads nowhere else. -/
  preheader_out : c.preheader ∉ l.blocks
  preheader_mem : c.preheader ∈ f.predecessors l.header
  eq_preheader : ∀ p ∈ f.predecessors l.header, p ∉ l.blocks → p = c.preheader
  preheader_succ : f.successors c.preheader = [l.header]
  /-- There is one latch. -/
  latches_eq : l.latches = [c.latch]
  /-- Only the header leaves the loop, to an exit that is entered from the loop only. -/
  exiting_eq : l.exitingBlocks f = [l.header]
  exit_pred : ∀ p ∈ f.predecessors c.exit, p ∈ l.blocks
  exitBranch : ∃ t, f.terminator? l.header = some t ∧
    f.op t = .condBr (.inst c.cond) c.bodyEntry c.exit
  bodyEntry_mem : c.bodyEntry ∈ l.blocks
  exit_out : c.exit ∉ l.blocks
  /-- The induction value is the only phi of the header. -/
  phis_eq : f.phis l.header = [c.induction]
  start_eq : f.incoming? c.induction c.preheader = some c.start
  next_eq : f.incoming? c.induction c.latch = some (.inst c.next)
  start_inv : l.Invariant f c.start
  /-- The exit test compares it with the bound. -/
  cond_op : f.op c.cond = .icmp .ult c.iv c.bound
  cond_owner : f.owner c.cond = some l.header
  bound_inv : l.Invariant f c.bound
  /-- The latch counts up by a positive constant. -/
  next_op : addedConstant? f c.iv c.next = some c.step
  next_owner : f.owner c.next = some c.latch
  step_pos : 0 < c.step.toInt
  body_eq : c.body = l.blocks.filter fun b => b ≠ l.header ∧ b ≠ c.latch

theorem single_eq_ok {e : Nat → ShapeError} {bs : List BlockId} {b : BlockId} :
    single e bs = .ok b ↔ bs = [b] := by
  unfold single
  split
  · simp
  · rename_i hne
    simp only [reduceCtorEq, false_iff]
    rintro rfl
    exact hne b rfl

variable {f : Func} {l : NaturalLoop} {c : CountedLoop}

/-- What an added constant is added to. -/
theorem op_of_addedConstant? {iv : Operand} {i : InstId} {v : Int64}
    (h : addedConstant? f iv i = some v) : ∃ a b, f.op i = .binary .add a b ∧
      (a = iv ∧ f.intLiteral? b = some v ∨ b = iv ∧ f.intLiteral? a = some v) := by
  unfold addedConstant? at h
  split at h
  · next a b hop =>
    refine ⟨a, b, hop, ?_⟩
    split at h
    · next ha => exact .inl ⟨ha, h⟩
    · split at h
      · next hb => exact .inr ⟨hb, h⟩
      · cases h
  · cases h

theorem preheader_of_eq_some {g : FlowGraph} {p : BlockId} (h : l.preheader? f g = some p) :
    ((g.predecessors l.header).filter fun p => !l.contains p) = [p] ∧
      f.successors p = [l.header] := by
  unfold NaturalLoop.preheader? at h
  split at h
  · rename_i q hq
    split at h
    · rename_i hs
      cases h
      exact ⟨hq, hs⟩
    · cases h
  · cases h

/-- The preheader is the only block outside a loop that leads to it. -/
theorem mem_preheader_iff {p : BlockId} (h : l.preheader? f (.ofFunc f) = some p) (q : BlockId) :
    q ∈ f.predecessors l.header ∧ q ∉ l.blocks ↔ q = p := by
  have hp := (preheader_of_eq_some h).1
  rw [FlowGraph.predecessors_ofFunc] at hp
  have : q ∈ (f.predecessors l.header).filter (fun p => !l.contains p) ↔ q ∈ [p] := by rw [hp]
  simpa [NaturalLoop.contains, List.mem_filter] using this

theorem exitBranch_eq_ok {exiting t e : BlockId} {v : Operand}
    (h : CountedLoop.exitBranch f l exiting = .ok (v, t, e)) :
    (∃ i, f.terminator? l.header = some i ∧ f.op i = .condBr v t e) ∧ exiting = l.header ∧
      t ∈ l.blocks ∧ e ∉ l.blocks := by
  unfold CountedLoop.exitBranch at h
  cases ht : f.terminator? l.header with
  | none => simp [ht] at h
  | some i =>
    simp only [ht, Option.map_some] at h
    split at h
    · rename_i hop
      split at h
      · rename_i hcond
        cases h
        obtain ⟨h₁, h₂, h₃⟩ := hcond
        refine ⟨⟨i, rfl, Option.some.inj hop⟩, h₁, ?_, ?_⟩
        · simpa [NaturalLoop.contains] using h₂
        · simpa [NaturalLoop.contains] using h₃
      · cases h
    · cases h

theorem inductionPhi_eq_ok {header : BlockId} {i : InstId}
    (h : inductionPhi f header = .ok i) : f.phis header = [i] := by
  unfold inductionPhi at h
  split at h
  · cases h
  · rename_i hp
    cases h
    exact hp
  · cases h

theorem incoming_eq_ok {phi : InstId} {p : BlockId} {v : Operand} :
    incoming f phi p = .ok v ↔ f.incoming? phi p = some v := by
  unfold incoming
  cases f.incoming? phi p <;> simp

theorem boundTest_eq_ok {dom : DomTree} {iv v bound : Operand} {i : InstId}
    (h : boundTest f dom l iv v = .ok (i, bound)) :
    v = .inst i ∧ f.op i = .icmp .ult iv bound ∧ l.isInvariant f dom bound = true ∧
      f.owner i = some l.header := by
  unfold boundTest at h
  split at h
  · split at h
    · rename_i hop
      split at h
      · rename_i hc
        cases h
        exact ⟨rfl, hc.1 ▸ hop, hc.2⟩
      · cases h
    · cases h
  · cases h

theorem advance_eq_ok {latch : BlockId} {iv v : Operand} {i : InstId} {s : Int64}
    (h : advance f latch iv v = .ok (i, s)) :
    v = .inst i ∧ addedConstant? f iv i = some s ∧ 0 < s.toInt ∧ f.owner i = some latch := by
  unfold advance at h
  split at h
  · split at h
    · rename_i hs
      split at h
      · rename_i hc
        cases h
        exact ⟨rfl, hs, hc⟩
      · cases h
    · cases h
  · cases h

/-- What the recognition of a loop reads. -/
theorem recognize_eq_ok {g : FlowGraph} {dom : DomTree} : recognize f g dom l = .ok c ↔
    l.preheader? f g = some c.preheader ∧ l.latches = [c.latch] ∧
    (∃ exiting, l.exitingBlocks f = [exiting] ∧
      (∀ e ∈ l.exits f, l.isDedicatedExit g e = true) ∧
      CountedLoop.exitBranch f l exiting = .ok (.inst c.cond, c.bodyEntry, c.exit)) ∧
    inductionPhi f l.header = .ok c.induction ∧
    incoming f c.induction c.preheader = .ok c.start ∧
    (∃ v, incoming f c.induction c.latch = .ok v ∧ advance f c.latch c.iv v = .ok (c.next, c.step)) ∧
    boundTest f dom l c.iv (.inst c.cond) = .ok (c.cond, c.bound) ∧
    l.isInvariant f dom c.start = true ∧ c.header = l.header ∧
    c.body = l.blocks.filter fun b => b ≠ l.header ∧ b ≠ c.latch := by
  have hfind : ((l.exits f).find? fun e => !l.isDedicatedExit g e) = none ↔
      ∀ e ∈ l.exits f, l.isDedicatedExit g e = true := by
    rw [List.find?_eq_none]
    simp
  rw [recognize]
  constructor
  · intro h
    cases hpre : l.preheader? f g with
    | none =>
      simp only [hpre] at h
      cases h
    | some preheader =>
      simp only [hpre, bind_eq_ok_iff, single_eq_ok] at h
      obtain ⟨_, hok, latch, hlatch, exiting, hexiting, h⟩ := h
      cases hok
      split at h
      · cases h
      · rename_i hded
        simp only [bind_eq_ok_iff] at h
        obtain ⟨⟨v, t, e⟩, hbr, phi, hphi, start, hstart, nv, hnext, ⟨i, bound⟩, htest, ⟨n, s⟩, hadv,
          h⟩ := h
        split at h
        · rename_i hinv
          cases h
          have hv := (boundTest_eq_ok htest).1
          subst hv
          exact ⟨rfl, hlatch, ⟨exiting, hexiting, hfind.mp hded, hbr⟩, hphi, hstart,
            ⟨nv, hnext, hadv⟩, htest, hinv, rfl, rfl⟩
        · cases h
  · rintro ⟨hpre, hlatch, ⟨exiting, hexiting, hded, hbr⟩, hphi, hstart, ⟨v, hnext, hadv⟩, htest,
      hinv, hheader, hbody⟩
    simp only [hpre, bind_eq_ok_iff, single_eq_ok]
    refine ⟨_, rfl, _, hlatch, _, hexiting, ?_⟩
    rw [hfind.mpr hded]
    simp only [bind_eq_ok_iff]
    refine ⟨_, hbr, _, hphi, _, hstart, _, hnext, _, htest, _, hadv, ?_⟩
    rw [if_pos hinv, ← hheader]
    rw [← hheader] at hbody
    rw [← hbody]
    rfl

/-- A loop that is recognised is a counted loop. -/
theorem isCounted_of_recognize
    (h : recognize f (.ofFunc f) (.ofGraph (.ofFunc f)) l = .ok c) : IsCounted f l c := by
  obtain ⟨hpre, hlatch, ⟨exiting, hexiting, hded, hbr⟩, hphi, hstart, ⟨v, hnext, hadv⟩, htest,
    hinv, hheader, hbody⟩ := recognize_eq_ok.mp h
  obtain ⟨hp, hsucc⟩ := preheader_of_eq_some hpre
  obtain ⟨hterm, hex, ht, he⟩ := exitBranch_eq_ok hbr
  obtain ⟨_, hcond, hbinv, hcown⟩ := boundTest_eq_ok htest
  obtain ⟨rfl, hadd, hpos, hnown⟩ := advance_eq_ok hadv
  subst hex
  have hmem : l.header ∈ l.blocks := by
    have : l.header ∈ l.exitingBlocks f := hexiting ▸ List.mem_singleton.mpr rfl
    exact (List.mem_filter.mp this).1
  have hexits : c.exit ∈ l.exits f := by
    obtain ⟨k, hk, hop⟩ := hterm
    have hsucc : c.exit ∈ f.successors l.header := by
      rw [Func.mem_successors_iff hk, hop]
      simp [Op.targets]
    exact NaturalLoop.mem_exits.mpr ⟨⟨_, hmem, hsucc⟩, he⟩
  have hded' := hded _ hexits
  simp only [NaturalLoop.isDedicatedExit, FlowGraph.predecessors_ofFunc, List.all_eq_true,
    NaturalLoop.contains, List.contains_iff_mem] at hded'
  have hp' := mem_preheader_iff hpre
  have hph := (hp' c.preheader).mpr rfl
  rw [NaturalLoop.isInvariant_iff] at hinv hbinv
  exact ⟨hheader, hph.2, hph.1, fun q hq ho => (hp' q).mp ⟨hq, ho⟩, hsucc, hlatch, hexiting, hded',
    hterm, ht, he, inductionPhi_eq_ok hphi, incoming_eq_ok.mp hstart, incoming_eq_ok.mp hnext,
    hinv, hcond, hcown, hbinv, hadd, hnown, hpos, hbody⟩

theorem IsCounted.preheader?_eq (hc : IsCounted f l c) (hlayout : f.layout.Nodup) :
    l.preheader? f (.ofFunc f) = some c.preheader := by
  have hfilter : (f.predecessors l.header).filter (fun p => !l.contains p) = [c.preheader] := by
    refine List.perm_singleton.mp ((List.perm_ext_iff_of_nodup ((hlayout.filter _).filter _)
      (List.nodup_singleton _)).mpr fun p => ?_)
    rw [List.mem_filter, List.mem_singleton, Bool.not_eq_true', NaturalLoop.contains,
      List.contains_eq_mem, decide_eq_false_iff_not]
    refine ⟨fun h => hc.eq_preheader p h.1 h.2, ?_⟩
    rintro rfl
    exact ⟨hc.preheader_mem, hc.preheader_out⟩
  rw [NaturalLoop.preheader?, FlowGraph.predecessors_ofFunc, hfilter]
  exact if_pos hc.preheader_succ

theorem IsCounted.exits_eq_exit (hc : IsCounted f l c) {e : BlockId} (he : e ∈ l.exits f) :
    e = c.exit := by
  obtain ⟨⟨b, hb, hs⟩, hout⟩ := NaturalLoop.mem_exits.mp he
  have hb : b = l.header := List.mem_singleton.mp <| hc.exiting_eq ▸
    List.mem_filter.mpr ⟨hb, List.any_eq_true.mpr ⟨e, hs, by simpa [NaturalLoop.contains] using hout⟩⟩
  subst hb
  obtain ⟨t, ht, hop⟩ := hc.exitBranch
  rw [Func.mem_successors_iff ht, hop] at hs
  rcases List.mem_pair.mp hs with rfl | rfl
  · exact absurd hc.bodyEntry_mem hout
  · rfl

/-- A counted loop is recognised. -/
theorem recognize_of_isCounted (hc : IsCounted f l c) (hlayout : f.layout.Nodup) :
    recognize f (.ofFunc f) (.ofGraph (.ofFunc f)) l = .ok c := by
  have hdedicated : ∀ e ∈ l.exits f, l.isDedicatedExit (.ofFunc f) e = true := by
    intro e he
    rw [hc.exits_eq_exit he]
    simpa [NaturalLoop.isDedicatedExit, FlowGraph.predecessors_ofFunc, NaturalLoop.contains] using
      hc.exit_pred
  have hbranch : CountedLoop.exitBranch f l l.header = .ok (.inst c.cond, c.bodyEntry, c.exit) := by
    obtain ⟨t, ht, hop⟩ := hc.exitBranch
    simp [CountedLoop.exitBranch, ht, hop, NaturalLoop.contains, hc.bodyEntry_mem, hc.exit_out]
  have hphi : inductionPhi f l.header = .ok c.induction := by
    rw [inductionPhi, hc.phis_eq]
  have htest : boundTest f (.ofGraph (.ofFunc f)) l c.iv (.inst c.cond) =
      .ok (c.cond, c.bound) := by
    simp [boundTest, hc.cond_op, NaturalLoop.isInvariant_iff.mpr hc.bound_inv, hc.cond_owner]
  have hadvance : advance f c.latch c.iv (.inst c.next) = .ok (c.next, c.step) := by
    simp [advance, hc.next_op, hc.step_pos, hc.next_owner]
  exact recognize_eq_ok.mpr ⟨hc.preheader?_eq hlayout, hc.latches_eq,
    ⟨l.header, hc.exiting_eq, hdedicated, hbranch⟩, hphi, incoming_eq_ok.mpr hc.start_eq,
    ⟨_, incoming_eq_ok.mpr hc.next_eq, hadvance⟩, htest,
    NaturalLoop.isInvariant_iff.mpr hc.start_inv, hc.header_eq, hc.body_eq⟩

/-! ## Entering and leaving -/

section

variable (hf : ∀ e, f.entry? = some e → f.predecessors e = []) (hl : IsLoop (.ofFunc f) l)
  (hc : IsCounted f l c)

include hl in
theorem live_of_mem {b : BlockId} (hb : b ∈ l.blocks) : b ∈ f.layout :=
  FlowGraph.blocks_ofFunc f ▸ (hl.reachable_mem hb).live

include hl hc in
theorem latch_edge : (FlowGraph.ofFunc f).Edge c.latch l.header ∧
    (FlowGraph.ofFunc f).Dominates l.header c.latch := by
  have hmem : c.latch ∈ l.latches := hc.latches_eq ▸ List.mem_singleton.mpr rfl
  obtain ⟨he, _, hd⟩ := (hl.mem_latches _).mp hmem
  exact ⟨he, hd⟩

include hl hc in
theorem latch_mem : c.latch ∈ l.blocks :=
  hl.latch_mem (hc.latches_eq ▸ List.mem_singleton.mpr rfl)

include hl hc in
/-- The latch is the only block of the loop that leads to the header. -/
theorem eq_latch {b : BlockId} (hb : b ∈ l.blocks) (hs : l.header ∈ f.successors b) :
    b = c.latch := by
  have hmem : b ∈ l.latches := by
    refine (hl.mem_latches b).mpr ⟨?_, hl.reachable_mem hb, hl.dominates hb⟩
    exact (FlowGraph.edge_ofFunc f b l.header).mpr
      ⟨live_of_mem hl hb, live_of_mem hl hl.header_mem, hs⟩
  rw [hc.latches_eq] at hmem
  exact List.mem_singleton.mp hmem

include hc in
/-- The header leads into the loop and out of it. -/
theorem header_successors {y : BlockId} :
    y ∈ f.successors l.header ↔ y = c.bodyEntry ∨ y = c.exit := by
  obtain ⟨t, ht, hop⟩ := hc.exitBranch
  rw [Func.mem_successors_iff ht, hop]
  simp [Op.targets]

include hc in
theorem bodyEntry_ne_exit : c.bodyEntry ≠ c.exit := fun h => hc.exit_out (h ▸ hc.bodyEntry_mem)

include hc in
/-- The loop is left from the header only. -/
theorem mem_of_successor {b y : BlockId} (hb : b ∈ l.blocks) (hy : y ∈ f.successors b) :
    y ∈ l.blocks ∨ b = l.header ∧ y = c.exit := by
  by_cases hmem : y ∈ l.blocks
  · exact .inl hmem
  · have hex : b ∈ l.exitingBlocks f := by
      refine List.mem_filter.mpr ⟨hb, List.any_eq_true.mpr ⟨y, hy, ?_⟩⟩
      simpa [NaturalLoop.contains] using hmem
    rw [hc.exiting_eq, List.mem_singleton] at hex
    subst hex
    rcases (header_successors hc).mp hy with rfl | rfl
    · exact absurd hc.bodyEntry_mem hmem
    · exact .inr ⟨rfl, rfl⟩

include hl hc in
theorem successors_ne_nil {b : BlockId} (hb : b ∈ l.blocks) : f.successors b ≠ [] := by
  by_cases hh : b = l.header
  · subst hh
    exact List.ne_nil_of_mem ((header_successors hc).mpr (.inl rfl))
  · obtain ⟨p, hp, trail, hpath, hok⟩ := hl.via_to_latch hb hh
    cases hpath with
    | here _ =>
      have he := ((hl.mem_latches b).mp hp).1
      exact List.ne_nil_of_mem ((FlowGraph.edge_ofFunc f b _).mp he).2.2
    | step he _ => exact List.ne_nil_of_mem ((FlowGraph.edge_ofFunc f b _).mp he).2.2

include hl hc in
/-- Control enters the loop from the preheader. -/
theorem eq_preheader_of_edge {a b : BlockId} (ha : (FlowGraph.ofFunc f).Reachable a)
    (hout : a ∉ l.blocks) (hb : b ∈ l.blocks) (hs : b ∈ f.successors a) :
    a = c.preheader ∧ b = l.header := by
  have hlive : a ∈ f.layout := FlowGraph.blocks_ofFunc f ▸ ha.live
  have he : (FlowGraph.ofFunc f).Edge a b :=
    (FlowGraph.edge_ofFunc f a b).mpr ⟨hlive, live_of_mem hl hb, hs⟩
  have hbh : b = l.header := by
    by_contra hne
    exact hout (hl.mem_of_edge hb hne he ha)
  subst hbh
  exact ⟨hc.eq_preheader a ((f.mem_predecessors a _).mpr ⟨hlive, hs⟩) hout, rfl⟩

include hf hl in
/-- The only block outside a loop that leads to it dominates it. -/
theorem only_dominates {q : BlockId} (hq : q ∈ f.predecessors l.header)
    (honly : ∀ a ∈ f.predecessors l.header, a ∉ l.blocks → a = q) :
    (FlowGraph.ofFunc f).Dominates q l.header := by
  intro e trail he hp
  rcases hp.first hp.mem_end with rfl | ⟨a, hv, hedge⟩
  · -- The entry has no predecessors, but the latch is one of the header.
    have hnil := hf l.header (by
      rw [← he, FlowGraph.entry?, FlowGraph.blocks_ofFunc]
      rfl)
    rw [hnil] at hq
    exact absurd hq List.not_mem_nil
  · have hout : a ∉ l.blocks := fun hmem =>
      FlowGraph.not_dominates_iff.mpr ⟨e, he, hv.mono fun _ hy => hy.1⟩ (hl.dominates hmem)
    obtain ⟨hlive, _, hs⟩ := (FlowGraph.edge_ofFunc f a _).mp hedge
    obtain rfl := honly a ((f.mem_predecessors a _).mpr ⟨hlive, hs⟩) hout
    exact hv.stop.2

include hf hl hc in
/-- The preheader dominates the loop. -/
theorem preheader_dominates : (FlowGraph.ofFunc f).Dominates c.preheader l.header :=
  only_dominates hf hl hc.preheader_mem hc.eq_preheader

include hf hl hc in
/-- The preheader can be reached. -/
theorem preheader_reachable : (FlowGraph.ofFunc f).Reachable c.preheader :=
  (preheader_dominates hf hl hc).reachable hl.reachable

include hf hl hc in
/-- The entry has no predecessors, so it is in no loop. -/
theorem entry_not_mem {e : BlockId} (he : f.entry? = some e) : e ∉ l.blocks := by
  have hnil := hf e he
  intro hmem
  by_cases heh : e = l.header
  · have := hc.preheader_mem
    rw [← heh, hnil] at this
    exact absurd this List.not_mem_nil
  · obtain ⟨c, hedge, trail, hp, _⟩ := hl.via_from_header hmem heh
    have hpred : ∀ {a : BlockId}, (FlowGraph.ofFunc f).Edge a e → False := by
      intro a ha
      obtain ⟨hlive, _, hs⟩ := (FlowGraph.edge_ofFunc f a e).mp ha
      have := (f.mem_predecessors a e).mpr ⟨hlive, hs⟩
      rw [hnil] at this
      exact absurd this List.not_mem_nil
    rcases hp.first hp.mem_end with rfl | ⟨a, _, hae⟩
    · exact hpred hedge
    · exact hpred hae

end

end CountedLoop

end LoopNest
